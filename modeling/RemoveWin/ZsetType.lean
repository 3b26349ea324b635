import RemoveWin.Db

/-!
# Sorted sets

`t_zset.c` keeps a sorted set in one of two encodings. Both represent a map from members to
scores, and that is what a `Zset` is. Scores are exact rationals here, where the source has
`double`: no operation rounds, and a score is never not-a-number.

The prepare phases of the priority queues all start with `checkArgcAndZsetType`. The score argument
of a command is given by what parsing it yields, so that `getDoubleFromObjectOrReply` is a match.

## Main definitions

* `RemoveWin.Zset`, `zsetAdd`, `zsetDel`; `ZKeys`, `ZDb` — a key space of sorted sets
* `RemoveWin.ZsetUpdate`, `ZsetTables` — what handlers do to a sorted set, and the stores they
  work on
* `RemoveWin.Db.zadd`, `zdel` — `getZsetOrCreate` and an update; `ZKeys.score`
* `RemoveWin.ZReply`, `ZPrepared`, `checkArgcAndZsetType` — how a prepare phase ends
-/

namespace RemoveWin

open Containers

/-- A sorted set: the scores of its members. -/
abbrev Zset := Sds → Option ℚ

/-- `zsetAdd` without flags. -/
def zsetAdd (z : Zset) (score : ℚ) (x : Sds) : Zset := Function.update z x (some score)

/-- `zsetDel`. -/
def zsetDel (z : Zset) (x : Sds) : Zset := Function.update z x none

/-- What a key holds: a sorted set, or a value of another type. -/
inductive ZObj where
  | zset (z : Zset)
  | other

/-- A key space of sorted sets. -/
abbrev ZKeys := Sds → Option ZObj

/-- The score of a member, if it is in the sorted set at the key. -/
def ZKeys.score (ks : ZKeys) (k x : Sds) : Option ℚ :=
  match ks k with
  | some (.zset z) => z x
  | _ => none

/-- Every key holds a sorted set, if anything. -/
def ZKeys.OnlyZsets (ks : ZKeys) : Prop := ∀ k, ks k ≠ some .other

/-- `getZsetOrCreate`, then an update of the sorted set it returned. A key of another type is
beyond the sorted set operations and is left alone here; the prepare phases refuse it. -/
def ZKeys.modifyZset (ks : ZKeys) (k : Sds) (f : Zset → Zset) : ZKeys :=
  Function.update ks k <|
    match ks k with
    | none => some (.zset (f fun _ => none))
    | some (.zset z) => some (.zset (f z))
    | some .other => some .other

theorem ZKeys.OnlyZsets.modifyZset {ks : ZKeys} (h : ks.OnlyZsets) (k : Sds) (f : Zset → Zset) :
    (ks.modifyZset k f).OnlyZsets := by
  intro k'
  by_cases hk : k' = k
  · subst hk
    rw [ZKeys.modifyZset, Function.update_self]
    split
    · simp
    · simp
    · next ho => exact absurd ho (h k')
  · rw [ZKeys.modifyZset, Function.update_of_ne hk]
    exact h k'

theorem ZKeys.OnlyZsets.score_modifyZset {ks : ZKeys} (h : ks.OnlyZsets) {k x : Sds}
    {f : Zset → Zset} {p : Option ℚ → Option ℚ} (hf : ∀ z : Zset, f z x = p (z x)) :
    (ks.modifyZset k f).score k x = p (ks.score k x) := by
  cases hk : ks k with
  | none => simp [ZKeys.score, ZKeys.modifyZset, hk, hf]
  | some o =>
    cases o with
    | zset z => simp [ZKeys.score, ZKeys.modifyZset, hk, hf]
    | other => exact absurd hk (h k)

theorem ZKeys.score_modifyZset_of_ne (ks : ZKeys) {k k' : Sds} (f : Zset → Zset) (x : Sds)
    (h : k' ≠ k) : (ks.modifyZset k f).score k' x = ks.score k' x := by
  simp [ZKeys.score, ZKeys.modifyZset, Function.update_of_ne h]

/-- What handlers do to a sorted set after `getZsetOrCreate`. -/
inductive ZsetUpdate where
  | add (score : ℚ) (x : Sds)
  | del (x : Sds)

/-- The update of a sorted set. -/
def ZsetUpdate.onZset : ZsetUpdate → Zset → Zset
  | add score x => (zsetAdd · score x)
  | del x => (zsetDel · x)

instance : Updates ZObj ZsetUpdate where
  apply u
    | none => some (.zset (u.onZset fun _ => none))
    | some (.zset z) => some (.zset (u.onZset z))
    | some .other => some .other

/-- A store of sorted sets whose members carry an `α` each. -/
abbrev ZsetTables (D α : Type) := Tables D Sds Sds ZObj ZsetUpdate α

/-- Sorted sets whose members carry an `α` each. -/
abbrev ZDb (α : Type) := Db ZKeys α

/-- A database without keys. -/
def ZDb.empty {α : Type} : ZDb α := ⟨fun _ => none, fun _ _ => none⟩

namespace Db

variable {α : Type}

/-- Put a member into the sorted set at a key, or change its score. -/
def zadd (db : ZDb α) (k : Sds) (score : ℚ) (x : Sds) : ZDb α :=
  { db with keys := db.keys.modifyZset k (zsetAdd · score x) }

/-- Take a member out of the sorted set at a key. -/
def zdel (db : ZDb α) (k x : Sds) : ZDb α := { db with keys := db.keys.modifyZset k (zsetDel · x) }

section

variable (fresh : α) (db : ZDb α) (k : Sds) (score : ℚ) (x : Sds)

@[simp] theorem elem_zempty : ZDb.empty.elem fresh k x = fresh := rfl

theorem keys_zadd : (db.zadd k score x).keys = db.keys.modifyZset k (zsetAdd · score x) := rfl

theorem keys_zdel : (db.zdel k x).keys = db.keys.modifyZset k (zsetDel · x) := rfl

@[simp] theorem elem_zadd : (db.zadd k score x).elem fresh = db.elem fresh := rfl

@[simp] theorem elem_zdel : (db.zdel k x).elem fresh = db.elem fresh := rfl

@[simp] theorem update_zadd : Tables.update db k (.add score x) = db.zadd k score x := rfl

@[simp] theorem update_zdel : Tables.update db k (.del x) = db.zdel k x := rfl

end

variable {db : ZDb α} {k k' x x' : Sds} {score : ℚ}

theorem onlyZsets_zadd (h : db.keys.OnlyZsets) : (db.zadd k score x).keys.OnlyZsets := by
  rw [keys_zadd]
  exact h.modifyZset k _

theorem onlyZsets_zdel (h : db.keys.OnlyZsets) : (db.zdel k x).keys.OnlyZsets := by
  rw [keys_zdel]
  exact h.modifyZset k _

theorem score_zadd_self (h : db.keys.OnlyZsets) :
    (db.zadd k score x).keys.score k x = some score := by
  rw [keys_zadd, h.score_modifyZset (p := fun _ => some score)]
  exact fun z => Function.update_self ..

theorem score_zdel_self (h : db.keys.OnlyZsets) : (db.zdel k x).keys.score k x = none := by
  rw [keys_zdel, h.score_modifyZset (p := fun _ => none)]
  exact fun z => Function.update_self ..

theorem score_modifyZset_of_ne (h : db.keys.OnlyZsets) (hne : (k', x') ≠ (k, x))
    {f : Zset → Zset} (hf : ∀ z : Zset, x' ≠ x → f z x' = z x') :
    (db.keys.modifyZset k f).score k' x' = db.keys.score k' x' := by
  by_cases hk : k' = k
  · subst hk
    have hx : x' ≠ x := fun hx => hne (by rw [hx])
    exact h.score_modifyZset (p := id) fun z => hf z hx
  · exact ZKeys.score_modifyZset_of_ne _ _ x' hk

theorem score_zadd_of_ne (h : db.keys.OnlyZsets) (hne : (k', x') ≠ (k, x)) :
    (db.zadd k score x).keys.score k' x' = db.keys.score k' x' := by
  rw [keys_zadd, score_modifyZset_of_ne h hne]
  exact fun z hx => Function.update_of_ne hx ..

theorem score_zdel_of_ne (h : db.keys.OnlyZsets) (hne : (k', x') ≠ (k, x)) :
    (db.zdel k x).keys.score k' x' = db.keys.score k' x' := by
  rw [keys_zdel, score_modifyZset_of_ne h hne]
  exact fun z hx => Function.update_of_ne hx ..

end Db

/-! ### Prepare phases -/

/-- How a prepare phase of a priority queue answers; it always answers once. -/
inductive ZReply where
  | ok
  | syntaxerr
  | wrongtypeerr
  | notFloat
  | eleExist
  | eleNexist
  deriving DecidableEq, Repr

/-- What a prepare phase leaves behind. -/
structure ZPrepared (σ Msg : Type) where
  /-- The database, which the prepare phase may have given new metadata. -/
  state : σ
  /-- The answer. -/
  reply : ZReply
  /-- The message to broadcast, if the command is accepted. -/
  msg : Option Msg

/-- `checkArgcAndZsetType`: why a command is refused, if it is. `more` are the arguments beyond
those the command takes. -/
def checkArgcAndZsetType (ks : ZKeys) (key : Sds) (more : List Sds) : Option ZReply :=
  if more ≠ [] then some .syntaxerr
  else
    match ks key with
    | some .other => some .wrongtypeerr
    | _ => none

end RemoveWin
