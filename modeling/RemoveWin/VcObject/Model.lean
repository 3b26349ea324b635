import RemoveWin.Lib.OpBased
import RemoveWin.VectorClock

/-!
# Vector clocks as objects

`vcnewCommand`, `vcgetCommand` and `vcincCommand` of `vector_clock.c`, which keep a vector clock
under a key. `VCINC` broadcasts the clock one higher at the replica that was asked, and its effect
stores the clock it carries if `compareVC` takes the stored one for smaller. The clocks are not
joined.

A `VCNEW` that arrives where the key exists stops the server on an assertion of `dbAdd`, and a
`VCINC` that arrives where it does not follows a null pointer. Both are the state `none`.

## Main definitions

* `RemoveWin.VcObj`, `VcKeys`, `VcCmd`, `VcMsg`
* `RemoveWin.vcPrepare`, `vcEffect`, `vcget`
* `RemoveWin.vcObject` — the replicated object
* `RemoveWin.created`, `incAt` — when and where commands are issued
-/

namespace RemoveWin

open Replicated

/-- What a key holds: a vector clock, or a value of another type. -/
inductive VcObj where
  | clock (c : VC)
  | other
  deriving DecidableEq

/-- A key space of vector clocks. -/
abbrev VcKeys := Sds → Option VcObj

/-- The replies. -/
inductive VcReply where
  | ok
  | syntaxerr
  | alreadyexisterr
  | nokeyerr
  | wrongtypeerr
  | clock (c : VC)
  deriving DecidableEq

/-- The updates, with further arguments. -/
inductive VcCmd where
  | new (key : Sds) (more : List Sds)
  | inc (key : Sds) (more : List Sds)

/-- What is broadcast. -/
structure VcMsg where
  /-- Whether the effect is that of `vcnewCommand` or of `vcincCommand`. -/
  isNew : Bool
  /-- The key. -/
  key : Sds
  /-- The clock. -/
  clock : VC
  deriving DecidableEq

/-- `vcnewCommand`, prepare phase. -/
def vcnewPrepare (srv : Server) (key : Sds) (more : List Sds) (ks : VcKeys) :
    VcReply × Option VcMsg :=
  if more ≠ [] then (.syntaxerr, none)
  else
    match ks key with
    | some _ => (.alreadyexisterr, none)
    | none => (.ok, some ⟨true, key, lNewVC srv⟩)

/-- `vcincCommand`, prepare phase. -/
def vcincPrepare (srv : Server) (key : Sds) (more : List Sds) (ks : VcKeys) :
    VcReply × Option VcMsg :=
  if more ≠ [] then (.syntaxerr, none)
  else
    match ks key with
    | none => (.nokeyerr, none)
    | some .other => (.wrongtypeerr, none)
    | some (.clock c) => (.ok, some ⟨false, key, lIncreaseVC srv c⟩)

/-- The prepare phase of either command. -/
def vcPrepare (srv : Server) : VcCmd → VcKeys → VcReply × Option VcMsg
  | .new key more, ks => vcnewPrepare srv key more ks
  | .inc key more, ks => vcincPrepare srv key more ks

/-- `vcgetCommand`. -/
def vcget (key : Sds) (ks : VcKeys) : VcReply :=
  match ks key with
  | none => .nokeyerr
  | some .other => .wrongtypeerr
  | some (.clock c) => .clock c

/-- The effect of either command. -/
def vcEffect (m : VcMsg) (ks : VcKeys) : Option VcKeys :=
  match m.isNew, ks m.key with
  | true, none => some (Function.update ks m.key (some (.clock m.clock)))
  | true, some _ => none
  | false, some (.clock o) =>
    some (if compareVC o m.clock < 0 then Function.update ks m.key (some (.clock m.clock)) else ks)
  | false, _ => none

/-- The clock objects of `N` servers, as a replicated object. -/
def vcObject {N : ℕ} (iter : Fin N → Iteration) :
    OpBased (Fin N) (Option VcKeys) VcCmd VcMsg where
  init _ := some fun _ => none
  prepare r c s := s.map fun ks => (some ks, (vcPrepare (.of iter r) c ks).2)
  effect _ m s := s.bind (vcEffect m)

section

variable {N : ℕ}

/-- A clock is created before it is used. `VCNEW` of a key is issued where every `VCNEW` of it has
arrived, so only the first can be accepted, and `VCINC` when it has arrived everywhere. -/
def created : Cond (Fin N) (Option VcKeys) VcCmd VcMsg
  | g, .client r (.new key _), _ =>
    ∀ e ∈ g.log, e.msg.isNew → e.msg.key = key → e.id ∈ g.appliedIds r
  | g, .client _ (.inc key _), _ =>
    ∀ e ∈ g.log, e.msg.isNew → e.msg.key = key → ∀ r, e.id ∈ g.appliedIds r
  | _, .deliver _ _, _ => True

/-- `VCINC` of a key is issued at certain replicas only. -/
def incAt (key : Sds) (W : Finset (Fin N)) : Cond (Fin N) (Option VcKeys) VcCmd VcMsg
  | _, .client r (.inc k _), _ => k = key → r ∈ W
  | _, _, _ => True

instance decidableCreated (g : Net (Fin N) (Option VcKeys) VcMsg) (a : Act (Fin N) VcCmd)
    (g' : Net (Fin N) (Option VcKeys) VcMsg) : Decidable (created g a g') :=
  match a with
  | .client r (.new key _) => inferInstanceAs (Decidable
      (∀ e ∈ g.log, e.msg.isNew → e.msg.key = key → e.id ∈ g.appliedIds r))
  | .client _ (.inc key _) => inferInstanceAs (Decidable
      (∀ e ∈ g.log, e.msg.isNew → e.msg.key = key → ∀ r, e.id ∈ g.appliedIds r))
  | .deliver _ _ => inferInstanceAs (Decidable True)

end

/-! ### What the phases do -/

/-- What `VCNEW` sends. -/
theorem vcnewPrepare_eq_some {srv : Server} {key : Sds} {more : List Sds} {ks : VcKeys} {m : VcMsg}
    (h : (vcnewPrepare srv key more ks).2 = some m) :
    more = [] ∧ ks key = none ∧ m = ⟨true, key, lNewVC srv⟩ := by
  rw [vcnewPrepare] at h
  split at h
  · cases h
  · next hmore =>
    split at h
    · cases h
    · next hkey => exact ⟨not_not.mp hmore, hkey, (Option.some.inj h).symm⟩

/-- What `VCINC` sends. -/
theorem vcincPrepare_eq_some {srv : Server} {key : Sds} {more : List Sds} {ks : VcKeys} {m : VcMsg}
    (h : (vcincPrepare srv key more ks).2 = some m) :
    more = [] ∧ ∃ c, ks key = some (.clock c) ∧ m = ⟨false, key, lIncreaseVC srv c⟩ := by
  rw [vcincPrepare] at h
  split at h
  · cases h
  · next hmore =>
    split at h
    · cases h
    · cases h
    · next c hkey => exact ⟨not_not.mp hmore, c, hkey, (Option.some.inj h).symm⟩

theorem vcEffect_of_new {m : VcMsg} {ks : VcKeys} (hnew : m.isNew) (hkey : ks m.key = none) :
    vcEffect m ks = some (Function.update ks m.key (some (.clock m.clock))) := by
  simp [vcEffect, hnew, hkey]

theorem vcEffect_of_inc {m : VcMsg} {ks : VcKeys} {o : VC} (hinc : ¬ m.isNew)
    (hkey : ks m.key = some (.clock o)) :
    vcEffect m ks = some (if compareVC o m.clock < 0 then
      Function.update ks m.key (some (.clock m.clock)) else ks) := by
  simp [vcEffect, hinc, hkey]

/-- **Everything an effect can do** if the server survives it. -/
theorem vcEffect_cases {m : VcMsg} {ks ks' : VcKeys} (h : vcEffect m ks = some ks') :
    (m.isNew ∧ ks m.key = none ∧ ks' = Function.update ks m.key (some (.clock m.clock))) ∨
      (¬ m.isNew ∧ ∃ o, ks m.key = some (.clock o) ∧
        ks' = if compareVC o m.clock < 0 then Function.update ks m.key (some (.clock m.clock))
          else ks) := by
  rw [vcEffect] at h
  split at h
  · next hnew hkey => exact .inl ⟨hnew, hkey, (Option.some.inj h).symm⟩
  · cases h
  · next o hnew hkey => exact .inr ⟨by simp [hnew], o, hkey, (Option.some.inj h).symm⟩
  · cases h

theorem vcEffect_of_ne {m : VcMsg} {ks ks' : VcKeys} (h : vcEffect m ks = some ks') {k : Sds}
    (hk : k ≠ m.key) : ks' k = ks k := by
  obtain ⟨-, -, rfl⟩ | ⟨-, o, -, rfl⟩ := vcEffect_cases h
  · exact Function.update_of_ne hk ..
  · split
    · exact Function.update_of_ne hk ..
    · rfl

section

variable {N : ℕ} {iter : Fin N → Iteration}

theorem vcObject_prepare {r : Fin N} {c : VcCmd} {s s' : Option VcKeys} {o : Option VcMsg}
    (h : (vcObject iter).prepare r c s = some (s', o)) :
    s' = s ∧ ∃ ks, s = some ks ∧ o = (vcPrepare (.of iter r) c ks).2 := by
  obtain ⟨ks, rfl, heq⟩ := Option.map_eq_some_iff.mp h
  cases heq
  exact ⟨rfl, ks, rfl, rfl⟩

end

end RemoveWin
