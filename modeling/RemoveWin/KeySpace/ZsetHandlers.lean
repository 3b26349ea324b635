import RemoveWin.KeySpace.Handlers

/-!
# Handlers of the priority queues

What the handlers of the two priority queues have in common: they look at the sorted set they name,
and then access its table.
-/

namespace RemoveWin

open Containers

/-- What a prepare phase leaves behind, as a result of the handlers of a family. -/
def ZPrepared.result {σ Msg : Type} (p : ZPrepared σ Msg) : σ × ZReply × Option Msg :=
  (p.state, p.reply, p.msg)

section

variable {σ σ' Msg : Type} {R : σ → σ' → Prop} {good : Msg → Prop}

/-- Prepare phases that answer and send the same, which is `good`, and leave states related. -/
def ZPrepared.Same (R : σ → σ' → Prop) (good : Msg → Prop) (p : ZPrepared σ Msg)
    (q : ZPrepared σ' Msg) : Prop := Answered R good p.result q.result

variable {s : σ} {s' : σ'}

theorem ZPrepared.Same.refused (h : R s s') (reply : ZReply) :
    Same R good ⟨s, reply, none⟩ ⟨s', reply, none⟩ := ⟨h, rfl, nofun⟩

theorem ZPrepared.Same.accepted (h : R s s') {m : Msg} (hm : good m) :
    Same R good ⟨s, .ok, some m⟩ ⟨s', .ok, some m⟩ := by
  refine ⟨h, rfl, ?_⟩
  rintro _ ⟨⟩
  exact hm

end

/-- The check at the beginning of a prepare phase looks at the key only. -/
theorem checkArgcAndZsetType_congr {ks ks' : ZKeys} {key : Sds} (h : ks key = ks' key)
    (more : List Sds) : checkArgcAndZsetType ks key more = checkArgcAndZsetType ks' key more := by
  rw [checkArgcAndZsetType, checkArgcAndZsetType, h]

/-! ### In the key space -/

section

variable {ε : Type} {read : Sds → ℚ} {suffix : Sds} {S : Set Sds} {P : RedisObj ε → Prop}
  {s : Option (Space ε)} {db : ZDb ε}

/-- A server that is up, and holds the sorted sets and the metadata of `db`. -/
abbrev ZsetsHeld (read : Sds → ℚ) (suffix : Sds) (S : Set Sds) :
    Option (Space ε) → ZDb ε → Prop :=
  Up (Private (RedisObj.asZObj read) suffix RedisObj.IsZset S)

/-- **The score of any member at any key.** A table is no sorted set. -/
theorem Up.score_eq (h : Up (Private (RedisObj.asZObj read) suffix P S) s db) (k x : Sds) :
    (readZsets read suffix s).keys.score k x = db.keys.score k x := by
  obtain ⟨sp, rfl, hsp⟩ := h
  show ZKeys.score (fun k => (sp k).map (RedisObj.asZObj read)) k x = db.keys.score k x
  rcases hsp.views_eq k with heq | ⟨hnone, o, ho, heq⟩
  · rw [ZKeys.score, ZKeys.score, heq]
  · have hview : o.asZObj read = .other := if_neg (by simp [ho])
    rw [ZKeys.score, ZKeys.score, heq, hnone, hview]

theorem Up.zelems_eq (h : ZsetsHeld read suffix S s db) :
    (readZsets read suffix s).elems = db.elems := by
  obtain ⟨sp, rfl, hsp⟩ := h
  exact hsp.table_eq fun o ho => ho.entry_eq_none

end

end RemoveWin
