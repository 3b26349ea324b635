import RemoveWin.Lib.JoinRegister
import RemoveWin.VectorClock

/-!
# The element header of the remove-win framework

`RWFramework.h`. Every element of a remove-win container starts with a header: the id of the
replica whose add the element belongs to, `-1` if it is not in the container, and a vector clock
that counts the removes the element has seen. Adds and updates carry the clock they were
prepared at, removes carry it one higher, and the three checks decide what an effect may do.

## The header as a join register

Read through `VC.entry`, a header is a `JoinRegister.Register` over `ℕ → ℤ`: a failed
`removeCheck` is `t ≤ current`, `REH_RMV_FUNC` is clearing, and an add that passes `insertCheck`
is a claim by its origin. Whatever is known about join registers then holds of headers, for any
order of arrival.
-/

namespace RemoveWin

open JoinRegister

/-- `reh`: the header at the top of every element. -/
structure Reh where
  /-- The replica whose add the element belongs to, `-1` if there is none. -/
  pid : ℤ
  /-- The removes seen, counted by the replica that issued them. -/
  current : VC
  deriving DecidableEq, Repr

/-- `REH_INIT`. -/
def rehInit (srv : Server) : Reh := ⟨-1, lNewVC srv⟩

/-- `REH_RMV_FUNC`. -/
def rehRmvFunc (h : Reh) (t : VC) : Reh := ⟨-1, updateVC h.current t⟩

/-- `EXISTS`: the element is in the container. -/
def Reh.Exists (h : Reh) : Prop := 0 ≤ h.pid

instance (h : Reh) : Decidable h.Exists := inferInstanceAs (Decidable (0 ≤ h.pid))

/-- `insertCheck`: an add applies at exactly its own clock, the greatest origin winning. -/
def insertCheck (h : Reh) (t : VC) : Bool := equalVC t h.current && h.pid < t.id

/-- `updateCheck`: an update applies at exactly its own clock. -/
def updateCheck (h : Reh) (t : VC) : Bool := equalVC t h.current

/-- `removeCheck`: the clock knows of a remove that the header does not. -/
def removeCheck (h : Reh) (t : VC) : Bool :=
  (List.range t.size).any fun i => h.current.entry i < t.entry i

/-- What an effect first does with any clock it carries. -/
def Reh.rmv (h : Reh) (t : VC) : Reh := if removeCheck h t then rehRmvFunc h t else h

/-- What the effect of an add does next. -/
def Reh.ins (h : Reh) (t : VC) : Reh := if insertCheck h t then { h with pid := t.id } else h

/-! ### The checks -/

theorem removeCheck_iff {h : Reh} {t : VC} (hs : t.size = h.current.size) :
    removeCheck h t = true ↔ ¬ t.entry ≤ h.current.entry := by
  rw [removeCheck, hs]
  exact any_entry_lt_iff hs.symm

theorem not_removeCheck_current (h : Reh) : ¬ removeCheck h h.current := by
  rw [removeCheck_iff rfl, not_not]

theorem removeCheck_nowVC {h : Reh} (hlt : h.current.id.toNat < h.current.size) :
    removeCheck h (nowVC h.current) := by
  rw [removeCheck_iff (size_nowVC _), entry_nowVC hlt]
  intro hle
  have hself := hle h.current.id.toNat
  rw [Function.update_self] at hself
  exact absurd hself (not_le.mpr (lt_add_one _))

theorem insertCheck_iff {h : Reh} {t : VC} (hs : t.size = h.current.size) :
    insertCheck h t = true ↔ t.entry = h.current.entry ∧ h.pid < t.id := by
  simp [insertCheck, equalVC_iff hs]

theorem updateCheck_iff {h : Reh} {t : VC} (hs : t.size = h.current.size) :
    updateCheck h t = true ↔ t.entry = h.current.entry := equalVC_iff hs

/-- An add leaves the element in the container if it was there, or if the add comes at its own
clock. -/
theorem Reh.exists_ins {h : Reh} {t : VC} (hs : t.size = h.current.size) (hid : 0 ≤ t.id) :
    (h.ins t).Exists ↔ h.Exists ∨ t.entry = h.current.entry := by
  rw [Reh.ins]
  split
  · next hi => exact iff_of_true hid (.inr ((insertCheck_iff hs).mp hi).1)
  · next hi =>
    refine ⟨.inl, fun hex => hex.elim (fun hex => hex) fun heq => ?_⟩
    have hge : ¬ h.pid < t.id := fun hlt => hi ((insertCheck_iff hs).mpr ⟨heq, hlt⟩)
    exact hid.trans (not_lt.mp hge)

/-! ### The register of a header -/

/-- The header, as a register over functions. -/
def Reh.register (h : Reh) : Register (ℕ → ℤ) ℤ := ⟨h.current.entry, h.pid⟩

@[simp] theorem Reh.register_current (h : Reh) : h.register.current = h.current.entry := rfl

@[simp] theorem Reh.register_owner (h : Reh) : h.register.owner = h.pid := rfl

theorem Reh.exists_iff_owner {h : Reh} : h.Exists ↔ -1 < h.register.owner := by
  rw [Reh.Exists, Reh.register_owner]
  omega

/-- A clock carried by a message, as an entry for the register. -/
def VC.toEntry (t : VC) (claims : Bool) : Entry (ℕ → ℤ) ℤ := ⟨t.entry, t.id, claims⟩

@[simp] theorem Reh.register_rehInit (srv : Server) : (rehInit srv).register = ⟨0, -1⟩ := by
  simp [Reh.register, rehInit]

@[simp] theorem Reh.size_rmv (h : Reh) (t : VC) : (h.rmv t).current.size = h.current.size := by
  unfold Reh.rmv
  split
  · exact size_updateVC _ _
  · rfl

@[simp] theorem Reh.id_rmv (h : Reh) (t : VC) : (h.rmv t).current.id = h.current.id := by
  unfold Reh.rmv
  split
  · exact id_updateVC _ _
  · rfl

@[simp] theorem Reh.current_ins (h : Reh) (t : VC) : (h.ins t).current = h.current := by
  unfold Reh.ins
  split <;> rfl

theorem Reh.register_rmv {h : Reh} {t : VC} (hs : t.size = h.current.size) :
    (h.rmv t).register = h.register.clear (-1) t.entry := by
  unfold Reh.rmv Register.clear
  rw [Reh.register_current]
  by_cases hle : t.entry ≤ h.current.entry
  · rw [if_neg (by rw [removeCheck_iff hs]; exact not_not.mpr hle), if_pos hle]
  · rw [if_pos ((removeCheck_iff hs).mpr hle), if_neg hle]
    simp [Reh.register, rehRmvFunc, entry_updateVC hs.symm]

theorem Reh.register_ins {h : Reh} {t : VC} (hs : t.size = h.current.size) :
    (h.ins t).register = h.register.claim t.entry t.id := by
  unfold Reh.ins Register.claim
  rw [Reh.register_current, Reh.register_owner]
  by_cases hc : t.entry = h.current.entry ∧ h.pid < t.id
  · rw [if_pos ((insertCheck_iff hs).mpr hc), if_pos hc]
    rfl
  · rw [if_neg (by rwa [insertCheck_iff hs]), if_neg hc]

/-! ### The whole effect on a header -/

/-- What an effect does to a header: every clock may remove, the clock of an add then inserts. -/
def Reh.receive (h : Reh) (claims : Bool) (t : VC) : Reh :=
  if claims then (h.rmv t).ins t else h.rmv t

@[simp] theorem Reh.size_receive (h : Reh) (claims : Bool) (t : VC) :
    (h.receive claims t).current.size = h.current.size := by
  cases claims <;> simp [Reh.receive]

@[simp] theorem Reh.id_receive (h : Reh) (claims : Bool) (t : VC) :
    (h.receive claims t).current.id = h.current.id := by
  cases claims <;> simp [Reh.receive]

theorem Reh.register_receive {h : Reh} {t : VC} (hs : t.size = h.current.size) (claims : Bool) :
    (h.receive claims t).register = h.register.receive (-1) (t.toEntry claims) := by
  cases claims with
  | false => exact Reh.register_rmv hs
  | true =>
    rw [Reh.receive, if_pos rfl, Reh.register_ins (by rw [Reh.size_rmv, hs]), Reh.register_rmv hs]
    rfl

/-- An element is in the container after an effect if the effect put it there, or if it was
there and has not been removed. -/
theorem Reh.exists_receive {h : Reh} {claims : Bool} {t : VC} (ht : 0 ≤ t.id) :
    (h.receive claims t).Exists ↔
      (claims ∧ insertCheck (h.rmv t) t) ∨ (¬ removeCheck h t ∧ h.Exists) := by
  have hrmv : (h.rmv t).Exists ↔ ¬ removeCheck h t ∧ h.Exists := by
    unfold Reh.rmv
    split
    · next hr => simp [hr, Reh.Exists, rehRmvFunc]
    · next hr => simp [hr]
  cases claims with
  | false => simp [Reh.receive, hrmv]
  | true =>
    rw [Reh.receive, if_pos rfl, Reh.ins]
    split
    · next hi => simp [hi, Reh.Exists, ht]
    · next hi => simp [hi, hrmv]

end RemoveWin
