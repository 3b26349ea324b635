import Mathlib

/-!
# Registers that join stamps and keep a claimant

A register holds a point of a join semilattice, the *current* stamp, and an owner. It receives
entries in any order, each with a stamp. An entry whose stamp is not below the current one first
*clears* the register: the current stamp becomes the join and the owner is forgotten. An entry
that *claims* then takes the register over if its stamp is exactly the current one and its
author is greater than the present owner.

However the entries are ordered, the register ends up with the same content, because that
content is determined by the *set* of entries received: the current stamp is their join, and
the owner is the greatest author among those claims stamped exactly with it. `Summary` states
that, `Summary.receive` is the induction step and `Summary.unique` the order independence.
-/

namespace JoinRegister

/-- A register: the join of what it has seen, and who owns it. -/
@[ext] structure Register (T P : Type) where
  /-- The join of the stamps received. -/
  current : T
  /-- The owner. -/
  owner : P

/-- What a register receives. -/
structure Entry (T P : Type) where
  /-- The stamp of the entry. -/
  stamp : T
  /-- Who issued it. -/
  author : P
  /-- Whether it claims the register or only clears it. -/
  claims : Bool

variable {T P : Type} [SemilatticeSup T] [LinearOrder P]

/-- `h` is what a register that started at stamp `b`, owned by `nobody`, must hold after
receiving exactly the entries `E`. -/
structure Summary (b : T) (nobody : P) (E : Set (Entry T P)) (h : Register T P) : Prop where
  /-- The current stamp is the join of the stamps received. -/
  current : IsLUB (insert b (Entry.stamp '' E)) h.current
  /-- The owner is the greatest author of a claim stamped exactly with it. -/
  owner : IsGreatest
    (insert nobody {p | ∃ e ∈ E, e.claims ∧ e.stamp = h.current ∧ e.author = p}) h.owner

variable {b : T} {nobody : P} {E : Set (Entry T P)} {h h' : Register T P}

/-- **Order independence.** The set of entries received determines the register. -/
theorem Summary.unique (s : Summary b nobody E h) (s' : Summary b nobody E h') : h = h' := by
  have hcur : h.current = h'.current := s.current.unique s'.current
  refine Register.ext hcur (s.owner.unique ?_)
  rw [hcur]
  exact s'.owner

theorem summary_empty (b : T) (nobody : P) : Summary b nobody ∅ ⟨b, nobody⟩ where
  current := by simp
  owner := by simp

theorem Summary.stamp_le (s : Summary b nobody E h) {e : Entry T P} (he : e ∈ E) :
    e.stamp ≤ h.current :=
  s.current.1 (Set.mem_insert_of_mem _ (Set.mem_image_of_mem _ he))

/-- A stamp that is not below the current one leads to a join nothing received so far is stamped
with. -/
theorem Summary.stamp_ne_sup (s : Summary b nobody E h) {t : T} (ht : ¬ t ≤ h.current)
    {e : Entry T P} (he : e ∈ E) : e.stamp ≠ h.current ⊔ t := by
  intro hst
  exact ht (le_sup_right.trans (hst ▸ s.stamp_le he))

/-- The owner is somebody exactly when some claim is stamped with the current stamp. -/
theorem Summary.nobody_lt_iff (s : Summary b nobody E h) (hE : ∀ e ∈ E, nobody < e.author) :
    nobody < h.owner ↔ ∃ e ∈ E, e.claims ∧ e.stamp = h.current := by
  constructor
  · intro hlt
    rcases s.owner.1 with heq | ⟨e, he, hcl, hst, -⟩
    · exact absurd heq (ne_of_gt hlt)
    · exact ⟨e, he, hcl, hst⟩
  · rintro ⟨e, he, hcl, hst⟩
    exact lt_of_lt_of_le (hE e he) (s.owner.2 (Set.mem_insert_of_mem _ ⟨e, he, hcl, hst, rfl⟩))

open scoped Classical

noncomputable section

/-- Join a stamp that is not below the current one, forgetting the owner. -/
def Register.clear (nobody : P) (h : Register T P) (t : T) : Register T P :=
  if t ≤ h.current then h else ⟨h.current ⊔ t, nobody⟩

/-- Take the register over with the current stamp and a greater author. -/
def Register.claim (h : Register T P) (t : T) (p : P) : Register T P :=
  if t = h.current ∧ h.owner < p then { h with owner := p } else h

/-- Receive one entry. -/
def Register.receive (nobody : P) (h : Register T P) (e : Entry T P) : Register T P :=
  if e.claims then (h.clear nobody e.stamp).claim e.stamp e.author else h.clear nobody e.stamp

omit [LinearOrder P] in
theorem Register.clear_current (h : Register T P) (t : T) :
    (h.clear nobody t).current = h.current ⊔ t := by
  unfold Register.clear
  split
  · next hle => exact (sup_eq_left.mpr hle).symm
  · rfl

omit [SemilatticeSup T] in
theorem Register.claim_current (h : Register T P) (t : T) (p : P) :
    (h.claim t p).current = h.current := by
  unfold Register.claim
  split <;> rfl

theorem Register.receive_current (h : Register T P) (e : Entry T P) :
    (h.receive nobody e).current = h.current ⊔ e.stamp := by
  unfold Register.receive
  split
  · rw [Register.claim_current, Register.clear_current]
  · rw [Register.clear_current]

/-- The join of one more stamp. -/
theorem Summary.isLUB_insert (s : Summary b nobody E h) (e : Entry T P) :
    IsLUB (insert b (Entry.stamp '' insert e E)) (h.current ⊔ e.stamp) := by
  rw [Set.image_insert_eq, Set.insert_comm, sup_comm]
  exact s.current.insert e.stamp

/-- Clearing with a stamp that counts as an entry without a claim. -/
theorem Summary.clear_owner (s : Summary b nobody E h) (t : T) :
    IsGreatest (insert nobody {p | ∃ e ∈ E, e.claims ∧ e.stamp = h.current ⊔ t ∧ e.author = p})
      (h.clear nobody t).owner := by
  unfold Register.clear
  split
  · next hle =>
    rw [sup_eq_left.mpr hle]
    exact s.owner
  · next hnle =>
    refine ⟨Set.mem_insert _ _, ?_⟩
    rintro p (rfl | ⟨e, he, -, hst, -⟩)
    · exact le_rfl
    · exact absurd hst (s.stamp_ne_sup hnle he)

/-- **Receiving an entry adds it to the summary.** -/
theorem Summary.receive (s : Summary b nobody E h) (e : Entry T P) (he : nobody < e.author) :
    Summary b nobody (insert e E) (h.receive nobody e) where
  current := by
    rw [Register.receive_current]
    exact s.isLUB_insert e
  owner := by
    have hclear := s.clear_owner e.stamp
    rw [Register.receive_current]
    unfold Register.receive
    by_cases hcl : e.claims = true
    · rw [if_pos hcl]
      unfold Register.claim
      rw [Register.clear_current]
      split
      · next hown =>
        obtain ⟨hst, hlt⟩ := hown
        refine ⟨Set.mem_insert_of_mem _ ⟨e, Set.mem_insert _ _, hcl, hst, rfl⟩, ?_⟩
        rintro p (rfl | ⟨e', he', hcl', hst', rfl⟩)
        · exact he.le
        · rcases he' with rfl | he'
          · exact le_rfl
          · exact (hclear.2 (Set.mem_insert_of_mem _ ⟨e', he', hcl', hst', rfl⟩)).trans hlt.le
      · next hown =>
        refine ⟨?_, ?_⟩
        · exact hclear.1.imp id fun ⟨e', he', hr⟩ => ⟨e', Set.mem_insert_of_mem _ he', hr⟩
        · rintro p (rfl | ⟨e', he', hcl', hst', rfl⟩)
          · exact hclear.2 (Set.mem_insert _ _)
          · rcases he' with rfl | he'
            · exact not_lt.mp fun hlt => hown ⟨hst', hlt⟩
            · exact hclear.2 (Set.mem_insert_of_mem _ ⟨e', he', hcl', hst', rfl⟩)
    · rw [if_neg hcl]
      refine ⟨?_, ?_⟩
      · exact hclear.1.imp id fun ⟨e', he', hr⟩ => ⟨e', Set.mem_insert_of_mem _ he', hr⟩
      · rintro p (rfl | ⟨e', he', hcl', hst', rfl⟩)
        · exact hclear.2 (Set.mem_insert _ _)
        · rcases he' with rfl | he'
          · exact absurd hcl' hcl
          · exact hclear.2 (Set.mem_insert_of_mem _ ⟨e', he', hcl', hst', rfl⟩)

end

end JoinRegister
