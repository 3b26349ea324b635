import RemoveWin.Server

/-!
# Vector clocks

`vector_clock.c` and `vector_clock.h`. A clock is an array of counters with the id of the server
that keeps it. Its size is whatever the server was configured with when the clock was made, so
sizes are data and the operations check them, or fail to, as the source does.

The counters are C `int`s in the source and unbounded here, and a clock may have any number of
them. So results about replicas are about the source as long as no counter passes `INT_MAX`, where
the overflow is undefined, and as long as there are at most 100 replicas, the size of the array in
which `SdsToVC` collects counters. `causally_ready`, `checkCurrency` and `currentCompare` assert
that both clocks have one size; the assertion is left out, because every clock they are used on has
the size the servers are configured with.

## Clocks as functions

`VC.entry c` reads a clock as a function on all indices, `0` past the end. On clocks of one size
it loses nothing but the id, and it turns the loops of the source into the order and the join of
`ℕ → ℤ`: that is the form the theorems about replicas use.

## Main results

* `RemoveWin.equalVC_iff`, `entry_updateVC`, `entry_nowVC` — the operations as lattice operations
* `RemoveWin.checkCurrency_iff`, `causallyReady_iff` — the comparisons of `t_rwtree.c`
* `RemoveWin.compareVC_neg_iff` — the comparison of clock objects
* `RemoveWin.VC.vector_eq_of_entry_eq` — clocks of one size are determined by their entries
-/

namespace RemoveWin

/-- `vc`: an array of counters and the id of the server that keeps the clock. -/
structure VC where
  /-- The counters. -/
  vector : List ℤ
  /-- The id of the keeper. -/
  id : ℤ
  deriving DecidableEq, Repr

namespace VC

/-- The `size` field, which the source keeps beside the array. -/
abbrev size (c : VC) : ℕ := c.vector.length

/-- The counter at an index, `0` past the end of the array. -/
def entry (c : VC) (i : ℕ) : ℤ := c.vector.getD i 0

theorem entry_of_size_le {c : VC} {i : ℕ} (h : c.size ≤ i) : c.entry i = 0 :=
  List.getD_eq_default _ _ h

theorem entry_of_lt {c : VC} {i : ℕ} (h : i < c.vector.length) : c.entry i = c.vector[i] :=
  List.getD_eq_getElem _ 0 h

theorem vector_eq_of_entry_eq {c d : VC} (hs : c.size = d.size) (h : c.entry = d.entry) :
    c.vector = d.vector := by
  refine List.ext_getElem hs fun i hc hd => ?_
  rw [← entry_of_lt hc, ← entry_of_lt hd]
  exact congrFun h i

end VC

/-! ### The operations -/

/-- `newVC`: a clock of zeros. -/
def newVC (size : ℕ) (id : ℤ) : VC := ⟨List.replicate size 0, id⟩

/-- `l_newVC`: a clock of zeros of the size and id this server is configured with. -/
def lNewVC (srv : Server) : VC := newVC srv.p2pCount srv.p2pId

/-- `equalVC`: same size and same counters. The ids are not compared. -/
def equalVC (c₁ c₂ : VC) : Bool :=
  c₁.size = c₂.size && (List.range c₁.size).all fun i => c₁.entry i = c₂.entry i

/-- `causally_ready`: `next` is one step of its keeper ahead of `current` and knows nothing else
that `current` does not. -/
def causallyReady (current next : VC) : Bool :=
  ((List.range current.size).all fun i =>
      (i : ℤ) = next.id || next.entry i ≤ current.entry i) &&
    next.entry next.id.toNat = current.entry next.id.toNat + 1

/-- `checkInitVC` of `t_rwtree.c`: no counter has moved. -/
def checkInitVC (c : VC) : Bool := (List.range c.size).all fun i => ¬ c.entry i > 0

/-- `checkCurrency` of `t_rwtree.c`: each clock is ahead of the other somewhere. -/
def checkCurrency (c₁ c₂ : VC) : Bool :=
  if equalVC c₁ c₂ then false
  else
    ((List.range c₁.size).any fun i => c₁.entry i > c₂.entry i) &&
      (List.range c₁.size).any fun i => c₁.entry i < c₂.entry i

/-- `currentCompare` of `t_rwtree.c`: the first counter in which the clocks differ decides. -/
def currentCompare (c₁ c₂ : VC) : ℤ :=
  match (List.range c₁.size).find? fun i => c₁.entry i ≠ c₂.entry i with
  | none => 0
  | some i => if c₁.entry i > c₂.entry i then 1 else -1

/-- `updateVC`: the counterwise maximum, kept by the first clock. Clocks of different sizes are
left alone. -/
def updateVC (tar m : VC) : VC :=
  if tar.size ≠ m.size then tar
  else { tar with vector := tar.vector.zipWith (fun a b => if b > a then b else a) m.vector }

/-- `nowVC`: the clock with its keeper's own counter one higher. The source prints it and undoes
the increment. -/
def nowVC (c : VC) : VC := { c with vector := c.vector.modify c.id.toNat (· + 1) }

/-- `CLOCK_LESS`. -/
def clockLess : ℤ := -2

/-- `CLOCK_C_LESS`. -/
def clockCLess : ℤ := -1

/-- `CLOCK_ERROR`. -/
def clockError : ℤ := 0

/-- `CLOCK_C_GREATER`. -/
def clockCGreater : ℤ := 1

/-- `CLOCK_GREATER`. -/
def clockGreater : ℤ := 2

/-- The two tests of the ids that `compareVC` repeats, on different ids. -/
def compareIds (c₁ c₂ : VC) : ℤ := if c₁.id > c₂.id then clockCGreater else clockCLess

/-- `compareVC`: the order of the counters and, on clocks that are each ahead of the other
somewhere, the order of the ids. Such clocks with one id are ordered by the first counter in which
they differ. -/
def compareVC (c₁ c₂ : VC) : ℤ :=
  if c₁.size ≠ c₂.size then clockError
  else
    match (List.range c₁.size).find? fun i => c₁.entry i ≠ c₂.entry i with
    | none => if c₁.id = c₂.id then clockError else compareIds c₁ c₂
    | some i =>
      if c₁.entry i > c₂.entry i then
        if c₁.id ≠ c₂.id ∧ (List.range c₁.size).any fun k => i < k ∧ c₁.entry k < c₂.entry k then
          compareIds c₁ c₂
        else clockGreater
      else
        if c₁.id ≠ c₂.id ∧ (List.range c₁.size).any fun k => i < k ∧ c₁.entry k > c₂.entry k then
          compareIds c₁ c₂
        else clockLess

/-- `increaseVC`. -/
def increaseVC (c : VC) (id : ℤ) : VC := ⟨c.vector.modify id.toNat (· + 1), id⟩

/-- `l_increaseVC`. -/
def lIncreaseVC (srv : Server) (c : VC) : VC := increaseVC c srv.p2pId

/-! ### Sizes and ids -/

@[simp] theorem size_newVC (n : ℕ) (id : ℤ) : (newVC n id).size = n := List.length_replicate

@[simp] theorem id_newVC (n : ℕ) (id : ℤ) : (newVC n id).id = id := rfl

@[simp] theorem size_lNewVC (srv : Server) : (lNewVC srv).size = srv.p2pCount :=
  size_newVC _ _

@[simp] theorem id_lNewVC (srv : Server) : (lNewVC srv).id = srv.p2pId := rfl

@[simp] theorem size_updateVC (tar m : VC) : (updateVC tar m).size = tar.size := by
  unfold updateVC
  split
  · rfl
  · next h =>
    rw [not_ne_iff] at h
    exact (List.length_zipWith ..).trans (min_eq_left h.le)

@[simp] theorem id_updateVC (tar m : VC) : (updateVC tar m).id = tar.id := by
  unfold updateVC
  split <;> rfl

@[simp] theorem size_nowVC (c : VC) : (nowVC c).size = c.size := List.length_modify ..

@[simp] theorem id_nowVC (c : VC) : (nowVC c).id = c.id := rfl

@[simp] theorem size_increaseVC (c : VC) (id : ℤ) : (increaseVC c id).size = c.size :=
  List.length_modify ..

@[simp] theorem id_increaseVC (c : VC) (id : ℤ) : (increaseVC c id).id = id := rfl

/-! ### Entries -/

@[simp] theorem entry_newVC (n : ℕ) (id : ℤ) : (newVC n id).entry = 0 := by
  funext i
  by_cases h : i < n
  · simp [VC.entry, newVC, h]
  · exact VC.entry_of_size_le (by simpa using h)

@[simp] theorem entry_lNewVC (srv : Server) : (lNewVC srv).entry = 0 := entry_newVC _ _

theorem equalVC_iff {c₁ c₂ : VC} (hs : c₁.size = c₂.size) :
    equalVC c₁ c₂ = true ↔ c₁.entry = c₂.entry := by
  simp only [equalVC, hs, decide_true, Bool.true_and, List.all_eq_true, List.mem_range,
    decide_eq_true_eq]
  constructor
  · intro h
    funext i
    by_cases hi : i < c₂.size
    · exact h i hi
    · rw [VC.entry_of_size_le (hs ▸ not_lt.mp hi), VC.entry_of_size_le (not_lt.mp hi)]
  · intro h i _
    exact congrFun h i

/-- On clocks of one size, `updateVC` is the join. -/
theorem entry_updateVC {tar m : VC} (hs : tar.size = m.size) :
    (updateVC tar m).entry = tar.entry ⊔ m.entry := by
  funext i
  rw [Pi.sup_apply]
  by_cases hi : i < tar.size
  · have hm : i < m.size := by rwa [← hs]
    have hz : i < (updateVC tar m).size := by rwa [size_updateVC]
    rw [VC.entry_of_lt hz, VC.entry_of_lt hi, VC.entry_of_lt hm]
    simp only [updateVC, hs, ne_eq, not_true_eq_false, if_false, List.getElem_zipWith]
    rcases lt_or_ge tar.vector[i] m.vector[i] with h | h
    · rw [if_pos h, max_eq_right h.le]
    · rw [if_neg (not_lt.mpr h), max_eq_left h]
  · have hle : tar.size ≤ i := not_lt.mp hi
    rw [VC.entry_of_size_le hle, VC.entry_of_size_le (c := m) (hs ▸ hle),
      VC.entry_of_size_le (by rwa [size_updateVC]), max_self]

/-- `nowVC` counts one more at its keeper. -/
theorem entry_nowVC {c : VC} (hlt : c.id.toNat < c.size) :
    (nowVC c).entry = Function.update c.entry c.id.toNat (c.entry c.id.toNat + 1) := by
  funext i
  by_cases hi : i < c.size
  · have hn : i < (nowVC c).size := by rwa [size_nowVC]
    rw [VC.entry_of_lt hn]
    simp only [nowVC, List.getElem_modify]
    by_cases h : c.id.toNat = i
    · subst h
      rw [if_pos rfl, Function.update_self, VC.entry_of_lt hlt]
    · rw [if_neg h, Function.update_of_ne (Ne.symm h), VC.entry_of_lt hi]
  · have hle : c.size ≤ i := not_lt.mp hi
    rw [Function.update_of_ne (by omega), VC.entry_of_size_le hle,
      VC.entry_of_size_le (by rwa [size_nowVC])]

/-- `increaseVC` is `nowVC` of a clock that changed its keeper. -/
theorem entry_increaseVC {c : VC} {id : ℤ} (hlt : id.toNat < c.size) :
    (increaseVC c id).entry = Function.update c.entry id.toNat (c.entry id.toNat + 1) :=
  entry_nowVC (c := ⟨c.vector, id⟩) hlt

theorem entry_lt_increaseVC {c : VC} {id : ℤ} (hlt : id.toNat < c.size) :
    c.entry < (increaseVC c id).entry := by
  rw [entry_increaseVC hlt]
  exact lt_update_self_iff.mpr (lt_add_one _)

/-! ### The comparisons of `t_rwtree.c` -/

theorem any_entry_lt_iff {c₁ c₂ : VC} (hs : c₁.size = c₂.size) :
    ((List.range c₁.size).any fun i => c₁.entry i < c₂.entry i) = true ↔
      ¬ c₂.entry ≤ c₁.entry := by
  simp only [List.any_eq_true, List.mem_range, decide_eq_true_eq, Pi.le_def, not_forall, not_le]
  constructor
  · rintro ⟨i, -, hi⟩
    exact ⟨i, hi⟩
  · rintro ⟨i, hi⟩
    refine ⟨i, ?_, hi⟩
    by_contra hle
    rw [not_lt] at hle
    rw [VC.entry_of_size_le hle, VC.entry_of_size_le (hs ▸ hle)] at hi
    exact lt_irrefl 0 hi

/-- `checkCurrency` is incomparability. -/
theorem checkCurrency_iff {c₁ c₂ : VC} (hs : c₁.size = c₂.size) :
    checkCurrency c₁ c₂ = true ↔ ¬ c₁.entry ≤ c₂.entry ∧ ¬ c₂.entry ≤ c₁.entry := by
  have hgt : ((List.range c₁.size).any fun i => c₁.entry i > c₂.entry i) = true ↔
      ¬ c₁.entry ≤ c₂.entry := by
    rw [hs]
    exact any_entry_lt_iff hs.symm
  rw [checkCurrency]
  split
  · next heq =>
    rw [equalVC_iff hs] at heq
    simp [heq]
  · rw [Bool.and_eq_true, hgt, any_entry_lt_iff hs]

/-- `causally_ready` says that `next` counts one more at its keeper and nothing else that is new. -/
theorem causallyReady_iff {current next : VC} (hs : current.size = next.size)
    (hid : 0 ≤ next.id) : causallyReady current next = true ↔
      (∀ i, i ≠ next.id.toNat → next.entry i ≤ current.entry i) ∧
        next.entry next.id.toNat = current.entry next.id.toNat + 1 := by
  have hne : ∀ i : ℕ, (i : ℤ) = next.id ↔ i = next.id.toNat := fun i => by omega
  simp only [causallyReady, Bool.and_eq_true, List.all_eq_true, List.mem_range, Bool.or_eq_true,
    decide_eq_true_eq, hne]
  refine and_congr_left fun _ => ⟨fun h i hi => ?_, fun h i _ => ?_⟩
  · by_cases hlt : i < current.size
    · exact (h i hlt).resolve_left hi
    · rw [VC.entry_of_size_le (c := next) (hs ▸ not_lt.mp hlt), VC.entry_of_size_le (not_lt.mp hlt)]
  · by_cases hi : i = next.id.toNat
    · exact .inl hi
    · exact .inr (h i hi)

section

variable {c : VC}

theorem le_entry_nowVC (hlt : c.id.toNat < c.size) : c.entry ≤ (nowVC c).entry := by
  rw [entry_nowVC hlt, le_update_iff]
  exact ⟨by omega, fun _ _ => le_rfl⟩

theorem causallyReady_nowVC (hid : 0 ≤ c.id) (hlt : c.id.toNat < c.size) :
    causallyReady c (nowVC c) = true := by
  rw [causallyReady_iff (size_nowVC c).symm (by rwa [id_nowVC]), id_nowVC, entry_nowVC hlt,
    Function.update_self]
  exact ⟨fun i hi => by rw [Function.update_of_ne hi], rfl⟩

theorem checkCurrency_nowVC (hlt : c.id.toNat < c.size) : checkCurrency c (nowVC c) = false := by
  rw [Bool.eq_false_iff]
  intro h
  exact ((checkCurrency_iff (size_nowVC c).symm).mp h).1 (le_entry_nowVC hlt)

end

/-! ### `compareVC` -/

section

variable {c₁ c₂ : VC}

/-- A counter after the first difference in which the clock that was ahead is behind. -/
theorem any_after_iff {n i : ℕ} (hn : ∀ k, n ≤ k → c₁.entry k = c₂.entry k)
    (hi : c₂.entry i < c₁.entry i) (hfirst : ∀ k < i, c₁.entry k = c₂.entry k) :
    ((List.range n).any fun k => i < k ∧ c₁.entry k < c₂.entry k) = true ↔
      ¬ c₂.entry ≤ c₁.entry := by
  simp only [List.any_eq_true, List.mem_range, decide_eq_true_eq, Pi.le_def, not_forall, not_le]
  constructor
  · rintro ⟨k, -, -, hk⟩
    exact ⟨k, hk⟩
  · rintro ⟨k, hk⟩
    have hlt : k < n := lt_of_not_ge fun hle => hk.ne (hn k hle)
    refine ⟨k, hlt, lt_of_not_ge fun hle => ?_, hk⟩
    rcases hle.lt_or_eq with hki | rfl
    · exact hk.ne (hfirst k hki)
    · exact lt_asymm hk hi

/-- **The outcomes of `compareVC`** on clocks of one size: no difference, or a first one in which
either clock is ahead. -/
theorem compareVC_cases (hs : c₁.size = c₂.size) :
    (c₁.entry = c₂.entry ∧
        compareVC c₁ c₂ = if c₁.id = c₂.id then clockError else compareIds c₁ c₂) ∨
      (¬ c₁.entry ≤ c₂.entry ∧ c₁.id ≠ c₂.id ∧ ¬ c₂.entry ≤ c₁.entry ∧
        compareVC c₁ c₂ = compareIds c₁ c₂) ∨
      (¬ c₁.entry ≤ c₂.entry ∧ (c₁.id ≠ c₂.id → c₂.entry ≤ c₁.entry) ∧
        compareVC c₁ c₂ = clockGreater) ∨
      (¬ c₂.entry ≤ c₁.entry ∧ (c₁.id ≠ c₂.id → c₁.entry ≤ c₂.entry) ∧
        compareVC c₁ c₂ = clockLess) := by
  have hend : ∀ k, c₁.size ≤ k → c₁.entry k = c₂.entry k := fun k hk => by
    rw [VC.entry_of_size_le hk, VC.entry_of_size_le (hs ▸ hk)]
  rw [compareVC, if_neg (not_not.mpr hs)]
  cases h : (List.range c₁.size).find? fun i => c₁.entry i ≠ c₂.entry i with
  | none =>
    refine .inl ⟨funext fun i => ?_, rfl⟩
    by_cases hi : i < c₁.size
    · simpa using List.find?_range_eq_none.mp h i hi
    · exact hend i (not_lt.mp hi)
  | some i =>
    obtain ⟨hne, -, hfirst⟩ := List.find?_range_eq_some.mp h
    have hfirst : ∀ k < i, c₁.entry k = c₂.entry k := fun k hk => by simpa using hfirst k hk
    rcases lt_or_gt_of_ne (of_decide_eq_true hne) with hlt | hgt
    · have hle : ¬ c₂.entry ≤ c₁.entry := fun hle => (hle i).not_gt hlt
      have hany := any_after_iff (fun k hk => (hend k hk).symm) hlt fun k hk => (hfirst k hk).symm
      simp only [if_neg hlt.not_gt]
      split
      · next hc => exact .inr (.inl ⟨hany.mp hc.2, hc.1, hle, rfl⟩)
      · next hc =>
        refine .inr (.inr (.inr ⟨hle, fun hid => ?_, rfl⟩))
        exact not_not.mp fun hn => hc ⟨hid, hany.mpr hn⟩
    · have hle : ¬ c₁.entry ≤ c₂.entry := fun hle => (hle i).not_gt hgt
      have hany := any_after_iff hend hgt hfirst
      simp only [if_pos hgt]
      split
      · next hc => exact .inr (.inl ⟨hle, hc.1, hany.mp hc.2, rfl⟩)
      · next hc =>
        refine .inr (.inr (.inl ⟨hle, fun hid => ?_, rfl⟩))
        exact not_not.mp fun hn => hc ⟨hid, hany.mpr hn⟩

theorem compareIds_neg_iff (hid : c₁.id ≠ c₂.id) : compareIds c₁ c₂ < 0 ↔ c₁.id < c₂.id := by
  rw [compareIds]
  rcases lt_or_gt_of_ne hid with hlt | hgt
  · simp [hlt, hlt.not_gt, clockCLess]
  · simp [hgt, hgt.not_gt, clockCGreater]

theorem compareVC_neg_of_lt (hs : c₁.size = c₂.size) (h : c₁.entry < c₂.entry) :
    compareVC c₁ c₂ < 0 := by
  obtain ⟨heq, -⟩ | ⟨hle, -⟩ | ⟨hle, -⟩ | ⟨-, -, hcmp⟩ := compareVC_cases hs
  · exact absurd heq h.ne
  · exact absurd h.le hle
  · exact absurd h.le hle
  · rw [hcmp]
    decide

/-- **What `compareVC` takes for smaller**, on clocks of two keepers: the smaller one, and the one
with the smaller id unless it is greater. -/
theorem compareVC_neg_iff (hs : c₁.size = c₂.size) (hid : c₁.id ≠ c₂.id) :
    compareVC c₁ c₂ < 0 ↔ c₁.entry < c₂.entry ∨ c₁.id < c₂.id ∧ ¬ c₂.entry < c₁.entry := by
  obtain ⟨heq, hcmp⟩ | ⟨hle, -, hge, hcmp⟩ | ⟨hle, hge, hcmp⟩ | ⟨hge, hle, hcmp⟩ :=
    compareVC_cases hs
  · rw [hcmp, if_neg hid, compareIds_neg_iff hid, heq]
    simp
  · rw [hcmp, compareIds_neg_iff hid]
    have hlt : ¬ c₁.entry < c₂.entry := fun h => hle h.le
    have hgt : ¬ c₂.entry < c₁.entry := fun h => hge h.le
    simp [hlt, hgt]
  · have hlt : ¬ c₁.entry < c₂.entry := fun h => hle h.le
    have hgt : c₂.entry < c₁.entry := lt_of_le_not_ge (hge hid) hle
    simp [hcmp, clockGreater, hlt, hgt]
  · have hlt : c₁.entry < c₂.entry := lt_of_le_not_ge (hle hid) hge
    simp [hcmp, clockLess, hlt]

end

end RemoveWin
