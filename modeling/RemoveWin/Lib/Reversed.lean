import Mathlib.Data.Nat.Bitwise
import Mathlib.Tactic.Ring

/-!
# Counting from the high bits

A word of `w` bits has a *place* in the order that looks at its lowest bit first: the number that
its bits give when they are read in reverse. The words that agree in their `k` lowest bits are then
an interval of `2 ^ (w - k)` places, a *cell*. The first place behind the cell of a word is reached
by setting the bits above the `k` lowest and adding one in reverse.

A table of `2 ^ k` slots that is indexed by the low bits of a word keeps the words of a cell in one
slot. Whoever walks over the cells in this order can change `k` between two steps: what is below
the place that the walk has come to has been seen, whatever the sizes of the cells were.

## Main results

* `Reversed.cell_eq_iff` — the words of a cell are those with the same low bits
* `Reversed.place_next` — where `next` leads
* `Reversed.seen_below_next`, `Reversed.seen_of_next_eq_zero` — the invariant of a walk and its end
-/

namespace Reversed

variable {w : ℕ}

/-- The place of a word when its lowest bit counts most. -/
def place (v : BitVec w) : ℕ :=
  v.reverse.toNat

/-- The number of the cell of a word, among the `2 ^ k` cells. -/
def cell (k : ℕ) (v : BitVec w) : ℕ :=
  place v / 2 ^ (w - k)

/-- The word whose `k` lowest bits are set. -/
def lowMask (w k : ℕ) : BitVec w :=
  BitVec.ofNat w (2 ^ k - 1)

/-- Set the bits above the `k` lowest and add one in reverse. -/
def next (k : ℕ) (v : BitVec w) : BitVec w :=
  ((v ||| ~~~lowMask w k).reverse + 1).reverse

theorem place_lt (v : BitVec w) : place v < 2 ^ w :=
  v.reverse.isLt

@[simp] theorem place_zero : place (0 : BitVec w) = 0 := by
  have : (0 : BitVec w).reverse = 0 := by
    apply BitVec.eq_of_getLsbD_eq
    intro i hi
    simp [BitVec.getLsbD_reverse]
  rw [place, this]
  rfl

theorem place_eq_zero_iff (v : BitVec w) : place v = 0 ↔ v = 0 := by
  constructor
  · intro h
    have hr : v.reverse = 0 := BitVec.eq_of_toNat_eq h
    rw [← BitVec.reverse_reverse_eq (x := v), hr]
    apply BitVec.eq_of_getLsbD_eq
    intro i hi
    simp [BitVec.getLsbD_reverse]
  · rintro rfl
    exact place_zero

theorem testBit_place (v : BitVec w) (i : ℕ) :
    (place v).testBit i = (decide (i < w) && v.getLsbD (w - 1 - i)) := by
  rw [place, BitVec.testBit_toNat, BitVec.getLsbD_reverse, BitVec.getMsbD_eq_getLsbD]

theorem testBit_cell {k : ℕ} (hk : k ≤ w) (v : BitVec w) (i : ℕ) :
    (cell k v).testBit i = (decide (i < k) && v.getLsbD (k - 1 - i)) := by
  rw [cell, Nat.testBit_div_two_pow, testBit_place]
  have hlt : (i + (w - k) < w) ↔ i < k := by omega
  by_cases hi : i < k
  · have hat : w - 1 - (i + (w - k)) = k - 1 - i := by omega
    simp [hlt, hi, hat]
  · simp [hlt, hi]

theorem getLsbD_lowMask (k i : ℕ) :
    (lowMask w k).getLsbD i = (decide (i < w) && decide (i < k)) := by
  rw [lowMask, BitVec.getLsbD_ofNat, Nat.testBit_two_pow_sub_one]

/-- **The words of a cell are those with the same low bits.** -/
theorem cell_eq_iff {k : ℕ} (hk : k ≤ w) (u v : BitVec w) :
    cell k u = cell k v ↔ u &&& lowMask w k = v &&& lowMask w k := by
  constructor
  · intro h
    apply BitVec.eq_of_getLsbD_eq
    intro i hi
    rw [BitVec.getLsbD_and, BitVec.getLsbD_and, getLsbD_lowMask]
    by_cases hik : i < k
    · have hbit := congrArg (Nat.testBit · (k - 1 - i)) h
      have hat : k - 1 - (k - 1 - i) = i := by omega
      have hlt : k - 1 - i < k := by omega
      simp only [testBit_cell hk, hlt, decide_true, Bool.true_and, hat] at hbit
      rw [hbit]
    · simp [hik]
  · intro h
    apply Nat.eq_of_testBit_eq
    intro i
    rw [testBit_cell hk, testBit_cell hk]
    by_cases hi : i < k
    · have hbit := congrArg (BitVec.getLsbD · (k - 1 - i)) h
      have hw : k - 1 - i < w := by omega
      have hlt : k - 1 - i < k := by omega
      simp only [BitVec.getLsbD_and, getLsbD_lowMask, hw, hlt, decide_true, Bool.and_true] at hbit
      rw [hbit]
    · simp [hi]

theorem toNat_and_lowMask {k : ℕ} (hk : k ≤ w) (v : BitVec w) :
    (v &&& lowMask w k).toNat = v.toNat % 2 ^ k := by
  have hlt : 2 ^ k - 1 < 2 ^ w :=
    lt_of_lt_of_le (Nat.sub_lt (Nat.two_pow_pos k) Nat.one_pos)
      (Nat.pow_le_pow_right Nat.two_pos hk)
  rw [BitVec.toNat_and, lowMask, BitVec.toNat_ofNat, Nat.mod_eq_of_lt hlt,
    Nat.and_two_pow_sub_one_eq_mod]

theorem and_lowMask_eq_iff {k : ℕ} (hk : k ≤ w) (u v : BitVec w) :
    u &&& lowMask w k = v &&& lowMask w k ↔ u.toNat % 2 ^ k = v.toNat % 2 ^ k := by
  rw [← toNat_and_lowMask hk u, ← toNat_and_lowMask hk v]
  exact BitVec.toNat_inj.symm

theorem toNat_or_lowMask {k : ℕ} (hk : k ≤ w) (v : BitVec w) :
    (v ||| lowMask w k).toNat = v.toNat / 2 ^ k * 2 ^ k + (2 ^ k - 1) := by
  apply Nat.eq_of_testBit_eq
  intro i
  have hlast : 2 ^ k - 1 < 2 ^ k := Nat.sub_lt (Nat.two_pow_pos k) Nat.one_pos
  rw [Nat.mul_comm, Nat.testBit_two_pow_mul_add _ hlast, BitVec.testBit_toNat, BitVec.getLsbD_or,
    getLsbD_lowMask, Nat.testBit_two_pow_sub_one, Nat.testBit_div_two_pow, BitVec.testBit_toNat]
  by_cases hi : i < k
  · have hw : i < w := by omega
    simp only [hi, hw, decide_true, Bool.and_self, Bool.or_true, if_true]
  · have hat : i - k + k = i := by omega
    simp only [hi, hat, decide_false, Bool.and_false, Bool.or_false, if_false]

theorem getLsbD_and_xor_lowMask {k₀ k₁ : ℕ} (h₀₁ : k₀ ≤ k₁) (hk₁ : k₁ ≤ w) (v : BitVec w) (i : ℕ) :
    (v &&& (lowMask w k₀ ^^^ lowMask w k₁)).getLsbD i =
      (v.getLsbD i && (decide (k₀ ≤ i) && decide (i < k₁))) := by
  rw [BitVec.getLsbD_and, BitVec.getLsbD_xor, getLsbD_lowMask, getLsbD_lowMask]
  by_cases h₀ : i < k₀
  · have h₁ : i < k₁ := by omega
    have hw : i < w := by omega
    have hle : ¬ k₀ ≤ i := by omega
    simp [h₀, h₁, hw, hle]
  · have hle : k₀ ≤ i := by omega
    by_cases h₁ : i < k₁
    · have hw : i < w := by omega
      simp [h₀, h₁, hw, hle]
    · simp [h₀, h₁]

/-- The bits between two masks are zero if the number that they are is. -/
theorem and_xor_lowMask_eq_zero_iff {k₀ k₁ : ℕ} (h₀₁ : k₀ ≤ k₁) (hk₁ : k₁ ≤ w) (v : BitVec w) :
    v &&& (lowMask w k₀ ^^^ lowMask w k₁) = 0 ↔ v.toNat / 2 ^ k₀ % 2 ^ (k₁ - k₀) = 0 := by
  constructor
  · intro h
    apply Nat.eq_of_testBit_eq
    intro i
    rw [Nat.testBit_mod_two_pow, Nat.testBit_div_two_pow, BitVec.testBit_toNat, Nat.zero_testBit]
    by_cases hi : i < k₁ - k₀
    · have := getLsbD_and_xor_lowMask h₀₁ hk₁ v (i + k₀)
      have hlt : i + k₀ < k₁ := by omega
      rw [h] at this
      simpa [hi, hlt] using this.symm
    · simp [hi]
  · intro h
    apply BitVec.eq_of_getLsbD_eq
    intro i _
    rw [getLsbD_and_xor_lowMask h₀₁ hk₁]
    by_cases hin : k₀ ≤ i ∧ i < k₁
    · have := congrArg (Nat.testBit · (i - k₀)) h
      have hlt : i - k₀ < k₁ - k₀ := by omega
      have hat : i - k₀ + k₀ = i := by omega
      simp only [Nat.testBit_mod_two_pow, Nat.testBit_div_two_pow, BitVec.testBit_toNat,
        Nat.zero_testBit, hlt, hat, decide_true, Bool.true_and] at this
      simp [this]
    · have : (decide (k₀ ≤ i) && decide (i < k₁)) = false := by
        simpa using hin
      simp [this]

/-- The low bits and the number above them. -/
theorem mod_two_pow_eq {k₀ k₁ : ℕ} (h₀₁ : k₀ ≤ k₁) (n : ℕ) :
    n % 2 ^ k₁ = n % 2 ^ k₀ + 2 ^ k₀ * (n / 2 ^ k₀ % 2 ^ (k₁ - k₀)) := by
  have hpow : 2 ^ k₁ = 2 ^ k₀ * 2 ^ (k₁ - k₀) := by
    rw [← Nat.pow_add]
    congr 1
    omega
  rw [hpow, Nat.mod_mul]

/-- The next word is the same for all words of a cell. -/
theorem next_congr {k : ℕ} {u v : BitVec w} (h : u &&& lowMask w k = v &&& lowMask w k) :
    next k u = next k v := by
  have hor : ∀ x : BitVec w, x ||| ~~~lowMask w k = (x &&& lowMask w k) ||| ~~~lowMask w k := by
    intro x
    apply BitVec.eq_of_getLsbD_eq
    intro i hi
    simp only [BitVec.getLsbD_or, BitVec.getLsbD_and, BitVec.getLsbD_not, hi, decide_true,
      Bool.true_and]
    cases x.getLsbD i <;> cases (lowMask w k).getLsbD i <;> rfl
  rw [next, next, hor u, hor v, h]

/-- The place of a word whose bits above the `k` lowest are set is the last of its cell. -/
theorem place_or_not_lowMask {k : ℕ} (hk : k ≤ w) (v : BitVec w) :
    place (v ||| ~~~lowMask w k) = cell k v * 2 ^ (w - k) + (2 ^ (w - k) - 1) := by
  apply Nat.eq_of_testBit_eq
  intro i
  have hlast : 2 ^ (w - k) - 1 < 2 ^ (w - k) := Nat.sub_lt (Nat.two_pow_pos _) Nat.one_pos
  rw [testBit_place, Nat.mul_comm, Nat.testBit_two_pow_mul_add _ hlast]
  by_cases hi : i < w - k
  · have hw : i < w := by omega
    have hhigh : ¬ w - 1 - i < k := by omega
    have hin : w - 1 - i < w := by omega
    simp only [BitVec.getLsbD_or, BitVec.getLsbD_not, getLsbD_lowMask, hi, hw, hin, hhigh,
      Nat.testBit_two_pow_sub_one, decide_true, decide_false, if_true, Bool.true_and,
      Bool.not_false, Bool.or_true]
  · rw [if_neg hi, testBit_cell hk]
    by_cases hw : i < w
    · have hlow : w - 1 - i < k := by omega
      have hin : w - 1 - i < w := by omega
      have hik : i - (w - k) < k := by omega
      have hat : k - 1 - (i - (w - k)) = w - 1 - i := by omega
      simp only [BitVec.getLsbD_or, BitVec.getLsbD_not, getLsbD_lowMask, hw, hin, hlow, hik, hat,
        decide_true, Bool.true_and, Bool.not_true, Bool.or_false]
    · have hik : ¬ i - (w - k) < k := by omega
      simp [hw, hik]

/-- **Where `next` leads**: to the first place behind the cell. -/
theorem place_next {k : ℕ} (hk : k ≤ w) (v : BitVec w) :
    place (next k v) = (cell k v + 1) * 2 ^ (w - k) % 2 ^ w := by
  have hplace : place (next k v) = ((v ||| ~~~lowMask w k).reverse + 1).toNat := by
    rw [place, next, BitVec.reverse_reverse_eq]
  have hpos : 0 < 2 ^ (w - k) := Nat.two_pow_pos _
  have hsum : cell k v * 2 ^ (w - k) + (2 ^ (w - k) - 1) + 1 = (cell k v + 1) * 2 ^ (w - k) := by
    rw [Nat.add_mul, Nat.one_mul]
    omega
  rw [hplace, BitVec.toNat_add, ← place, place_or_not_lowMask hk, ← hsum]
  exact Nat.add_mod_mod _ _ _

theorem succ_cell_le {k : ℕ} (hk : k ≤ w) (v : BitVec w) :
    (cell k v + 1) * 2 ^ (w - k) ≤ 2 ^ w := by
  have hpow : 2 ^ w = 2 ^ k * 2 ^ (w - k) := by
    rw [← Nat.pow_add]
    congr 1
    omega
  have hcell : cell k v < 2 ^ k := by
    rw [cell, Nat.div_lt_iff_lt_mul (Nat.two_pow_pos _), ← hpow]
    exact place_lt v
  rw [hpow]
  exact Nat.mul_le_mul_right _ hcell

/-- Where a step does not end the walk, it leads to the first place behind the cell. -/
theorem place_next_of_ne {k : ℕ} (hk : k ≤ w) {v : BitVec w} (hne : next k v ≠ 0) :
    place (next k v) = (cell k v + 1) * 2 ^ (w - k) := by
  have hmod := place_next hk v
  rcases Nat.lt_or_eq_of_le (succ_cell_le hk v) with hlt | heq
  · rw [hmod, Nat.mod_eq_of_lt hlt]
  · rw [heq, Nat.mod_self] at hmod
    exact absurd ((place_eq_zero_iff _).mp hmod) hne

/-- A step that ends the walk was made from the last cell. -/
theorem succ_cell_of_next_eq_zero {k : ℕ} (hk : k ≤ w) {v : BitVec w} (hnext : next k v = 0) :
    (cell k v + 1) * 2 ^ (w - k) = 2 ^ w := by
  have hmod := place_next hk v
  rw [hnext, place_zero] at hmod
  rcases Nat.lt_or_eq_of_le (succ_cell_le hk v) with hlt | heq
  · rw [Nat.mod_eq_of_lt hlt] at hmod
    have hpos : 0 < (cell k v + 1) * 2 ^ (w - k) :=
      Nat.mul_pos (Nat.succ_pos _) (Nat.two_pow_pos _)
    omega
  · exact heq

/-- A word that is far enough is in a far cell. -/
theorem le_cell {k c : ℕ} (hk : k ≤ w) {v : BitVec w} (h : c * 2 ^ w ≤ place v * 2 ^ k) :
    c ≤ cell k v := by
  have hpow : 2 ^ w = 2 ^ (w - k) * 2 ^ k := by
    rw [← Nat.pow_add]
    congr 1
    omega
  rw [hpow, ← Nat.mul_assoc] at h
  exact (Nat.le_div_iff_mul_le (Nat.two_pow_pos _)).mpr
    (Nat.le_of_mul_le_mul_right h (Nat.two_pow_pos k))

/-- A walk goes forward, by a cell at each step. -/
theorem place_next_mul {k : ℕ} (hk : k ≤ w) {v : BitVec w} (hne : next k v ≠ 0) :
    place (next k v) * 2 ^ k = (cell k v + 1) * 2 ^ w := by
  rw [place_next_of_ne hk hne, Nat.mul_assoc, ← Nat.pow_add]
  congr 2
  omega

/-- A walk over cells of at least a certain size stays on the bounds of such cells. -/
theorem dvd_place_next {k K : ℕ} (hk : k ≤ w) (hK : k ≤ K) (v : BitVec w) :
    2 ^ (w - K) ∣ place (next k v) := by
  rw [place_next hk]
  have hsub : 2 ^ (w - K) ∣ 2 ^ (w - k) := Nat.pow_dvd_pow 2 (by omega)
  have hw : 2 ^ (w - K) ∣ 2 ^ w := Nat.pow_dvd_pow 2 (Nat.sub_le _ _)
  exact (Nat.dvd_mod_iff hw).mpr (Dvd.dvd.mul_left hsub _)

/-- A step sets no bit above those that it looks at. -/
theorem toNat_next_lt {k : ℕ} (hk : k ≤ w) (v : BitVec w) : (next k v).toNat < 2 ^ k := by
  refine Nat.lt_pow_two_of_testBit _ fun i hi => ?_
  rw [BitVec.testBit_toNat]
  by_cases hw : i < w
  · obtain ⟨q, hq⟩ := dvd_place_next hk le_rfl v
    have hbit := testBit_place (next k v) (w - 1 - i)
    have hin : w - 1 - i < w := by omega
    have hat : w - 1 - (w - 1 - i) = i := by omega
    have hlow : ¬ w - k ≤ w - 1 - i := by omega
    rw [hq, Nat.testBit_two_pow_mul, hat] at hbit
    simpa [hin, hlow] using hbit.symm
  · exact BitVec.getLsbD_of_ge _ _ (by omega)

section Walk

variable {seen : BitVec w → Prop} {k : ℕ} {v : BitVec w}

theorem seen_of_lt_succ_cell (hbelow : ∀ x, place x < place v → seen x)
    (hcell : ∀ x, cell k x = cell k v → seen x) {x : BitVec w}
    (hx : place x < (cell k v + 1) * 2 ^ (w - k)) : seen x := by
  rcases Nat.lt_or_ge (place x) (place v) with hlt | hge
  · exact hbelow x hlt
  · refine hcell x (Nat.le_antisymm ?_ (Nat.div_le_div_right hge))
    exact Nat.lt_succ_iff.mp ((Nat.div_lt_iff_lt_mul (Nat.two_pow_pos _)).mpr hx)

/-- **The invariant of a walk**: with the cell of the word it is at, everything below the next word
has been seen. -/
theorem seen_below_next (hk : k ≤ w) (hbelow : ∀ x, place x < place v → seen x)
    (hcell : ∀ x, cell k x = cell k v → seen x) (hne : next k v ≠ 0) {x : BitVec w}
    (hx : place x < place (next k v)) : seen x := by
  rw [place_next_of_ne hk hne] at hx
  exact seen_of_lt_succ_cell hbelow hcell hx

/-- **The end of a walk**: when it is back at zero, everything has been seen. -/
theorem seen_of_next_eq_zero (hk : k ≤ w) (hbelow : ∀ x, place x < place v → seen x)
    (hcell : ∀ x, cell k x = cell k v → seen x) (hnext : next k v = 0) (x : BitVec w) :
    seen x := by
  refine seen_of_lt_succ_cell hbelow hcell (k := k) ?_
  rw [succ_cell_of_next_eq_zero hk hnext]
  exact place_lt x

end Walk

end Reversed
