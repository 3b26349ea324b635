import Mathlib

/-!
# Decimal numerals as bytes

The text of an integer as `printf` writes it under `%d`, and the reading of one from the front of
a buffer: a sign, then digits as long as there are any. Reading stops at the first byte that is
not a digit, so a numeral can be taken off a longer text when what follows it is a separator.
-/

namespace Decimal

/-- The character of a digit. -/
def digit (d : ℕ) : Fin 256 := ⟨(48 + d) % 256, Nat.mod_lt _ (by omega)⟩

/-- The minus sign. -/
def minus : Fin 256 := ⟨45, by decide⟩

/-- A character between `0` and `9`. -/
def IsDigit (b : Fin 256) : Prop := 48 ≤ b.val ∧ b.val ≤ 57

instance (b : Fin 256) : Decidable (IsDigit b) :=
  inferInstanceAs (Decidable (48 ≤ b.val ∧ b.val ≤ 57))

/-- A natural number, without leading zeros. -/
def ofNat (n : ℕ) : List (Fin 256) :=
  if n = 0 then [digit 0] else (Nat.digits 10 n).reverse.map digit

/-- An integer, with a sign if it is negative. -/
def ofInt : ℤ → List (Fin 256)
  | .ofNat n => ofNat n
  | .negSucc n => minus :: ofNat (n + 1)

/-- Read digits as long as there are any. -/
def readNat (acc : ℕ) : List (Fin 256) → ℕ × List (Fin 256)
  | [] => (acc, [])
  | b :: l => if IsDigit b then readNat (10 * acc + (b.val - 48)) l else (acc, b :: l)

/-- Read a sign, if there is one, and digits. -/
def readInt : List (Fin 256) → ℤ × List (Fin 256)
  | [] => (0, [])
  | b :: l =>
    if b = minus then (-((readNat 0 l).1 : ℤ), (readNat 0 l).2)
    else (((readNat 0 (b :: l)).1 : ℤ), (readNat 0 (b :: l)).2)

/-- A text that a numeral before it can be told from. -/
def Separated (rest : List (Fin 256)) : Prop := ∀ b ∈ rest.head?, ¬ IsDigit b

theorem separated_nil : Separated [] := by
  intro b hb
  cases hb

theorem val_digit {d : ℕ} (h : d < 10) : (digit d).val = 48 + d := by
  show (48 + d) % 256 = 48 + d
  omega

theorem isDigit_digit {d : ℕ} (h : d < 10) : IsDigit (digit d) := by
  rw [IsDigit, val_digit h]
  omega

theorem not_isDigit_minus : ¬ IsDigit minus := by decide

theorem isDigit_of_mem_ofNat {n : ℕ} {b : Fin 256} (h : b ∈ ofNat n) : IsDigit b := by
  rw [ofNat] at h
  split at h
  · rw [List.mem_singleton] at h
    rw [h]
    exact isDigit_digit (by omega)
  · obtain ⟨d, hd, rfl⟩ := List.mem_map.mp h
    exact isDigit_digit (Nat.digits_lt_base (by omega) (List.mem_reverse.mp hd))

theorem ofNat_ne_nil (n : ℕ) : ofNat n ≠ [] := by
  rw [ofNat]
  split
  · simp
  · next h => simpa using Nat.digits_ne_nil_iff_ne_zero.mpr h

/-- Digits are read as the number they stand for. -/
theorem readNat_map_digit {rest : List (Fin 256)} (hrest : Separated rest) :
    ∀ (ds : List ℕ) (acc : ℕ), (∀ d ∈ ds, d < 10) →
      readNat acc (ds.map digit ++ rest) = (ds.foldl (fun a d => 10 * a + d) acc, rest) := by
  intro ds
  induction ds with
  | nil =>
    intro acc _
    cases rest with
    | nil => rfl
    | cons b rest => exact if_neg (hrest b rfl)
  | cons d ds ih =>
    intro acc hds
    have hd : d < 10 := hds d (by simp)
    rw [List.map_cons, List.cons_append, readNat, if_pos (isDigit_digit hd), val_digit hd,
      Nat.add_sub_cancel_left, ih _ fun d' hd' => hds d' (List.mem_cons_of_mem d hd')]
    rfl

theorem readNat_ofNat (n : ℕ) {rest : List (Fin 256)} (hrest : Separated rest) :
    readNat 0 (ofNat n ++ rest) = (n, rest) := by
  rw [ofNat]
  split
  · next h =>
    rw [h]
    exact readNat_map_digit hrest [0] 0 (by simp)
  · rw [readNat_map_digit hrest _ 0 fun d hd =>
      Nat.digits_lt_base (by omega) (List.mem_reverse.mp hd), List.foldl_reverse]
    have hfold : (Nat.digits 10 n).foldr (fun d a => 10 * a + d) 0 = n := by
      rw [show (fun d a : ℕ => 10 * a + d) = fun d a => d + 10 * a by funext d a; omega]
      exact (Nat.ofDigits_eq_foldr 10 _).symm.trans (Nat.ofDigits_digits 10 n)
    rw [hfold]

/-- **What was written is read back**, and the rest is left. -/
theorem readInt_ofInt (i : ℤ) {rest : List (Fin 256)} (hrest : Separated rest) :
    readInt (ofInt i ++ rest) = (i, rest) := by
  cases i with
  | ofNat n =>
    show readInt (ofNat n ++ rest) = _
    obtain ⟨b, l, hbl⟩ := List.exists_cons_of_ne_nil (ofNat_ne_nil n)
    have hb : b ≠ minus := by
      rintro rfl
      exact not_isDigit_minus (isDigit_of_mem_ofNat (n := n) (by simp [hbl]))
    have hread := readNat_ofNat n hrest
    rw [hbl, List.cons_append] at hread ⊢
    rw [readInt, if_neg hb, hread]
    rfl
  | negSucc n =>
    show readInt (minus :: (ofNat (n + 1) ++ rest)) = _
    rw [readInt, if_pos rfl, readNat_ofNat (n + 1) hrest]
    rfl

theorem digit_val_sub {b : Fin 256} (h : IsDigit b) : digit (b.val - 48) = b := by
  rw [IsDigit] at h
  refine Fin.ext ?_
  rw [val_digit (by omega)]
  omega

/-- A digit more at the end. -/
theorem ofNat_mul_ten_add {v d : ℕ} (hv : 0 < v) (hd : d < 10) :
    ofNat (v * 10 + d) = ofNat v ++ [digit d] := by
  have hdigits : Nat.digits 10 (v * 10 + d) = d :: Nat.digits 10 v := by
    rw [show v * 10 + d = d + 10 * v by omega]
    exact Nat.digits_add 10 (by omega) d v hd (.inr hv.ne')
  rw [ofNat, ofNat, if_neg (by omega), if_neg hv.ne', hdigits, List.reverse_cons, List.map_append]
  rfl

/-- A numeral consists of digits and a sign. -/
theorem isDigit_or_minus_of_mem_ofInt {i : ℤ} {b : Fin 256} (h : b ∈ ofInt i) :
    IsDigit b ∨ b = minus := by
  cases i with
  | ofNat n => exact .inl (isDigit_of_mem_ofNat h)
  | negSucc n =>
    rcases List.mem_cons.mp h with rfl | h
    · exact .inr rfl
    · exact .inl (isDigit_of_mem_ofNat h)

/-! ### The length of a numeral -/

theorem length_ofNat {n : ℕ} (hn : n ≠ 0) : (ofNat n).length = Nat.log 10 n + 1 := by
  rw [ofNat, if_neg hn, List.length_map, List.length_reverse, Nat.length_digits 10 n (by omega) hn]

theorem length_ofNat_eq {n k : ℕ} (hlo : 10 ^ k ≤ n) (hhi : n < 10 ^ (k + 1)) :
    (ofNat n).length = k + 1 := by
  have hpos : 0 < 10 ^ k := Nat.pow_pos (by omega)
  rw [length_ofNat (by omega), Nat.log_eq_of_pow_le_of_lt_pow hlo hhi]

theorem length_ofNat_le {n k : ℕ} (hk : 0 < k) (hn : n < 10 ^ k) : (ofNat n).length ≤ k := by
  rcases Nat.eq_zero_or_pos n with rfl | hpos
  · exact hk
  · rw [length_ofNat hpos.ne']
    exact Nat.log_lt_of_lt_pow hpos.ne' hn

theorem length_ofNat_of_lt_ten {n : ℕ} (hn : n < 10) : (ofNat n).length = 1 := by
  rcases Nat.eq_zero_or_pos n with rfl | hpos
  · rfl
  · exact length_ofNat_eq (k := 0) (by omega) (by omega)

/-- The last digit comes off the end. -/
theorem ofNat_div_ten {n : ℕ} (hn : 10 ≤ n) : ofNat n = ofNat (n / 10) ++ [digit (n % 10)] := by
  rw [← ofNat_mul_ten_add (by omega) (Nat.mod_lt n (by omega)), Nat.div_add_mod']

theorem length_ofNat_div_ten {n : ℕ} (hn : 10 ≤ n) :
    (ofNat n).length = (ofNat (n / 10)).length + 1 := by
  rw [ofNat_div_ten hn, List.length_append, List.length_singleton]

theorem length_ofNat_pos (n : ℕ) : 0 < (ofNat n).length :=
  List.length_pos_iff.mpr (ofNat_ne_nil n)

/-- Several digits come off the end. -/
theorem length_ofNat_div_pow (k : ℕ) : ∀ {n : ℕ}, 10 ^ k ≤ n →
    (ofNat n).length = (ofNat (n / 10 ^ k)).length + k := by
  induction k with
  | zero => simp
  | succ k ih =>
    intro n hn
    have hpos : 0 < 10 ^ k := Nat.pow_pos (by omega)
    rw [pow_succ] at hn
    have hten : 10 ≤ n := by nlinarith
    have hdiv : 10 ^ k ≤ n / 10 := (Nat.le_div_iff_mul_le (by omega)).mpr hn
    rw [length_ofNat_div_ten hten, ih hdiv, Nat.div_div_eq_div_mul, pow_succ', Nat.add_assoc]

end Decimal
