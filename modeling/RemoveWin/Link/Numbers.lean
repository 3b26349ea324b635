import RemoveWin.TextCodec

/-!
# Numbers in the protocol

The lengths in the protocol are written by `ll2string` (`util.c`). It works from the last digit to
the first, two digits at a time out of a table, into a buffer of the caller. So it has to know
where the last digit goes before it writes the first one, and asks `digits10`, which compares with
powers of ten and never divides by ten. If `digits10` were off by one, `ll2string` would write in
front of the buffer or leave a byte of it as it was.

The buffer is a list here, and a write outside of it is no result at all.

## Main results

* `RemoveWin.digits10_eq` — the number of digits
* `RemoveWin.ll2string_eq` — the text is written, the rest of the buffer is as it was
* `RemoveWin.radixLength_eq` — `addReplyBulkLen` announces what `addReply` writes
-/

namespace RemoveWin

/-! ### How many digits -/

/-- `digits10`. -/
def digits10 (v : ℕ) : ℕ :=
  if v < 10 then 1
  else if v < 100 then 2
  else if v < 1000 then 3
  else if v < 1000000000000 then
    if v < 100000000 then
      if v < 1000000 then
        if v < 10000 then 4 else 5 + if v ≥ 100000 then 1 else 0
      else 7 + if v ≥ 10000000 then 1 else 0
    else if v < 10000000000 then 9 + if v ≥ 1000000000 then 1 else 0
    else 11 + if v ≥ 100000000000 then 1 else 0
  else 12 + digits10 (v / 1000000000000)
termination_by v
decreasing_by omega

/-- **`digits10` counts digits.** -/
theorem digits10_eq (v : ℕ) : digits10 v = (Decimal.ofNat v).length := by
  induction v using Nat.strong_induction_on with
  | h v ih =>
    have hlen : ∀ k, 10 ^ k ≤ v → v < 10 ^ (k + 1) → k + 1 = (Decimal.ofNat v).length :=
      fun k hlo hhi => (Decimal.length_ofNat_eq hlo hhi).symm
    rw [digits10]
    split_ifs with h1 h2 h3 h12 h8 h6 h4 h5 h7 h10 h9 h11
    · exact (Decimal.length_ofNat_of_lt_ten h1).symm
    · exact hlen 1 (by omega) (by omega)
    · exact hlen 2 (by omega) (by omega)
    · exact hlen 3 (by omega) (by omega)
    · exact hlen 5 (by omega) (by omega)
    · exact hlen 4 (by omega) (by omega)
    · exact hlen 7 (by omega) (by omega)
    · exact hlen 6 (by omega) (by omega)
    · exact hlen 9 (by omega) (by omega)
    · exact hlen 8 (by omega) (by omega)
    · exact hlen 11 (by omega) (by omega)
    · exact hlen 10 (by omega) (by omega)
    · have hdiv := Decimal.length_ofNat_div_pow 12 (n := v) (by omega)
      rw [ih _ (by omega), hdiv, Nat.add_comm]
      rfl

/-! ### Writing -/

/-- `dst[i] = b`, in a buffer that ends. -/
def poke (dst : Sds) (i : ℕ) (b : Fin 256) : Option Sds :=
  if i < dst.length then some (dst.set i b) else none

/-- The table of `ll2string`: the two digits of each number below 100. -/
def digitPairs : List ℕ :=
  [0,0,0,1,0,2,0,3,0,4,0,5,0,6,0,7,0,8,0,9,1,0,1,1,1,2,1,3,1,4,1,5,1,6,1,7,1,8,1,9,
   2,0,2,1,2,2,2,3,2,4,2,5,2,6,2,7,2,8,2,9,3,0,3,1,3,2,3,3,3,4,3,5,3,6,3,7,3,8,3,9,
   4,0,4,1,4,2,4,3,4,4,4,5,4,6,4,7,4,8,4,9,5,0,5,1,5,2,5,3,5,4,5,5,5,6,5,7,5,8,5,9,
   6,0,6,1,6,2,6,3,6,4,6,5,6,6,6,7,6,8,6,9,7,0,7,1,7,2,7,3,7,4,7,5,7,6,7,7,7,8,7,9,
   8,0,8,1,8,2,8,3,8,4,8,5,8,6,8,7,8,8,8,9,9,0,9,1,9,2,9,3,9,4,9,5,9,6,9,7,9,8,9,9]

/-- `digits[i]`. -/
def digitAt (i : ℕ) : Option (Fin 256) := (digitPairs[i]?).map Decimal.digit

/-- Two digits of the table, at `next - 1` and `next`. -/
def pokePair (dst : Sds) (next k : ℕ) : Option Sds := do
  let hi ← digitAt (k * 2 + 1)
  let lo ← digitAt (k * 2)
  let dst ← poke dst next hi
  if next = 0 then none else poke dst (next - 1) lo

/-- The loop of `ll2string` and the last one or two digits. -/
def ll2stringLoop (dst : Sds) (next value : ℕ) : Option Sds :=
  if value ≥ 100 then
    (pokePair dst next (value % 100)).bind fun dst => ll2stringLoop dst (next - 2) (value / 100)
  else if value < 10 then poke dst next (Decimal.digit value)
  else pokePair dst next value
termination_by value
decreasing_by omega

/-- The number without its sign, as an unsigned one. `LLONG_MIN` has no negative of its own. -/
def magnitude (svalue : Int64) : ℕ :=
  if svalue < 0 then
    if svalue ≠ Int64.minValue then (-svalue).toInt.toNat else Int64.maxValue.toInt.toNat + 1
  else svalue.toInt.toNat

/-- `ll2string` into a buffer of `dst.length` bytes: what the buffer holds afterwards and the length
of the text, 0 if there is no room for it and the byte behind it. -/
def ll2string (dst : Sds) (svalue : Int64) : Option (Sds × ℕ) :=
  let negative : ℕ := if svalue < 0 then 1 else 0
  let value := magnitude svalue
  let length := digits10 value + negative
  if length ≥ dst.length then some (dst, 0)
  else do
    let dst ← poke dst length (byteOf 0)
    let dst ← ll2stringLoop dst (length - 1) value
    let dst ← if negative = 1 then poke dst 0 Decimal.minus else some dst
    return (dst, length)

theorem digitAt_pair : ∀ k < 100, digitAt (k * 2) = some (Decimal.digit (k / 10)) ∧
    digitAt (k * 2 + 1) = some (Decimal.digit (k % 10)) := by decide

theorem poke_append (a c : Sds) (x b : Fin 256) : poke (a ++ x :: c) a.length b =
    some (a ++ b :: c) := by
  rw [poke, if_pos (by simp), List.set_append_right a.length b le_rfl, Nat.sub_self]
  rfl

theorem pokePair_append (a c : Sds) (x y : Fin 256) {k : ℕ} (hk : k < 100) :
    pokePair (a ++ x :: y :: c) (a.length + 1) k =
      some (a ++ Decimal.digit (k / 10) :: Decimal.digit (k % 10) :: c) := by
  obtain ⟨hlo, hhi⟩ := digitAt_pair k hk
  have hsnd := poke_append (a ++ [x]) c y (Decimal.digit (k % 10))
  rw [List.append_assoc, List.append_assoc, List.length_append] at hsnd
  have hfst := poke_append a (Decimal.digit (k % 10) :: c) x (Decimal.digit (k / 10))
  rw [pokePair, hlo, hhi]
  show (poke (a ++ x :: y :: c) (a.length + 1) _).bind _ = _
  rw [show poke (a ++ x :: y :: c) (a.length + 1) (Decimal.digit (k % 10)) =
    some (a ++ x :: Decimal.digit (k % 10) :: c) from hsnd, Option.bind_some,
    if_neg (Nat.succ_ne_zero _), Nat.add_sub_cancel]
  exact hfst

/-- The text of a number, with the last digit at `next`, replaces what stood there. -/
theorem ll2stringLoop_append (value : ℕ) : ∀ a old c : Sds,
    old.length = (Decimal.ofNat value).length →
      ll2stringLoop (a ++ (old ++ c)) (a.length + old.length - 1) value =
        some (a ++ (Decimal.ofNat value ++ c)) := by
  induction value using Nat.strong_induction_on with
  | h value ih =>
    intro a old c hold
    rw [ll2stringLoop]
    by_cases hten : value < 10
    · rw [if_neg (by omega), if_pos hten]
      rw [Decimal.length_ofNat_of_lt_ten hten] at hold
      obtain ⟨x, rfl⟩ := List.length_eq_one_iff.mp hold
      rw [List.length_singleton, Nat.add_sub_cancel, List.singleton_append, poke_append]
      rcases Nat.eq_zero_or_pos value with rfl | hpos
      · rfl
      · rw [Decimal.ofNat, if_neg hpos.ne', Nat.digits_of_lt 10 value hpos.ne' hten]
        rfl
    · -- two digits are taken off the end
      obtain ⟨x, y, init, rfl⟩ : ∃ x y init, old = init ++ [x, y] := by
        have hlen := Decimal.length_ofNat_div_ten (not_lt.mp hten)
        have hpos := Decimal.length_ofNat_pos (value / 10)
        refine ⟨old.get ⟨old.length - 2, by omega⟩, old.get ⟨old.length - 1, by omega⟩,
          old.take (old.length - 2), ?_⟩
        have hdrop : old.drop (old.length - 2) =
            [old.get ⟨old.length - 2, by omega⟩, old.get ⟨old.length - 1, by omega⟩] := by
          rw [List.drop_eq_getElem_cons (by omega), List.drop_eq_getElem_cons (by omega),
            List.drop_eq_nil_of_le (by omega)]
          simp only [List.get_eq_getElem, List.cons.injEq, and_true, true_and]
          congr 1
          omega
        rw [← hdrop, List.take_append_drop]
      have hpos : a.length + (init ++ [x, y]).length - 1 = (a ++ init).length + 1 := by
        simp only [List.length_append, List.length_cons, List.length_nil]
        omega
      have hbuf : a ++ (init ++ [x, y] ++ c) = (a ++ init) ++ x :: y :: c := by simp
      rw [hpos, hbuf]
      by_cases hbig : 100 ≤ value
      · have htext : Decimal.ofNat value = Decimal.ofNat (value / 100) ++
            [Decimal.digit (value % 100 / 10), Decimal.digit (value % 100 % 10)] := by
          rw [Decimal.ofNat_div_ten (by omega), Decimal.ofNat_div_ten (n := value / 10) (by omega),
            Nat.div_div_eq_div_mul, show value / 10 % 10 = value % 100 / 10 by omega,
            show value % 10 = value % 100 % 10 by omega, List.append_assoc]
          rfl
        have hinit : init.length = (Decimal.ofNat (value / 100)).length := by
          rw [htext] at hold
          simpa using hold
        rw [if_pos hbig, pokePair_append _ _ _ _ (Nat.mod_lt _ (by omega)), Option.bind_some,
          List.append_assoc, show (a ++ init).length + 1 - 2 = a.length + init.length - 1 by
            rw [List.length_append]; omega, ih _ (by omega) a init _ hinit, htext]
        simp
      · have htext : Decimal.ofNat value =
            [Decimal.digit (value / 10), Decimal.digit (value % 10)] := by
          rw [Decimal.ofNat_div_ten (by omega), Decimal.ofNat,
            if_neg (show value / 10 ≠ 0 by omega),
            Nat.digits_of_lt 10 (value / 10) (by omega) (by omega)]
          rfl
        have hinit : init = [] := by
          rw [htext] at hold
          simpa using hold
        subst hinit
        rw [if_neg hbig, if_neg hten, pokePair_append _ _ _ _ (by omega), htext]
        simp

theorem magnitude_of_nonneg {svalue : Int64} (h : ¬ svalue < 0) :
    (magnitude svalue : ℤ) = svalue.toInt := by
  have hpos : 0 ≤ svalue.toInt := by simpa [Int64.lt_iff_toInt_lt] using h
  rw [magnitude, if_neg h, Int.toNat_of_nonneg hpos]

theorem magnitude_of_neg {svalue : Int64} (h : svalue < 0) :
    (magnitude svalue : ℤ) = -svalue.toInt := by
  have hneg : svalue.toInt < 0 := by simpa [Int64.lt_iff_toInt_lt] using h
  have hlo := svalue.le_toInt
  rw [magnitude, if_pos h]
  by_cases hmin : svalue = Int64.minValue
  · subst hmin
    rfl
  · have hne : svalue.toInt ≠ -2 ^ 63 := fun heq => hmin (Int64.toInt_inj.mp heq)
    have hhi := svalue.toInt_lt
    rw [if_pos hmin, Int64.toInt_neg, Int.bmod_eq_of_le (by omega) (by omega)]
    omega

/-- The text is the digits of `magnitude` behind the sign. -/
theorem sdsfromlonglong_eq (svalue : Int64) : sdsfromlonglong svalue =
    (if svalue < 0 then [Decimal.minus] else []) ++ Decimal.ofNat (magnitude svalue) := by
  rw [sdsfromlonglong]
  by_cases h : svalue < 0
  · have hmag := magnitude_of_neg h
    have hneg : svalue.toInt < 0 := by simpa [Int64.lt_iff_toInt_lt] using h
    obtain ⟨n, hn⟩ := Int.eq_negSucc_of_lt_zero hneg
    rw [if_pos h, hn, show magnitude svalue = n + 1 by omega]
    rfl
  · rw [if_neg h, ← magnitude_of_nonneg h]
    rfl

theorem exists_cut (dst : Sds) (m n : ℕ) (h : m + n < dst.length) : ∃ a b x c,
    dst = a ++ (b ++ x :: c) ∧ a.length = m ∧ b.length = n := by
  obtain ⟨x, c, hxc⟩ := List.exists_cons_of_ne_nil
    (List.length_pos_iff.mp (show 0 < ((dst.drop m).drop n).length by simp; omega))
  refine ⟨dst.take m, (dst.drop m).take n, x, c, ?_, by simp; omega, by simp; omega⟩
  rw [← hxc, List.take_append_drop, List.take_append_drop]

/-- **`ll2string` writes the decimal text.** With room for it and one byte more, the text comes to
the front of the buffer, a NUL behind it, and the rest stays. Without, nothing is written. -/
theorem ll2string_eq (dst : Sds) (svalue : Int64) :
    ll2string dst svalue = some (if (sdsfromlonglong svalue).length < dst.length then
      (sdsfromlonglong svalue ++ 0 :: dst.drop ((sdsfromlonglong svalue).length + 1),
        (sdsfromlonglong svalue).length) else (dst, 0)) := by
  set sign : Sds := if svalue < 0 then [Decimal.minus] else [] with hsign
  set value := magnitude svalue with hvalue
  have htext : sdsfromlonglong svalue = sign ++ Decimal.ofNat value := sdsfromlonglong_eq svalue
  have hneg : (if svalue < 0 then 1 else 0) = sign.length := by
    rw [hsign]
    split_ifs <;> rfl
  have hlen : digits10 value + sign.length = (sdsfromlonglong svalue).length := by
    rw [htext, List.length_append, digits10_eq, Nat.add_comm]
  rw [ll2string, hneg, ← hvalue, hlen]
  by_cases hroom : (sdsfromlonglong svalue).length < dst.length
  · rw [if_neg (not_le.mpr hroom), if_pos hroom]
    -- the buffer is cut where the sign, the digits and the NUL come
    obtain ⟨sgn, old, x, c, rfl, hs, hold⟩ := exists_cut dst sign.length
      (Decimal.ofNat value).length (by rw [htext, List.length_append] at hroom; exact hroom)
    have hlength : (sdsfromlonglong svalue).length = (sgn ++ old).length := by
      rw [htext, List.length_append, List.length_append, hs, hold]
    have hnul : poke (sgn ++ (old ++ x :: c)) (sgn ++ old).length (byteOf 0) =
        some (sgn ++ (old ++ 0 :: c)) := by
      show poke _ _ 0 = _
      simpa only [List.append_assoc] using poke_append (sgn ++ old) c x 0
    have hdigits := ll2stringLoop_append value sgn old (0 :: c) hold
    have hrest : (sgn ++ (old ++ x :: c)).drop ((sgn ++ old).length + 1) = c := by
      rw [← List.append_assoc, ← List.drop_drop, List.drop_left]
      rfl
    rw [hlength, hnul, hrest, htext, List.length_append]
    show ((ll2stringLoop _ _ _).bind _) = _
    rw [hdigits, Option.bind_some]
    by_cases hminus : svalue < 0
    · rw [if_pos hminus] at hsign
      obtain ⟨y, rfl⟩ := List.length_eq_one_iff.mp (hs.trans (congrArg List.length hsign))
      rw [hsign]
      rfl
    · rw [if_neg hminus] at hsign
      obtain rfl := List.length_eq_zero_iff.mp (hs.trans (congrArg List.length hsign))
      rw [hsign]
      rfl
  · rw [if_pos (not_lt.mp hroom), if_neg hroom]

/-! ### The length of an integer object -/

theorem natAbs_div_ten (n : Int64) : (n / 10).toInt.natAbs = n.toInt.natAbs / 10 := by
  rw [Int64.toInt_div_of_ne_right _ _ (by decide), Int.natAbs_tdiv]
  rfl

theorem div_ten_eq_zero_iff (n : Int64) : n / 10 = 0 ↔ n.toInt.natAbs < 10 := by
  rw [← Int64.toInt_inj, Int64.toInt_zero, ← Int.natAbs_eq_zero, natAbs_div_ten]
  omega

/-- The loop of `addReplyBulkLen`: `while ((n = n/10) != 0) len++`. -/
def radixLoop (len : ℕ) (n : Int64) : ℕ :=
  if n / 10 ≠ 0 then radixLoop (len + 1) (n / 10) else len
termination_by n.toInt.natAbs
decreasing_by
  rw [natAbs_div_ten]
  have hten := mt (div_ten_eq_zero_iff n).mpr ‹n / 10 ≠ 0›
  omega

/-- How many bytes `addReplyBulkLen` says an integer object takes. The least number is its own
negative, and the division rounds towards zero, so the loop counts its digits all the same. -/
def radixLength (n : Int64) : ℕ :=
  if n < 0 then radixLoop 2 (-n) else radixLoop 1 n

theorem radixLoop_add_one (len : ℕ) (n : Int64) :
    radixLoop len n + 1 = len + (Decimal.ofNat n.toInt.natAbs).length := by
  induction len, n using radixLoop.induct with
  | case1 len n h ih =>
    have hten := mt (div_ten_eq_zero_iff n).mpr h
    rw [radixLoop, if_pos h, ih, natAbs_div_ten,
      Decimal.length_ofNat_div_ten (n := n.toInt.natAbs) (by omega)]
    omega
  | case2 len n h =>
    have hten := (div_ten_eq_zero_iff n).mp (not_not.mp h)
    rw [radixLoop, if_neg h, Decimal.length_ofNat_of_lt_ten hten]

theorem natAbs_neg_toInt (n : Int64) : (-n).toInt.natAbs = n.toInt.natAbs := by
  by_cases hmin : n = Int64.minValue
  · subst hmin
    rfl
  · have hne : n.toInt ≠ -2 ^ 63 := fun heq => hmin (Int64.toInt_inj.mp heq)
    have hlo := n.le_toInt
    have hhi := n.toInt_lt
    rw [Int64.toInt_neg, Int.bmod_eq_of_le (by omega) (by omega), Int.natAbs_neg]

theorem magnitude_eq_natAbs (n : Int64) : magnitude n = n.toInt.natAbs := by
  by_cases h : n < 0
  · have hmag := magnitude_of_neg h
    omega
  · have hmag := magnitude_of_nonneg h
    omega

/-- **The announced length is the length written**, for the least number as well. -/
theorem radixLength_eq (n : Int64) : radixLength n = (sdsfromlonglong n).length := by
  rw [radixLength, sdsfromlonglong_eq, List.length_append, magnitude_eq_natAbs]
  split_ifs with h
  · have hloop := radixLoop_add_one 2 (-n)
    rw [natAbs_neg_toInt] at hloop
    simp only [List.length_singleton]
    omega
  · have hloop := radixLoop_add_one 1 n
    simp only [List.length_nil]
    omega

end RemoveWin
