import RemoveWin.LamportClock
import RemoveWin.VectorClock

/-!
# Numbers and clocks as text

What a message is made of is text. Counts are written by `sdsfromlonglong` (`sds.c`) and read by
`string2ll` (`util.c`), clocks are written by `VCToSds` and read by `SdsToVC` (`vector_clock.c`).
Both readers are given a text and nothing else. `string2ll` is strict and fails on everything that
is not the text of a number; `SdsToVC` is not: it looks for its separators without regard to where
the text ends, and on a text without them it runs into the memory behind.

## What is left out

The numbers of a clock are C `int`s, unbounded here as everywhere. `SdsToVC` collects them in a
global array of 100 and copies them from there; if there are more, they are written and read behind
it, with the same result for the clock.
-/

namespace RemoveWin

/-! ### Numbers -/

/-- `sdsfromlonglong`: digits from the last to the first, a sign, and all of it reversed. -/
def sdsfromlonglong (value : Int64) : Sds := Decimal.ofInt value.toInt

/-- `ULLONG_MAX`. -/
def ullongMax : ℕ := 2 ^ 64 - 1

/-- The loop of `string2ll` over the digits after the first. -/
def string2llLoop : ℕ → Sds → Option ℕ
  | v, [] => some v
  | v, b :: p =>
    if Decimal.IsDigit b then
      if v > ullongMax / 10 then none
      else if v * 10 > ullongMax - (b.val - 48) then none
      else string2llLoop (v * 10 + (b.val - 48)) p
    else none

/-- The part of `string2ll` after the sign: a first digit that is not zero, then any. -/
def string2llDigits : Sds → Option ℕ
  | [] => none
  | b :: p => if 49 ≤ b.val ∧ b.val ≤ 57 then string2llLoop (b.val - 48) p else none

/-- `string2ll`. -/
def string2ll : Sds → Option Int64
  | [] => none
  | b :: p =>
    if b :: p = [Decimal.digit 0] then some 0
    else if b = Decimal.minus then
      (string2llDigits p).bind fun v => if v > 2 ^ 63 then none else some (Int64.ofInt (-v))
    else
      (string2llDigits (b :: p)).bind fun v =>
        if v > 2 ^ 63 - 1 then none else some (Int64.ofInt v)

theorem le_readNat (acc : ℕ) (l : Sds) : acc ≤ (Decimal.readNat acc l).1 := by
  induction l generalizing acc with
  | nil => exact le_rfl
  | cons b l ih =>
    rw [Decimal.readNat]
    split
    · exact le_trans (by omega) (ih _)
    · exact le_rfl

theorem string2llLoop_of_readNat {n : ℕ} (hn : n ≤ ullongMax) : ∀ {l : Sds} {v : ℕ},
    Decimal.readNat v l = (n, []) → string2llLoop v l = some n := by
  intro l
  induction l with
  | nil =>
    intro v h
    obtain ⟨rfl, -⟩ := Prod.mk.inj h
    rfl
  | cons b l ih =>
    intro v h
    rw [Decimal.readNat] at h
    by_cases hb : Decimal.IsDigit b
    · rw [if_pos hb] at h
      have hle := le_readNat (10 * v + (b.val - 48)) l
      rw [h] at hle
      have hfirst : ¬ v > ullongMax / 10 := by omega
      have hsecond : ¬ v * 10 > ullongMax - (b.val - 48) := by omega
      rw [string2llLoop, if_pos hb, if_neg hfirst, if_neg hsecond, mul_comm v]
      exact ih h
    · rw [if_neg hb] at h
      exact absurd (Prod.mk.inj h).2 (by simp)

theorem exists_ofNat_eq {n : ℕ} (hn : n ≠ 0) :
    ∃ d l, 0 < d ∧ d < 10 ∧ Decimal.ofNat n = Decimal.digit d :: l := by
  have hne : Nat.digits 10 n ≠ [] := Nat.digits_ne_nil_iff_ne_zero.mpr hn
  refine ⟨(Nat.digits 10 n).getLast hne, ((Nat.digits 10 n).dropLast.reverse.map Decimal.digit),
    Nat.pos_of_ne_zero (Nat.getLast_digit_ne_zero 10 hn),
    Nat.digits_lt_base (by omega) (List.getLast_mem hne), ?_⟩
  rw [Decimal.ofNat, if_neg hn, ← List.map_cons, ← List.reverse_concat,
    List.dropLast_append_getLast hne]

theorem string2llDigits_ofNat {n : ℕ} (hn : n ≠ 0) (hmax : n ≤ ullongMax) :
    string2llDigits (Decimal.ofNat n) = some n := by
  obtain ⟨d, l, hpos, hd, hl⟩ := exists_ofNat_eq hn
  have hread := Decimal.readNat_ofNat n Decimal.separated_nil
  rw [List.append_nil, hl, Decimal.readNat, if_pos (Decimal.isDigit_digit hd),
    Decimal.val_digit hd, show 10 * 0 + (48 + d - 48) = d by omega] at hread
  rw [hl, string2llDigits, Decimal.val_digit hd, if_pos (by omega),
    show 48 + d - 48 = d by omega]
  exact string2llLoop_of_readNat hmax hread

/-- **Counts are read back.** -/
@[simp] theorem string2ll_sdsfromlonglong (value : Int64) :
    string2ll (sdsfromlonglong value) = some value := by
  have hlt := value.toInt_lt
  have hle := value.le_toInt
  have hback : Int64.ofInt value.toInt = value := Int64.ofInt_toInt value
  rw [sdsfromlonglong]
  cases h : value.toInt with
  | ofNat n =>
    rw [h] at hlt hle hback
    show string2ll (Decimal.ofNat n) = some value
    rcases Nat.eq_zero_or_pos n with rfl | hn
    · rw [← hback]
      rfl
    · have hmax : n ≤ 2 ^ 63 - 1 := by
        rw [Int.ofNat_eq_natCast] at hlt
        omega
      obtain ⟨d, l, hpos, hd, hl⟩ := exists_ofNat_eq hn.ne'
      have hdigits := string2llDigits_ofNat hn.ne' (by rw [ullongMax]; omega)
      have hzero : Decimal.ofNat n ≠ [Decimal.digit 0] := by
        rw [hl]
        intro h0
        have h0 := congrArg Fin.val (List.cons.inj h0).1
        rw [Decimal.val_digit hd, Decimal.val_digit (by omega)] at h0
        omega
      have hminus : Decimal.digit d ≠ Decimal.minus := by
        intro h0
        exact Decimal.not_isDigit_minus (h0 ▸ Decimal.isDigit_digit hd)
      rw [hl] at hdigits hzero ⊢
      rw [string2ll, if_neg hzero, if_neg hminus, hdigits, Option.bind_some, if_neg (by omega),
        ← hback]
      rfl
  | negSucc n =>
    rw [h] at hlt hle hback
    show string2ll (Decimal.minus :: Decimal.ofNat (n + 1)) = some value
    have hmax : n + 1 ≤ 2 ^ 63 := by
      rw [Int.negSucc_eq] at hle
      omega
    rw [string2ll, if_neg (by simp [Decimal.ofNat_ne_nil]), if_pos rfl,
      string2llDigits_ofNat (by omega) (by rw [ullongMax]; omega), Option.bind_some,
      if_neg (by omega), ← hback]
    rfl

theorem ofNat_of_string2llLoop {l : Sds} {v n : ℕ} (hv : 0 < v)
    (h : string2llLoop v l = some n) : Decimal.ofNat n = Decimal.ofNat v ++ l := by
  induction l generalizing v with
  | nil =>
    cases h
    exact (List.append_nil _).symm
  | cons b l ih =>
    rw [string2llLoop] at h
    split_ifs at h with hb _ _
    have hdigit : b.val - 48 < 10 := by
      rw [Decimal.IsDigit] at hb
      omega
    rw [ih (by omega) h, Decimal.ofNat_mul_ten_add hv hdigit, Decimal.digit_val_sub hb,
      List.append_assoc, List.singleton_append]

theorem ofNat_of_string2llDigits {l : Sds} {n : ℕ} (h : string2llDigits l = some n) :
    Decimal.ofNat n = l ∧ n ≠ 0 := by
  cases l with
  | nil => cases h
  | cons b l =>
    rw [string2llDigits] at h
    split_ifs at h with hb
    have hfirst : Decimal.ofNat (b.val - 48) = [b] := by
      have hb' : b.val - 48 < 10 := by omega
      rw [Decimal.ofNat, if_neg (by omega), Nat.digits_of_lt 10 _ (by omega) hb']
      exact congrArg (fun b => [b]) (Decimal.digit_val_sub ⟨by omega, hb.2⟩)
    have hloop := ofNat_of_string2llLoop (by omega) h
    rw [hfirst, List.singleton_append] at hloop
    refine ⟨hloop, ?_⟩
    rintro rfl
    have h0 : Decimal.digit 0 = b := (List.cons.inj hloop).1
    rw [← h0] at hb
    exact absurd hb.1 (by decide)

/-- **Only canonical texts are read as numbers.** -/
theorem sdsfromlonglong_of_string2ll {s : Sds} {value : Int64} (h : string2ll s = some value) :
    sdsfromlonglong value = s := by
  cases s with
  | nil => cases h
  | cons b p =>
    rw [string2ll] at h
    split_ifs at h with hzero hminus
    · cases h
      exact hzero.symm
    · obtain ⟨n, hn, h⟩ := Option.bind_eq_some_iff.mp h
      obtain ⟨hdigits, hne⟩ := ofNat_of_string2llDigits hn
      split_ifs at h with hmax
      cases h
      obtain ⟨m, rfl⟩ := Nat.exists_eq_succ_of_ne_zero hne
      have htoInt : (Int64.ofInt (-((m + 1 : ℕ) : ℤ))).toInt = Int.negSucc m := by
        rw [Int64.toInt_ofInt_of_le (by omega) (by omega)]
        rfl
      rw [sdsfromlonglong, htoInt, hminus, ← hdigits]
      rfl
    · obtain ⟨n, hn, h⟩ := Option.bind_eq_some_iff.mp h
      obtain ⟨hdigits, -⟩ := ofNat_of_string2llDigits hn
      split_ifs at h with hmax
      cases h
      have htoInt : (Int64.ofInt (n : ℤ)).toInt = Int.ofNat n :=
        Int64.toInt_ofInt_of_le (by omega) (by omega)
      rw [sdsfromlonglong, htoInt, ← hdigits]
      rfl

/-! ### Clocks -/

/-- The character before the id of a clock. -/
def bar : Fin 256 := ⟨124, by decide⟩

/-- The characters `isspace` accepts. -/
def IsSpace (b : Fin 256) : Prop := b.val = 32 ∨ (9 ≤ b.val ∧ b.val ≤ 13)

instance (b : Fin 256) : Decidable (IsSpace b) :=
  inferInstanceAs (Decidable (b.val = 32 ∨ (9 ≤ b.val ∧ b.val ≤ 13)))

/-- `atoi`: spaces, a sign and digits, as far as there are any. -/
def atoi (p : Sds) : ℤ :=
  match p.dropWhile fun b => IsSpace b with
  | [] => 0
  | b :: l => if b.val = 43 then (Decimal.readNat 0 l).1 else (Decimal.readInt (b :: l)).1

/-- `VCToSds`. The last number is written by itself, and of a clock without any it is read from
behind the array. -/
def vcToSds (c : VC) : Option Sds :=
  c.vector.getLast?.map fun x =>
    (c.vector.dropLast.flatMap fun x => Decimal.ofInt x ++ [comma]) ++
      (Decimal.ofInt x ++ bar :: Decimal.ofInt c.id)

/-- Neither separator. -/
def InNumber (b : Fin 256) : Prop := b ≠ comma ∧ b ≠ bar

instance (b : Fin 256) : Decidable (InNumber b) := inferInstanceAs (Decidable (b ≠ comma ∧ b ≠ bar))

/-- The loop of `SdsToVC` with the id that follows it. Each round takes at least one character, so
the length of the text bounds the rounds. A text that ends before the loop does is overrun. -/
def sdsToVCLoop : ℕ → Sds → Option (List ℤ × ℤ)
  | 0, _ => none
  | fuel + 1, p =>
    match p.dropWhile fun b => InNumber b with
    | [] => none
    | b :: rest =>
      if b = bar then some ([atoi p], atoi rest)
      else (sdsToVCLoop fuel rest).map fun r => (atoi p :: r.1, r.2)

/-- `SdsToVC`. -/
def sdsToVC (s : Sds) : Option VC := (sdsToVCLoop s.length s).map fun r => ⟨r.1, r.2⟩

theorem atoi_ofInt (i : ℤ) {rest : Sds} (hrest : Decimal.Separated rest) :
    atoi (Decimal.ofInt i ++ rest) = i := by
  have hchars : ∀ b ∈ Decimal.ofInt i, ¬ IsSpace b ∧ b.val ≠ 43 := by
    intro b hb
    rcases Decimal.isDigit_or_minus_of_mem_ofInt hb with h | rfl
    · rw [Decimal.IsDigit] at h
      rw [IsSpace]
      omega
    · decide
  have hread := Decimal.readInt_ofInt i hrest
  cases hi : Decimal.ofInt i with
  | nil =>
    cases i with
    | ofNat n => exact absurd hi (Decimal.ofNat_ne_nil n)
    | negSucc n => exact absurd hi (List.cons_ne_nil _ _)
  | cons b l =>
    obtain ⟨hspace, hplus⟩ := hchars b (by rw [hi]; exact List.mem_cons_self)
    rw [hi, List.cons_append] at hread
    rw [List.cons_append, atoi, List.dropWhile_cons_of_neg (by simpa using hspace)]
    show (if b.val = 43 then _ else (Decimal.readInt (b :: (l ++ rest))).1) = i
    rw [if_neg hplus, hread]

theorem dropWhile_ofInt (i : ℤ) (b : Fin 256) (rest : Sds) (hb : ¬ InNumber b) :
    (Decimal.ofInt i ++ b :: rest).dropWhile (fun b => InNumber b) = b :: rest := by
  rw [List.dropWhile_append_of_pos, List.dropWhile_cons_of_neg (by simpa using hb)]
  intro b' hb'
  rw [decide_eq_true_eq]
  rcases Decimal.isDigit_or_minus_of_mem_ofInt hb' with h | rfl
  · rw [Decimal.IsDigit] at h
    refine ⟨?_, ?_⟩ <;> rintro rfl
    · exact absurd h (by decide)
    · exact absurd h (by decide)
  · decide

theorem separated_bar (rest : Sds) : Decimal.Separated (bar :: rest) := by
  intro b hb
  obtain rfl : bar = b := by simpa using hb
  decide

theorem sdsToVCLoop_text (x id : ℤ) : ∀ (xs : List ℤ) (fuel : ℕ), xs.length < fuel →
    sdsToVCLoop fuel ((xs.flatMap fun x => Decimal.ofInt x ++ [comma]) ++
      (Decimal.ofInt x ++ bar :: Decimal.ofInt id)) = some (xs ++ [x], id) := by
  intro xs
  induction xs with
  | nil =>
    intro fuel hfuel
    obtain ⟨fuel, rfl⟩ := Nat.exists_eq_succ_of_ne_zero hfuel.ne'
    have hid := atoi_ofInt id Decimal.separated_nil
    rw [List.append_nil] at hid
    rw [List.flatMap_nil, List.nil_append, sdsToVCLoop, dropWhile_ofInt x bar _ (by decide),
      atoi_ofInt x (separated_bar _)]
    show (if bar = bar then _ else _) = _
    rw [if_pos rfl, hid]
    rfl
  | cons y xs ih =>
    intro fuel hfuel
    obtain ⟨fuel, rfl⟩ := Nat.exists_eq_succ_of_ne_zero (Nat.ne_zero_of_lt hfuel)
    rw [List.flatMap_cons, List.append_assoc, List.append_assoc, List.singleton_append, sdsToVCLoop,
      dropWhile_ofInt y comma _ (by decide), atoi_ofInt y (separated_comma _)]
    show (if comma = bar then _ else _) = _
    rw [if_neg (by decide), ih fuel (by simpa using hfuel)]
    rfl

/-- **Clocks are read back.** -/
theorem sdsToVC_vcToSds {c : VC} {s : Sds} (h : vcToSds c = some s) : sdsToVC s = some c := by
  obtain ⟨x, hx, rfl⟩ := Option.map_eq_some_iff.mp h
  rw [sdsToVC, sdsToVCLoop_text]
  · show some (VC.mk (c.vector.dropLast ++ [x]) c.id) = some c
    rw [List.dropLast_append_getLast? x hx]
  · rw [List.length_append]
    have hlen : c.vector.dropLast.length ≤
        (c.vector.dropLast.flatMap fun x => Decimal.ofInt x ++ [comma]).length := by
      rw [List.length_flatMap]
      refine le_trans (le_of_eq ?_) (List.sum_le_sum (f := fun _ => 1) fun i _ => ?_)
      · simp
      · simp
    have hlast : 0 < (Decimal.ofInt x ++ bar :: Decimal.ofInt c.id).length := by simp
    omega

end RemoveWin
