import Mathlib

/-!
# Byte strings

`sds` strings carry their length and may hold any bytes. The C library's idea of a string stops
at the first NUL, and `sdsnew` is where the two meet: handed the buffer of an `sds` it copies
only up to that byte, where `sdsdup` copies the whole string. Which of the two a command uses
decides whether it is binary safe, so `sdsnew` is modelled and `sdsdup` is the identity.
-/

namespace RemoveWin

/-- A byte string. -/
abbrev Sds := List (Fin 256)

/-- A string literal of the source, given by its character codes. -/
def bytes (codes : List ℕ) : Sds := codes.map (Fin.ofNat 256)

/-- A text of the source, as bytes. -/
def ofText (s : String) : Sds := bytes (s.toList.map Char.toNat)

theorem mod_byte_lt (n : ℕ) : n % 256 < 256 := Nat.mod_lt n (by decide)

/-- The byte with a code. -/
def byteOf (n : ℕ) : Fin 256 := ⟨n % 256, mod_byte_lt n⟩

/-- `sdsnew`: the bytes before the first NUL. -/
def sdsnew (s : Sds) : Sds := s.takeWhile (· ≠ 0)

/-- `sdsnew` of a pointer that may be `NULL`, which it reads as the empty string. -/
def sdsnewNull (s : Option Sds) : Sds := sdsnew (s.getD [])

/-- A string without NUL bytes. -/
def NulFree (s : Sds) : Prop := 0 ∉ s

instance (s : Sds) : Decidable (NulFree s) := inferInstanceAs (Decidable (0 ∉ s))

theorem sdsnew_of_nulFree {s : Sds} (h : NulFree s) : sdsnew s = s := by
  refine List.takeWhile_eq_self_iff.mpr fun b hb => ?_
  simpa using fun h0 : b = 0 => h (h0 ▸ hb)

theorem map_sdsnew_of_nulFree {l : List Sds} (h : ∀ s ∈ l, NulFree s) : l.map sdsnew = l :=
  (List.map_congr_left fun s hs => sdsnew_of_nulFree (h s hs)).trans (List.map_id' l)

theorem nulFree_sdsnew (s : Sds) : NulFree (sdsnew s) := by
  intro h0
  simpa using List.mem_takeWhile_imp h0

@[simp] theorem sdsnew_sdsnew (s : Sds) : sdsnew (sdsnew s) = sdsnew s :=
  sdsnew_of_nulFree (nulFree_sdsnew s)

@[simp] theorem sdsnewNull_none : sdsnewNull none = [] := rfl

@[simp] theorem sdsnewNull_some (s : Sds) : sdsnewNull (some s) = sdsnew s := rfl

/-- `sdscmp`: `memcmp` over the common length, then the longer string is the greater. -/
def sdscmp : Sds → Sds → ℤ
  | [], [] => 0
  | [], _ :: _ => -1
  | _ :: _, [] => 1
  | a :: s, b :: t => if a < b then -1 else if b < a then 1 else sdscmp s t

/-- A positive `sdscmp` is the lexicographic order. -/
theorem sdscmp_pos_iff (s t : Sds) : 0 < sdscmp s t ↔ t < s := by
  induction s generalizing t with
  | nil => cases t <;> simp [sdscmp]
  | cons a s ih =>
    cases t with
    | nil => simp [sdscmp]
    | cons b t =>
      rw [sdscmp, List.cons_lt_cons_iff]
      split
      · next hlt => simp [hlt.ne', not_lt.mpr hlt.le]
      · next hnlt =>
        split
        · next hlt => simp [hlt]
        · next hnlt' =>
          obtain rfl : a = b := le_antisymm (not_lt.mp hnlt') (not_lt.mp hnlt)
          simpa using ih t

theorem sdscmp_eq_zero_iff (s t : Sds) : sdscmp s t = 0 ↔ s = t := by
  induction s generalizing t with
  | nil => cases t <;> simp [sdscmp]
  | cons a s ih =>
    cases t with
    | nil => simp [sdscmp]
    | cons b t =>
      rw [sdscmp, List.cons.injEq]
      split
      · next hlt => simp [hlt.ne]
      · next hnlt =>
        split
        · next hlt => simp [hlt.ne']
        · next hnlt' =>
          obtain rfl : a = b := le_antisymm (not_lt.mp hnlt') (not_lt.mp hnlt)
          simpa using ih t

/-- Against a string without NUL bytes, only what stands before the first NUL counts. -/
theorem lt_iff_sdsnew_lt {s t : Sds} (ht : NulFree t) : s < t ↔ sdsnew s < t := by
  induction s generalizing t with
  | nil => rfl
  | cons a s ih =>
    cases t with
    | nil => simp
    | cons b t =>
      have hb : b ≠ 0 := fun hb => ht (by simp [hb])
      have ht' : NulFree t := fun h => ht (List.mem_cons_of_mem b h)
      by_cases ha : a = 0
      · subst ha
        have hpos : 0 < b := Fin.pos_iff_ne_zero.mpr hb
        simp [sdsnew, List.cons_lt_cons_iff, hpos]
      · have hcons : sdsnew (a :: s) = a :: sdsnew s := by simp [sdsnew, ha]
        rw [hcons, List.cons_lt_cons_iff, List.cons_lt_cons_iff, ih ht']

end RemoveWin
