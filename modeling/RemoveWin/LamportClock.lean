import RemoveWin.Lib.Decimal
import RemoveWin.Sds

/-!
# Lamport clocks as tags

`lamport_clock.h`. A tag is a counter and the id of the replica that drew it. Tags travel, and in
the OR-Set are also stored, as text: the two numbers in decimal with a comma between them. The
counter is a C `int` in the source and unbounded here: results are about the source as long as no
counter passes `INT_MAX`.
-/

namespace RemoveWin

/-- `struct lamport_clock`. -/
structure Lc where
  /-- The counter. -/
  x : ℤ
  /-- The replica. -/
  id : ℤ
  deriving DecidableEq

/-- The separator. -/
def comma : Fin 256 := ⟨44, by decide⟩

/-- `lcToSds`. -/
def lcToSds (t : Lc) : Sds := Decimal.ofInt t.x ++ comma :: Decimal.ofInt t.id

/-- `sdsToLc`: `sscanf` with two numbers and a comma. What it stores for a text of another form
is of no concern here, since it is only handed texts that `lcToSds` wrote. -/
def sdsToLc (s : Sds) : Lc :=
  let (x, rest) := Decimal.readInt s
  ⟨x, (Decimal.readInt rest.tail).1⟩

theorem separated_comma (rest : Sds) : Decimal.Separated (comma :: rest) := by
  intro b hb
  obtain rfl : comma = b := by simpa using hb
  decide

@[simp] theorem sdsToLc_lcToSds (t : Lc) : sdsToLc (lcToSds t) = t := by
  rw [sdsToLc, lcToSds, Decimal.readInt_ofInt _ (separated_comma _)]
  have hid := Decimal.readInt_ofInt t.id Decimal.separated_nil
  rw [List.append_nil] at hid
  show Lc.mk t.x (Decimal.readInt (Decimal.ofInt t.id)).1 = t
  rw [hid]

theorem lcToSds_injective : Function.Injective lcToSds :=
  Function.LeftInverse.injective sdsToLc_lcToSds

theorem nulFree_lcToSds (t : Lc) : NulFree (lcToSds t) := by
  have hnum : ∀ i : ℤ, (0 : Fin 256) ∉ Decimal.ofInt i := by
    intro i h
    rcases Decimal.isDigit_or_minus_of_mem_ofInt h with h | h
    · exact absurd h (by decide)
    · exact absurd h (by decide)
  intro h
  rcases List.mem_append.mp h with h | h
  · exact hnum _ h
  · rcases List.mem_cons.mp h with h | h
    · exact absurd h (by decide)
    · exact hnum _ h

/-- `lc_cmp_as_tag`: by replica, then by counter. -/
def lcCmpAsTag (t₁ t₂ : Lc) : ℤ := if t₁.id ≠ t₂.id then t₁.id - t₂.id else t₁.x - t₂.x

/-- The text of a tag tells the replica that drew it and the value of its counter. -/
theorem eq_of_lcToSds_eq {N : ℕ} {r r' : Fin N} {c c' : ℤ}
    (h : lcToSds ⟨c, r.val⟩ = lcToSds ⟨c', r'.val⟩) : r = r' ∧ c = c' := by
  obtain ⟨hc, hid⟩ := Lc.mk.inj (lcToSds_injective h)
  exact ⟨Fin.ext (Int.ofNat.inj hid), hc⟩

/-- A tag in the order `lc_cmp_as_tag` compares by. -/
def Lc.key (t : Lc) : ℤ ×ₗ ℤ := toLex (t.id, t.x)

theorem Lc.key_injective : Function.Injective Lc.key := by
  rintro ⟨x, id⟩ ⟨x', id'⟩ h
  obtain ⟨rfl, rfl⟩ := Prod.mk.inj (toLex.injective h)
  rfl

theorem lcCmpAsTag_eq_zero_iff {t₁ t₂ : Lc} : lcCmpAsTag t₁ t₂ = 0 ↔ t₁ = t₂ := by
  rcases t₁ with ⟨x, id⟩
  rcases t₂ with ⟨x', id'⟩
  rw [lcCmpAsTag, Lc.mk.injEq]
  split
  · next h =>
    dsimp only at h ⊢
    omega
  · next h =>
    dsimp only at h ⊢
    omega

theorem lcCmpAsTag_neg_iff {t₁ t₂ : Lc} : lcCmpAsTag t₁ t₂ < 0 ↔ t₁.key < t₂.key := by
  rcases t₁ with ⟨x, id⟩
  rcases t₂ with ⟨x', id'⟩
  rw [lcCmpAsTag, Lc.key, Lc.key, Prod.Lex.toLex_lt_toLex]
  dsimp only
  split <;> omega

theorem lcCmpAsTag_nonpos_iff {t₁ t₂ : Lc} : lcCmpAsTag t₁ t₂ ≤ 0 ↔ t₁.key ≤ t₂.key := by
  rw [le_iff_lt_or_eq, lcCmpAsTag_neg_iff, lcCmpAsTag_eq_zero_iff, le_iff_lt_or_eq,
    Lc.key_injective.eq_iff]

end RemoveWin
