import RemoveWin.OzSet.Element

/-!
# The cached pointers and the stored score

`innate` is to point to the live entry with the greatest tag, `acquired` to the one with the
greatest count, and the sorted set is to hold the score the two add up to. The pointers are right
at the end of every effect, in the sense of `OzSorted`. An entry that only increments have touched
does not count for `innate`, and one that none has touched not for `acquired`.

The stored score is another matter. `resort` goes through all entries, also through one whose add
has not come yet, and may leave `innate` there. When the add then comes,
`update_innate_value` writes the value, finds `innate` in place, and reports no change. So the
stored score is only up to date (`Fresh`) as long as no add is applied to the entry that `innate`
points to.

## Main results

* `RemoveWin.OzOk.receive` — entries and pointers are right after every message
* `RemoveWin.shown_receive` — the element is in the sorted set if it has an entry
* `RemoveWin.fresh_receive` — the stored score stays up to date but for that case
* `RemoveWin.OzSorted.ozScore` — the pointers add up to the score of the live tags
-/

namespace RemoveWin

open Replicated

/-- Where the pointers point, after the items `M`. -/
structure OzSorted (M : List OzItem) (e : Oze) : Prop where
  /-- No live tag whose add has come is above `innate`. -/
  innate : ∀ t v, .add t v ∈ M → (e.asetGet t).isSome → ∃ i ∈ e.innate, t.key ≤ i.key
  /-- No entry that has been increased is above `acquired`. -/
  acquired : ∀ t a, e.asetGet t = some a → 0 < a.count →
    ∃ b ∈ e.acquired.bind e.asetGet, a.rank ≤ b.rank

section

variable {M M' : List OzItem} {i : OzItem} {e e' : Oze} {t u : Lc} {a : Ase} {v junk : ℚ}

theorem ozSorted_new : OzSorted [] ozeNew where
  innate t v h := by cases h
  acquired t a h := by cases h

/-! ### Adds -/

theorem exists_of_touch_setX (hget : (e.touch t junk (Oze.setX v)).asetGet u = some a)
    (hpos : 0 < a.count) : ∃ b, e.asetGet u = some b ∧ b.rank = a.rank ∧ 0 < b.count := by
  by_cases hu : u = t
  · subst hu
    rw [Oze.asetGet_touch_self (Oze.t_setX v)] at hget
    cases hget
    rw [Oze.aseOr] at hpos ⊢
    cases h : e.asetGet u with
    | none =>
      rw [h] at hpos
      exact absurd hpos (lt_irrefl _)
    | some b =>
      rw [h] at hpos
      exact ⟨b, rfl, rfl, hpos⟩
  · rw [Oze.asetGet_touch_of_ne (Oze.t_setX v) hu] at hget
    exact ⟨a, hget, rfl, hpos⟩

theorem exists_touch_setX (t : Lc) (v junk : ℚ) (hget : e.asetGet u = some a) :
    ∃ b, (e.touch t junk (Oze.setX v)).asetGet u = some b ∧ b.rank = a.rank ∧ b.inc = a.inc := by
  by_cases hu : u = t
  · subst hu
    refine ⟨_, Oze.asetGet_touch_self (Oze.t_setX v), ?_⟩
    rw [Oze.aseOr, hget]
    exact ⟨rfl, rfl⟩
  · exact ⟨a, by rw [Oze.asetGet_touch_of_ne (Oze.t_setX v) hu, hget], rfl, rfl⟩

theorem OzSorted.acquired_touch_setX (h : OzSorted M e) :
    ∀ u a, (e.touch t junk (Oze.setX v)).asetGet u = some a → 0 < a.count →
      ∃ b ∈ (e.touch t junk (Oze.setX v)).acquired.bind (e.touch t junk (Oze.setX v)).asetGet,
        a.rank ≤ b.rank := by
  intro u a ha hpos
  obtain ⟨a₀, ha₀, hrank, hpos₀⟩ := exists_of_touch_setX ha hpos
  obtain ⟨b₀, hb₀, hle⟩ := h.acquired u a₀ ha₀ hpos₀
  obtain ⟨w, hw, hb₀⟩ := Option.bind_eq_some_iff.mp hb₀
  obtain ⟨b, hb, hrank', -⟩ := exists_touch_setX t v junk hb₀
  refine ⟨b, Option.bind_eq_some_iff.mpr ⟨w, ?_, hb⟩, ?_⟩
  · rw [Oze.touch_eq]
    exact hw
  · rwa [hrank', ← hrank]

/-- **An add leaves the pointers right.** -/
theorem OzSorted.updateInnateValue (h : OzSorted M e) (hok : OzOk M e) :
    OzSorted (M ++ [.add t v]) (e.updateInnateValue t v junk).1 := by
  have hget : ∀ u, u ≠ t → (e.touch t junk (Oze.setX v)).asetGet u = e.asetGet u :=
    fun u hu => Oze.asetGet_touch_of_ne (Oze.t_setX v) hu
  have hmem : ∀ u w, u ≠ t → OzItem.add u w ∈ M ++ [.add t v] → OzItem.add u w ∈ M := by
    intro u w hu hw
    rcases List.mem_append.mp hw with hw | hw
    · exact hw
    · exact absurd (OzItem.add.inj (List.eq_of_mem_singleton hw)).1 hu
  obtain ⟨ht, heq⟩ | ⟨-, hlt, heq⟩ | ⟨-, hle, heq⟩ := e.updateInnateValue_cases t v junk
  · rw [heq]
    refine ⟨fun u w hw hu => ?_, h.acquired⟩
    have hne : u ≠ t := by
      rintro rfl
      rw [hok.asetGet_of_removed ht] at hu
      cases hu
    exact h.innate u w (hmem u w hne hw) hu
  · rw [heq]
    refine ⟨fun u w hw hu => ⟨t, rfl, ?_⟩, h.acquired_touch_setX⟩
    by_cases hne : u = t
    · rw [hne]
    · obtain ⟨i, hi, hle⟩ := h.innate u w (hmem u w hne hw) (hget u hne ▸ hu)
      exact hle.trans (hlt i hi).le
  · rw [heq]
    have hinnate : (e.touch t junk (Oze.setX v)).innate = e.innate := by rw [Oze.touch_eq]
    refine ⟨fun u w hw hu => ?_, h.acquired_touch_setX⟩
    rw [hinnate]
    by_cases hne : u = t
    · rwa [hne]
    · exact h.innate u w (hmem u w hne hw) (hget u hne ▸ hu)

/-! ### Increments -/

/-- **An increment of one tag leaves the pointers right.** -/
theorem OzSorted.updateAcquiredValue (h : OzSorted M e) (hok : OzOk M e) :
    OzSorted (M ++ [.incr t v]) (e.updateAcquiredValue t v junk).1 := by
  have hself : (e.touch t junk (Oze.bump v)).asetGet t = some (Oze.bump v (e.aseOr t junk)) :=
    Oze.asetGet_touch_self (Oze.t_bump v)
  have hget : ∀ u, u ≠ t → (e.touch t junk (Oze.bump v)).asetGet u = e.asetGet u :=
    fun u hu => Oze.asetGet_touch_of_ne (Oze.t_bump v) hu
  have hptr : (e.touch t junk (Oze.bump v)).innate = e.innate ∧
      (e.touch t junk (Oze.bump v)).acquired = e.acquired := by
    rw [Oze.touch_eq]
    exact ⟨rfl, rfl⟩
  have hmem : ∀ u w, OzItem.add u w ∈ M ++ [.incr t v] → OzItem.add u w ∈ M := by
    intro u w hw
    rcases List.mem_append.mp hw with hw | hw
    · exact hw
    · exact absurd (List.eq_of_mem_singleton hw) (by simp)
  have hinnate : t ∉ e.rset → ∀ u w, .add u w ∈ M ++ [.incr t v] →
      ((e.touch t junk (Oze.bump v)).asetGet u).isSome → ∃ i ∈ e.innate, u.key ≤ i.key := by
    intro ht u w hw hu
    refine h.innate u w (hmem u w hw) ?_
    by_cases hne : u = t
    · subst hne
      exact (hok.aset u).mpr ⟨⟨_, hmem u w hw, rfl, by simp⟩, (hok.rset u).not.mp ht⟩
    · exact hget u hne ▸ hu
  obtain ⟨-, heq⟩ | ⟨ht, hacq, heq⟩ | ⟨ht, -, hlt, heq⟩ | ⟨ht, hne, hle, heq⟩ :=
    e.updateAcquiredValue_cases t v junk
  · rw [heq]
    exact ⟨fun u w hw hu => h.innate u w (hmem u w hw) hu, h.acquired⟩
  · -- `acquired` is the entry itself, which grows
    rw [heq]
    refine ⟨by rw [hptr.1]; exact hinnate ht, fun u a ha hpos => ?_⟩
    rw [hptr.2, hacq]
    refine ⟨_, hself, ?_⟩
    by_cases hu : u = t
    · subst hu
      rw [hself] at ha
      rw [Option.some.inj ha]
    · rw [hget u hu] at ha
      obtain ⟨b, hb, hle⟩ := h.acquired u a ha hpos
      rw [hacq] at hb
      have hor : e.aseOr t junk = b := by
        rw [Oze.aseOr, show e.asetGet t = some b from hb, Option.getD_some]
      rw [hor]
      exact hle.trans (Oze.rank_le_bump v b)
  · rw [heq]
    refine ⟨by rw [hptr.1]; exact hinnate ht, fun u a ha hpos => ⟨_, hself, ?_⟩⟩
    by_cases hu : u = t
    · subst hu
      have := hself.symm.trans ha
      rw [Option.some.inj this]
    · obtain ⟨b, hb, hle⟩ := h.acquired u a ((hget u hu).symm.trans ha) hpos
      exact hle.trans (hlt b hb).le
  · rw [heq]
    have hbind : (e.touch t junk (Oze.bump v)).acquired.bind (e.touch t junk (Oze.bump v)).asetGet =
        e.acquired.bind e.asetGet := by
      rw [hptr.2]
      cases hw : e.acquired with
      | none => rfl
      | some w => exact hget w fun heq => hne (by rw [hw, heq])
    refine ⟨by rw [hptr.1]; exact hinnate ht, fun u a ha hpos => ?_⟩
    rw [hbind]
    by_cases hu : u = t
    · subst hu
      rw [hself] at ha
      rwa [← Option.some.inj ha]
    · exact h.acquired u a (hget u hu ▸ ha) hpos

/-! ### Removes -/

/-- Entries may be gone from `e'`, and pointers with them. -/
structure Shrinks (e e' : Oze) : Prop where
  aset : ∀ t a, e'.asetGet t = some a → e.asetGet t = some a
  innate : e'.innate = e.innate ∨ e'.innate = none
  acquired : e'.acquired = e.acquired ∨ e'.acquired = none

theorem Shrinks.refl (e : Oze) : Shrinks e e := ⟨fun _ _ => id, .inl rfl, .inl rfl⟩

theorem Shrinks.trans {e'' : Oze} (h : Shrinks e e') (h' : Shrinks e' e'') : Shrinks e e'' where
  aset t a ha := h.aset t a (h'.aset t a ha)
  innate := by
    rcases h'.innate with h' | h'
    · exact h' ▸ h.innate
    · exact .inr h'
  acquired := by
    rcases h'.acquired with h' | h'
    · exact h' ▸ h.acquired
    · exact .inr h'

theorem shrinks_removeTag (hok : OzOk M e) (t : Lc) : Shrinks e (e.removeTag t) := by
  by_cases ht : t ∈ e.rset
  · rw [Oze.removeTag, if_pos (Oze.rsetGet_iff.mpr ht)]
    exact .refl e
  refine ⟨fun u a ha => ?_, ?_, ?_⟩
  · rw [Oze.asetGet_removeTag hok.nodup ht] at ha
    split at ha
    · cases ha
    · exact ha
  · rw [Oze.removeTag, if_neg (by rwa [Oze.rsetGet_iff])]
    dsimp only
    split
    · exact .inr rfl
    · exact .inl rfl
  · rw [Oze.removeTag, if_neg (by rwa [Oze.rsetGet_iff])]
    dsimp only
    split
    · exact .inr rfl
    · exact .inl rfl

/-- The loop of `ozremCommand`. -/
theorem OzOk.removeTags (h : OzOk M e) (ts : List Lc) :
    OzOk (M ++ ts.map OzItem.rem) (ts.foldl Oze.removeTag e) ∧
      Shrinks e (ts.foldl Oze.removeTag e) := by
  induction ts generalizing M e with
  | nil => exact ⟨by simpa using h, .refl e⟩
  | cons t ts ih =>
    obtain ⟨hok, hsh⟩ := ih h.removeTag
    refine ⟨by simpa using hok, (shrinks_removeTag h t).trans hsh⟩

theorem Shrinks.bind_acquired (hs : Shrinks e e') (hok : OzOk M e') (hptr : e'.acquired ≠ none) :
    e'.acquired.bind e'.asetGet = e.acquired.bind e.asetGet := by
  have hacq : e'.acquired = e.acquired := hs.acquired.resolve_right hptr
  rw [← hacq]
  cases hw : e'.acquired with
  | none => rfl
  | some w =>
    obtain ⟨b, hb⟩ := Option.isSome_iff_exists.mp (hok.acquired w hw)
    show e'.asetGet w = e.asetGet w
    rw [hb, hs.aset w b hb]

theorem Shrinks.bind_innate (hs : Shrinks e e') (hok : OzOk M e') (hptr : e'.innate ≠ none) :
    e'.innate.bind e'.asetGet = e.innate.bind e.asetGet := by
  have hinn : e'.innate = e.innate := hs.innate.resolve_right hptr
  rw [← hinn]
  cases hw : e'.innate with
  | none => rfl
  | some w =>
    obtain ⟨b, hb⟩ := Option.isSome_iff_exists.mp (hok.innate w hw)
    show e'.asetGet w = e.asetGet w
    rw [hb, hs.aset w b hb]

theorem OzSorted.shrink (h : OzSorted M e) (hs : Shrinks e e') (hok : OzOk M' e')
    (hM : ∀ t v, OzItem.add t v ∈ M' → .add t v ∈ M) (hi : e'.innate ≠ none)
    (ha : e'.acquired ≠ none) : OzSorted M' e' where
  innate t v hv ht := by
    obtain ⟨a, hget⟩ := Option.isSome_iff_exists.mp ht
    rw [hs.innate.resolve_right hi]
    exact h.innate t v (hM t v hv) (Option.isSome_of_eq_some (hs.aset t a hget))
  acquired t a hget hpos := by
    rw [hs.bind_acquired hok ha]
    exact h.acquired t a (hs.aset t a hget) hpos

/-! ### Resorting -/

/-- Both pointers are at least at an entry. -/
structure Covers (e : Oze) (a : Ase) : Prop where
  /-- `innate`, by tag. -/
  innate : ∃ i ∈ e.innate, a.t.key ≤ i.key
  /-- `acquired`, by rank. -/
  acquired : ∃ b ∈ e.acquired.bind e.asetGet, a.rank ≤ b.rank

theorem covers_resortRound (hok : OzOk M e) (ha : a ∈ e.aset) :
    Covers (e.resortRound a) a ∧ ∀ b, Covers e b → Covers (e.resortRound a) b := by
  have hget : e.asetGet a.t = some a := Oze.asetGet_of_mem hok.nodup ha
  have hbind : ∀ o : Option Lc, o.bind (e.resortRound a).asetGet = o.bind e.asetGet :=
    fun o => rfl
  have hinnate : ∀ k, (k ≤ a.t.key ∨ ∃ i ∈ e.innate, k ≤ i.key) →
      ∃ i ∈ (e.resortRound a).innate, k ≤ i.key := by
    intro k hk
    show ∃ i ∈ (if e.innateBelow a then some a.t else e.innate), _
    split
    · next hb =>
      refine ⟨a.t, rfl, ?_⟩
      rcases hk with hk | ⟨i, hi, hk⟩
      · exact hk
      · exact hk.trans (Oze.innateBelow_iff.mp hb i hi).le
    · next hb =>
      rw [Oze.innateBelow_iff] at hb
      push Not at hb
      obtain ⟨i, hi, hle⟩ := hb
      rcases hk with hk | hk
      · exact ⟨i, hi, hk.trans hle⟩
      · exact hk
  have hacquired : ∀ k, (k ≤ a.rank ∨ ∃ b ∈ e.acquired.bind e.asetGet, k ≤ b.rank) →
      ∃ b ∈ (e.resortRound a).acquired.bind (e.resortRound a).asetGet, k ≤ b.rank := by
    intro k hk
    rw [hbind]
    show ∃ b ∈ (if e.acquiredBelow a then some a.t else e.acquired).bind e.asetGet, _
    split
    · next hb =>
      refine ⟨a, hget, ?_⟩
      rcases hk with hk | ⟨b, hb', hk⟩
      · exact hk
      · exact hk.trans (Oze.acquiredBelow_iff.mp hb b hb').le
    · next hb =>
      rw [Oze.acquiredBelow_iff] at hb
      push Not at hb
      obtain ⟨b, hb', hle⟩ := hb
      rcases hk with hk | hk
      · exact ⟨b, hb', hk.trans hle⟩
      · exact hk
  exact ⟨⟨hinnate _ (.inl le_rfl), hacquired _ (.inl le_rfl)⟩, fun b hb =>
    ⟨hinnate _ (.inr hb.innate), hacquired _ (.inr hb.acquired)⟩⟩

theorem OzOk.resortRound (h : OzOk M e) (ha : a ∈ e.aset) : OzOk M (e.resortRound a) := by
  have hget : (e.asetGet a.t).isSome := by rw [Oze.asetGet_of_mem h.nodup ha]; rfl
  refine ⟨h.nodup, h.rset, h.aset, h.entry, fun u hu => ?_, fun u hu => ?_⟩
  · change u ∈ (if e.innateBelow a then some a.t else e.innate) at hu
    split at hu
    · cases hu
      exact hget
    · exact h.innate u hu
  · change u ∈ (if e.acquiredBelow a then some a.t else e.acquired) at hu
    split at hu
    · cases hu
      exact hget
    · exact h.acquired u hu

/-- The loop of `resort` covers every entry. -/
theorem covers_foldl (hok : OzOk M e) :
    OzOk M (e.aset.foldl Oze.resortRound e) ∧
      (e.aset.foldl Oze.resortRound e).aset = e.aset ∧
      ∀ a ∈ e.aset, Covers (e.aset.foldl Oze.resortRound e) a := by
  refine foldl_received (L := []) (P := fun (L : List Ase) (e' : Oze) =>
    OzOk M e' ∧ e'.aset = e.aset ∧ ∀ a ∈ L, Covers e' a) ⟨hok, rfl, by simp⟩ ?_
  rintro L e' a ha ⟨hok', haset, hcov⟩
  rw [← haset] at ha
  obtain ⟨hself, hrest⟩ := covers_resortRound hok' ha
  refine ⟨hok'.resortRound ha, haset, fun b hb => ?_⟩
  rcases List.mem_append.mp hb with hb | hb
  · exact hrest b (hcov b hb)
  · obtain rfl := List.eq_of_mem_singleton hb
    exact hself

/-- **`resort` rebuilds the pointers from nothing.** -/
theorem ozSorted_foldl (hok : OzOk M e) : OzSorted M (e.aset.foldl Oze.resortRound e) := by
  obtain ⟨hok', haset, hcov⟩ := covers_foldl hok
  refine ⟨fun t v _ ht => ?_, fun t a ha _ => ?_⟩
  · obtain ⟨a, ha⟩ := Option.isSome_iff_exists.mp ht
    have hmem := Oze.mem_of_asetGet ha
    rw [haset] at hmem
    rw [← Oze.t_of_asetGet ha]
    exact (hcov a hmem).innate
  · have hmem := Oze.mem_of_asetGet ha
    rw [haset] at hmem
    exact (hcov a hmem).acquired

theorem Oze.resort_of_none (h : e.innate = none ∨ e.acquired = none) :
    e.resort = e.aset.foldl resortRound e := by
  rw [resort, if_neg]
  rcases h with h | h <;> simp [h]

theorem Oze.resort_of_some (h : ¬ (e.innate = none ∨ e.acquired = none)) : e.resort = e := by
  rw [resort, if_pos]
  rw [not_or] at h
  rw [Bool.and_eq_true, Option.isSome_iff_ne_none, Option.isSome_iff_ne_none]
  exact h

theorem OzOk.resort (h : OzOk M e) : OzOk M e.resort := by
  by_cases hn : e.innate = none ∨ e.acquired = none
  · rw [Oze.resort_of_none hn]
    exact (covers_foldl h).1
  · rwa [Oze.resort_of_some hn]

/-! ### Scores -/

theorem Oze.lookup_touch (e : Oze) (t : Lc) (junk : ℚ) {f : Ase → Ase} (hf : ∀ a, (f a).t = a.t) :
    (e.touch t junk f).Lookup := by
  refine lookup_iff_exists.mpr ⟨t, ?_⟩
  rw [asetGet_touch_self hf]
  rfl

theorem OzOk.lookup_of_innate (h : OzOk M e) (ht : t ∈ e.innate) : e.Lookup :=
  Oze.lookup_iff_exists.mpr ⟨t, h.innate t ht⟩

theorem OzOk.lookup_of_acquired (h : OzOk M e) (hne : e.acquired ≠ none) : e.Lookup := by
  obtain ⟨t, ht⟩ := Option.ne_none_iff_exists'.mp hne
  exact Oze.lookup_iff_exists.mpr ⟨t, h.acquired t ht⟩

/-- Writing a value changes the score only if `innate` points there. -/
theorem OzOk.score_touch_setX (h : OzOk M e) (hne : e.innate ≠ some t) :
    (e.touch t junk (Oze.setX v)).score = e.score := by
  have hx : e.innate.bind (e.touch t junk (Oze.setX v)).asetGet = e.innate.bind e.asetGet := by
    cases hi : e.innate with
    | none => rfl
    | some i => exact Oze.asetGet_touch_of_ne (Oze.t_setX v) fun hit => hne (by rw [hi, hit])
  have hinc : (e.acquired.bind (e.touch t junk (Oze.setX v)).asetGet).map Ase.inc =
      (e.acquired.bind e.asetGet).map Ase.inc := by
    cases hi : e.acquired with
    | none => rfl
    | some i =>
      obtain ⟨a, ha⟩ := Option.isSome_iff_exists.mp (h.acquired i hi)
      obtain ⟨b, hb, -, heq⟩ := exists_touch_setX t v junk ha
      show (Oze.asetGet _ i).map Ase.inc = (e.asetGet i).map Ase.inc
      rw [hb, ha, Option.map_some, heq, Option.map_some]
  rw [Oze.score, Oze.score, Oze.touch_eq]
  show ((e.innate.bind (e.touch t junk (Oze.setX v)).asetGet).map Ase.x).getD 0 +
    ((e.acquired.bind (e.touch t junk (Oze.setX v)).asetGet).map Ase.inc).getD 0 = _
  rw [hx, hinc]

/-- Adding to the sums of an entry changes the score only if `acquired` points there. -/
theorem OzOk.score_touch_bump (h : OzOk M e) (hne : e.acquired ≠ some t) :
    (e.touch t junk (Oze.bump v)).score = e.score := by
  have hinc : e.acquired.bind (e.touch t junk (Oze.bump v)).asetGet =
      e.acquired.bind e.asetGet := by
    cases hi : e.acquired with
    | none => rfl
    | some i => exact Oze.asetGet_touch_of_ne (Oze.t_bump v) fun hit => hne (by rw [hi, hit])
  have hx : (e.innate.bind (e.touch t junk (Oze.bump v)).asetGet).map Ase.x =
      (e.innate.bind e.asetGet).map Ase.x := by
    cases hi : e.innate with
    | none => rfl
    | some i =>
      obtain ⟨a, ha⟩ := Option.isSome_iff_exists.mp (h.innate i hi)
      show (Oze.asetGet _ i).map Ase.x = (e.asetGet i).map Ase.x
      by_cases hit : i = t
      · subst hit
        rw [Oze.asetGet_touch_self (Oze.t_bump v), Oze.aseOr, ha]
        rfl
      · rw [Oze.asetGet_touch_of_ne (Oze.t_bump v) hit]
  rw [Oze.score, Oze.score, Oze.touch_eq]
  show ((e.innate.bind (e.touch t junk (Oze.bump v)).asetGet).map Ase.x).getD 0 +
    ((e.acquired.bind (e.touch t junk (Oze.bump v)).asetGet).map Ase.inc).getD 0 = _
  rw [hx, hinc]

/-- What the return value of a helper tells about the element it leaves. -/
structure Reports (e : Oze) (p : Oze × Bool) : Prop where
  changed : p.2 = true → p.1.Lookup
  present : p.2 = false → (p.1.Lookup ↔ e.Lookup)

/-- Without a change reported the score is the same. -/
def Quiet (e : Oze) (p : Oze × Bool) : Prop := p.2 = false → p.1.score = e.score

theorem Reports.lookup {p : Oze × Bool} (h : Reports e p) (he : e.Lookup) : p.1.Lookup := by
  cases hp : p.2 with
  | true => exact h.changed hp
  | false => exact (h.present hp).mpr he

theorem OzOk.reports_updateInnateValue (h : OzOk M e) (t : Lc) (v junk : ℚ) :
    Reports e (e.updateInnateValue t v junk) := by
  obtain ⟨-, heq⟩ | ⟨-, -, heq⟩ | ⟨-, ⟨i, hi, -⟩, heq⟩ := e.updateInnateValue_cases t v junk
  · rw [heq]
    exact ⟨nofun, fun _ => Iff.rfl⟩
  · rw [heq]
    exact ⟨fun _ => e.lookup_touch t junk (Oze.t_setX v), nofun⟩
  · rw [heq]
    exact ⟨nofun, fun _ => iff_of_true (e.lookup_touch t junk (Oze.t_setX v))
      (h.lookup_of_innate hi)⟩

/-- `update_innate_value` may keep silent about a change of the score, but only if `innate` pointed
to the entry before. -/
theorem OzOk.quiet_updateInnateValue (h : OzOk M e) (v junk : ℚ) (hne : e.innate ≠ some t) :
    Quiet e (e.updateInnateValue t v junk) := by
  obtain ⟨-, heq⟩ | ⟨-, -, heq⟩ | ⟨-, -, heq⟩ := e.updateInnateValue_cases t v junk
  · rw [heq]
    exact fun _ => rfl
  · rw [heq]
    exact nofun
  · rw [heq]
    exact fun _ => h.score_touch_setX hne

theorem OzOk.reports_updateAcquiredValue (h : OzOk M e) (t : Lc) (v junk : ℚ) :
    Reports e (e.updateAcquiredValue t v junk) ∧ Quiet e (e.updateAcquiredValue t v junk) := by
  obtain ⟨-, heq⟩ | ⟨-, -, heq⟩ | ⟨-, -, -, heq⟩ | ⟨-, hne, ⟨b, hb, -⟩, heq⟩ :=
    e.updateAcquiredValue_cases t v junk
  · rw [heq]
    exact ⟨⟨nofun, fun _ => Iff.rfl⟩, fun _ => rfl⟩
  · rw [heq]
    exact ⟨⟨fun _ => e.lookup_touch t junk (Oze.t_bump v), nofun⟩, nofun⟩
  · rw [heq]
    exact ⟨⟨fun _ => e.lookup_touch t junk (Oze.t_bump v), nofun⟩, nofun⟩
  · rw [heq]
    have hsome : e.acquired ≠ none := by
      intro hnone
      rw [hnone] at hb
      cases hb
    exact ⟨⟨nofun, fun _ => iff_of_true (e.lookup_touch t junk (Oze.t_bump v))
      (h.lookup_of_acquired hsome)⟩, fun _ => h.score_touch_bump hne⟩

theorem Oze.increase_nil (junk : Lc → ℚ) (v : ℚ) (e : Oze) : e.increase junk v [] = (e, false) :=
  rfl

theorem Oze.increase_cons (junk : Lc → ℚ) (v : ℚ) (t : Lc) (ts : List Lc) (e : Oze) :
    e.increase junk v (t :: ts) =
      (((e.updateAcquiredValue t v (junk t)).1.increase junk v ts).1,
        (e.updateAcquiredValue t v (junk t)).2 ||
          ((e.updateAcquiredValue t v (junk t)).1.increase junk v ts).2) := rfl

/-- The loop of `ozincrbyCommand`: entries and pointers. -/
theorem OzOk.increase (junk : Lc → ℚ) (v : ℚ) (ts : List Lc) (h : OzOk M e) (hs : OzSorted M e) :
    OzOk (M ++ ts.map (.incr · v)) (e.increase junk v ts).1 ∧
      OzSorted (M ++ ts.map (.incr · v)) (e.increase junk v ts).1 := by
  induction ts generalizing M e with
  | nil =>
    rw [Oze.increase_nil, List.map_nil, List.append_nil]
    exact ⟨h, hs⟩
  | cons t ts ih =>
    rw [Oze.increase_cons, List.map_cons, ← List.singleton_append, ← List.append_assoc]
    exact ih h.updateAcquiredValue (hs.updateAcquiredValue h)

/-- The loop of `ozincrbyCommand`: what it reports. -/
theorem OzOk.reports_increase (junk : Lc → ℚ) (v : ℚ) (ts : List Lc) (h : OzOk M e) :
    Reports e (e.increase junk v ts) ∧ Quiet e (e.increase junk v ts) := by
  induction ts generalizing M e with
  | nil => exact ⟨⟨nofun, fun _ => Iff.rfl⟩, fun _ => rfl⟩
  | cons t ts ih =>
    obtain ⟨hrep, hquiet⟩ := h.reports_updateAcquiredValue t v (junk t)
    obtain ⟨hrep', hquiet'⟩ := ih (e := (e.updateAcquiredValue t v (junk t)).1)
      h.updateAcquiredValue
    rw [Oze.increase_cons]
    refine ⟨⟨fun hc => ?_, fun hc => ?_⟩, fun hc => ?_⟩
    · rw [Bool.or_eq_true] at hc
      rcases hc with hc | hc
      · exact hrep'.lookup (hrep.changed hc)
      · exact hrep'.changed hc
    · rw [Bool.or_eq_false_iff] at hc
      exact (hrep'.present hc.2).trans (hrep.present hc.1)
    · rw [Bool.or_eq_false_iff] at hc
      exact (hquiet' hc.2).trans (hquiet hc.1)

/-! ### Messages -/

/-- What a message says about each tag it carries. -/
def OzOp.items : OzOp → List OzItem
  | .add v tag => [.add (sdsToLc tag) v]
  | .incrby v tags => (tags.map sdsToLc).map (.incr · v)
  | .rem tags => (tags.map sdsToLc).map .rem

/-- What an effect leaves of an element. -/
def Oze.receive (junk : Lc → ℚ) (e : Oze) : OzOp → Oze
  | .add v tag => (e.updateInnateValue (sdsToLc tag) v (junk (sdsToLc tag))).1
  | .incrby v tags => (e.increase junk v (tags.map sdsToLc)).1
  | .rem tags => ((tags.map sdsToLc).foldl Oze.removeTag e).resort

/-- What an effect leaves of the score of an element in the sorted set. -/
def Oze.receiveScore (junk : Lc → ℚ) (e : Oze) (score : Option ℚ) : OzOp → Option ℚ
  | .add v tag =>
    if (e.updateInnateValue (sdsToLc tag) v (junk (sdsToLc tag))).2 then
      some (e.receive junk (.add v tag)).score
    else score
  | .incrby v tags =>
    if (e.increase junk v (tags.map sdsToLc)).2 then some (e.receive junk (.incrby v tags)).score
    else score
  | .rem tags =>
    let e' := (tags.map sdsToLc).foldl Oze.removeTag e
    if e'.innate.isNone || e'.acquired.isNone then
      if e'.resort.Lookup then some e'.resort.score else none
    else score

/-- The element is in the sorted set if it has an entry. -/
def Shown (e : Oze) (score : Option ℚ) : Prop := score.isSome ↔ e.Lookup

/-- The stored score is up to date. -/
def Fresh (e : Oze) (score : Option ℚ) : Prop := e.Lookup → score = some e.score

/-- An add does not find `innate` at its own entry already. -/
def OzOp.Clear (op : OzOp) (e : Oze) : Prop :=
  match op with
  | .add _ tag => e.innate ≠ some (sdsToLc tag)
  | _ => True

instance (op : OzOp) (e : Oze) : Decidable (op.Clear e) :=
  match op with
  | .add _ tag => inferInstanceAs (Decidable (e.innate ≠ some (sdsToLc tag)))
  | .incrby _ _ => inferInstanceAs (Decidable True)
  | .rem _ => inferInstanceAs (Decidable True)

variable {score : Option ℚ} {op : OzOp} {junks : Lc → ℚ}

/-- **Entries and pointers, message by message.** -/
theorem OzOk.receive (junks : Lc → ℚ) (op : OzOp) (h : OzOk M e) (hs : OzSorted M e)
    (hfresh : ∀ v tag, op = .add v tag → ∀ w, .add (sdsToLc tag) w ∉ M) :
    OzOk (M ++ op.items) (e.receive junks op) ∧ OzSorted (M ++ op.items) (e.receive junks op) := by
  cases op with
  | add v tag => exact ⟨h.updateInnateValue (hfresh v tag rfl), hs.updateInnateValue h⟩
  | incrby v tags => exact h.increase junks v (tags.map sdsToLc) hs
  | rem tags =>
    obtain ⟨hok, hsh⟩ := h.removeTags (tags.map sdsToLc)
    refine ⟨hok.resort, ?_⟩
    show OzSorted _ (Oze.resort _)
    by_cases hn : ((tags.map sdsToLc).foldl Oze.removeTag e).innate = none ∨
        ((tags.map sdsToLc).foldl Oze.removeTag e).acquired = none
    · rw [Oze.resort_of_none hn]
      exact ozSorted_foldl hok
    · rw [Oze.resort_of_some hn]
      rw [not_or] at hn
      refine hs.shrink hsh hok (fun t v hv => ?_) hn.1 hn.2
      simpa [OzOp.items] using hv

theorem shown_of_reports {p : Oze × Bool} (h : Reports e p) (hs : Shown e score) :
    Shown p.1 (if p.2 then some p.1.score else score) := by
  rw [Shown] at hs ⊢
  cases hp : p.2 with
  | true => exact iff_of_true rfl (h.changed hp)
  | false => exact hs.trans (h.present hp).symm

theorem fresh_of_reports {p : Oze × Bool} (h : Reports e p) (hq : Quiet e p)
    (hf : Fresh e score) : Fresh p.1 (if p.2 then some p.1.score else score) := by
  intro hl
  cases hp : p.2 with
  | true => rfl
  | false =>
    rw [hq hp]
    exact hf ((h.present hp).mp hl)

/-- If a remove leaves both pointers, there were entries and there still are, and the score is the
same. -/
theorem Shrinks.kept (hs : Shrinks e e') (hok : OzOk M e')
    (hn : ¬ (e'.innate = none ∨ e'.acquired = none)) :
    e'.Lookup ∧ e.Lookup ∧ e'.score = e.score := by
  rw [not_or] at hn
  obtain ⟨t, ht⟩ := Option.ne_none_iff_exists'.mp hn.1
  obtain ⟨a, ha⟩ := Option.isSome_iff_exists.mp (hok.innate t ht)
  refine ⟨hok.lookup_of_innate ht, ?_, ?_⟩
  · exact Oze.lookup_iff_exists.mpr ⟨t, Option.isSome_of_eq_some (hs.aset t a ha)⟩
  · rw [Oze.score, Oze.score, hs.bind_innate hok hn.1, hs.bind_acquired hok hn.2]

/-- **The element is in the sorted set if it has an entry**, message by message. -/
theorem shown_receive (hok : OzOk M e) (hs : Shown e score) :
    Shown (e.receive junks op) (e.receiveScore junks score op) := by
  cases op with
  | add v tag => exact shown_of_reports (hok.reports_updateInnateValue _ v _) hs
  | incrby v tags => exact shown_of_reports (hok.reports_increase junks v _).1 hs
  | rem tags =>
    obtain ⟨hok', hsh⟩ := hok.removeTags (tags.map sdsToLc)
    rw [Oze.receive, Oze.receiveScore]
    simp only [Bool.or_eq_true, Option.isNone_iff_eq_none]
    split
    · rw [Shown]
      split
      · next hl => exact iff_of_true rfl hl
      · next hl => exact iff_of_false (by simp) hl
    · next hn =>
      obtain ⟨hl', hl, -⟩ := hsh.kept hok' hn
      rw [Oze.resort_of_some hn]
      exact iff_of_true (hs.mpr hl) hl'

/-- **The stored score stays up to date**, unless an add finds `innate` at its entry. -/
theorem fresh_receive (hok : OzOk M e) (hf : Fresh e score) (hclear : op.Clear e) :
    Fresh (e.receive junks op) (e.receiveScore junks score op) := by
  cases op with
  | add v tag =>
    exact fresh_of_reports (hok.reports_updateInnateValue _ v _)
      (hok.quiet_updateInnateValue v _ hclear) hf
  | incrby v tags =>
    obtain ⟨hrep, hquiet⟩ := hok.reports_increase junks v (tags.map sdsToLc)
    exact fresh_of_reports hrep hquiet hf
  | rem tags =>
    obtain ⟨hok', hsh⟩ := hok.removeTags (tags.map sdsToLc)
    rw [Oze.receive, Oze.receiveScore]
    simp only [Bool.or_eq_true, Option.isNone_iff_eq_none]
    intro hl
    split
    · rfl
    · next hn =>
      obtain ⟨-, hl', hscore⟩ := hsh.kept hok' hn
      rw [Oze.resort_of_some hn, hscore]
      exact hf hl'

/-! ### The score of the live tags -/

/-- The tag was added and never removed. -/
def LiveTag (M : List OzItem) (t : Lc) : Prop := (∃ v, .add t v ∈ M) ∧ .rem t ∉ M

/-- The score an element should have: the value of the greatest live tag plus the increments of the
live tag with the greatest count. -/
def OzScore (M : List OzItem) (q : ℚ) : Prop :=
  ∃ i v a, LiveTag M i ∧ (∀ t, LiveTag M t → lcCmpAsTag t i ≤ 0) ∧ .add i v ∈ M ∧
    LiveTag M a ∧ (∀ t, LiveTag M t → countSum M t < countSum M a ∨
      (countSum M t = countSum M a ∧ lcCmpAsTag t a ≤ 0)) ∧ q = v + incSum M a

theorem liveTag_perm (h : M.Perm M') : LiveTag M t ↔ LiveTag M' t := by
  simp only [LiveTag, h.mem_iff]

theorem OzScore.perm {q : ℚ} (h : M.Perm M') (hq : OzScore M q) : OzScore M' q := by
  have hcount : ∀ t, countSum M t = countSum M' t := fun t => (h.map _).sum_eq
  have hinc : ∀ t, incSum M t = incSum M' t := fun t => (h.map _).sum_eq
  simpa only [OzScore, liveTag_perm h, h.mem_iff, hcount, hinc] using hq

theorem lcCmpAsTag_antisymm {t u : Lc} (h : lcCmpAsTag t u ≤ 0) (h' : lcCmpAsTag u t ≤ 0) :
    t = u := by
  rw [lcCmpAsTag_nonpos_iff] at h h'
  exact Lc.key_injective (le_antisymm h h')

theorem OzScore.unique {q q' : ℚ} (h : OzScore M q) (h' : OzScore M q')
    (hval : ∀ t v v', .add t v ∈ M → .add t v' ∈ M → v = v') : q = q' := by
  obtain ⟨i, v, a, hi, hmax, hv, ha, hcnt, rfl⟩ := h
  obtain ⟨i', v', a', hi', hmax', hv', ha', hcnt', rfl⟩ := h'
  obtain rfl := lcCmpAsTag_antisymm (hmax' i hi) (hmax i' hi')
  obtain rfl : a = a' := by
    rcases hcnt' a ha with hlt | ⟨-, hle⟩
    · rcases hcnt a' ha' with hlt' | ⟨heq, -⟩
      · exact absurd hlt (not_lt.mpr hlt'.le)
      · exact absurd heq (ne_of_gt hlt)
    · rcases hcnt a' ha' with hlt' | ⟨-, hle'⟩
      · rcases hcnt' a ha with hlt | ⟨heq, -⟩
        · exact absurd hlt (not_lt.mpr hlt'.le)
        · exact absurd heq (ne_of_gt hlt')
      · exact lcCmpAsTag_antisymm hle hle'
  rw [hval i v v' hv hv']

section

variable (h : OzOk M e) (hadded : ∀ i ∈ M, ∃ v, .add i.tag v ∈ M)
include h hadded

/-- If whatever is mentioned was added, the tags with an entry are the live ones. -/
theorem OzOk.isSome_iff_live : (e.asetGet t).isSome ↔ LiveTag M t := by
  rw [h.aset, LiveTag]
  refine and_congr_left fun _ => ⟨?_, ?_⟩
  · rintro ⟨i, hi, rfl, -⟩
    exact hadded i hi
  · rintro ⟨v, hv⟩
    exact ⟨_, hv, rfl, by simp⟩

theorem OzOk.lookup_iff_live : e.Lookup ↔ ∃ t, LiveTag M t := by
  simp only [Oze.lookup_iff_exists, h.isSome_iff_live hadded]

omit hadded in
/-- The increments that `acquired` contributes are those of any entry of greatest rank. -/
theorem OzSorted.inc_of_max (hs : OzSorted M e) (ha : a ∈ e.aset)
    (hmax : ∀ b ∈ e.aset, b.rank ≤ a.rank) :
    ((e.acquired.bind e.asetGet).map Ase.inc).getD 0 = a.inc := by
  by_cases hpos : 0 < a.count
  · obtain ⟨b, hb, hle⟩ := hs.acquired a.t a (Oze.asetGet_of_mem h.nodup ha) hpos
    obtain ⟨w, -, hget⟩ := Option.bind_eq_some_iff.mp hb
    have hmem := Oze.mem_of_asetGet hget
    have hrank : a.rank = b.rank := le_antisymm hle (hmax b hmem)
    have htag : a.t = b.t := Lc.key_injective (Prod.mk.inj (toLex.injective hrank)).2
    rw [List.inj_on_of_nodup_map h.nodup ha hmem htag, hb]
    rfl
  · -- nothing was increased, so it does not matter where `acquired` points
    have hzero : ∀ b ∈ e.aset, b.inc = 0 := by
      intro b hb
      have hentry := h.entry b.t b (Oze.asetGet_of_mem h.nodup hb)
      have hcount : b.count ≤ 0 := by
        rcases Prod.Lex.toLex_le_toLex.mp (hmax b hb) with hlt | ⟨heq, -⟩
        · exact hlt.le.trans (not_lt.mp hpos)
        · exact heq.le.trans (not_lt.mp hpos)
      have habs := abs_incSum_le M b.t
      rw [← hentry.inc, ← hentry.count] at habs
      exact abs_nonpos_iff.mp (habs.trans hcount)
    rw [hzero a ha]
    cases hb : e.acquired.bind e.asetGet with
    | none => rfl
    | some b =>
      obtain ⟨w, -, hget⟩ := Option.bind_eq_some_iff.mp hb
      exact hzero b (Oze.mem_of_asetGet hget)

/-- **The cached pointers add up to the score of the live tags.** -/
theorem OzSorted.ozScore (hs : OzSorted M e) (hl : e.Lookup) : OzScore M e.score := by
  have hlive : ∀ {t}, (e.asetGet t).isSome ↔ LiveTag M t := h.isSome_iff_live hadded
  have hinnate : ∀ t, LiveTag M t → ∃ i ∈ e.innate, t.key ≤ i.key := by
    intro t ht
    obtain ⟨v, hv⟩ := ht.1
    exact hs.innate t v hv (hlive.mpr ht)
  obtain ⟨t₀, ht₀⟩ := (h.lookup_iff_live hadded).mp hl
  obtain ⟨i, hi, -⟩ := hinnate t₀ ht₀
  obtain ⟨b, hb⟩ := Option.isSome_iff_exists.mp (h.innate i hi)
  have hi' : LiveTag M i := hlive.mp (h.innate i hi)
  obtain ⟨v, hv⟩ := hi'.1
  obtain ⟨a, ha, hmax⟩ := Set.exists_max_image {a | a ∈ e.aset} Ase.rank (List.finite_toSet _)
    (List.exists_mem_of_ne_nil _ (Oze.lookup_iff.mp hl))
  have hget := Oze.asetGet_of_mem h.nodup ha
  refine ⟨i, v, a.t, hi', fun t ht => ?_, hv, hlive.mp (Option.isSome_of_eq_some hget),
    fun t ht => ?_, ?_⟩
  · obtain ⟨j, hj, hle⟩ := hinnate t ht
    obtain rfl : j = i := Option.some.inj (hj.symm.trans hi)
    exact lcCmpAsTag_nonpos_iff.mpr hle
  · obtain ⟨c, hc⟩ := Option.isSome_iff_exists.mp (hlive.mpr ht)
    rw [lcCmpAsTag_nonpos_iff, ← (h.entry t c hc).count, ← (h.entry a.t a hget).count,
      ← Oze.t_of_asetGet hc]
    exact Prod.Lex.toLex_le_toLex.mp (hmax c (Oze.mem_of_asetGet hc))
  · rw [Oze.score, OzSorted.inc_of_max h hs ha hmax, (h.entry a.t a hget).inc,
      show e.innate = some i from hi, Option.bind_some, hb, Option.map_some, Option.getD_some,
      (h.entry i b hb).x v hv]

end

end

end RemoveWin
