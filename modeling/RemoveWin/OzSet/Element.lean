import RemoveWin.OzSet.Model

/-!
# One element of the add-win priority queue

What the helpers of `t_ozset.c` do to an element, with `aset` read as a partial map from tags to
entries (`Oze.asetGet`). A message is taken apart into *items*, one for each tag it carries.

`OzOk` says what the entries are: which tags have one, and what its sums are, as functions of the
items received. It is kept item by item. Where the cached pointers point is another matter: a remove
of several tags leaves that to the end.
-/

namespace RemoveWin

/-! ### The map of entries -/

/-- The order `acquired` is chosen by. -/
def Ase.rank (a : Ase) : ℚ ×ₗ ℤ ×ₗ ℤ := toLex (a.count, a.t.key)

namespace Oze

variable {e : Oze} {t u : Lc} {a : Ase}

theorem lookup_iff : e.Lookup ↔ e.aset ≠ [] := by
  rw [Lookup, ne_eq, List.length_eq_zero_iff]

theorem rsetGet_iff : e.rsetGet t = true ↔ t ∈ e.rset := by
  simp only [rsetGet, List.any_eq_true, lcCmpAsTag_eq_zero_iff, decide_eq_true_eq]
  exact ⟨fun ⟨a, ha, h⟩ => h ▸ ha, fun h => ⟨t, h, rfl⟩⟩

theorem t_of_asetGet (h : e.asetGet t = some a) : a.t = t := by
  have := List.find?_some h
  rw [decide_eq_true_eq, lcCmpAsTag_eq_zero_iff] at this
  exact this.symm

theorem mem_of_asetGet (h : e.asetGet t = some a) : a ∈ e.aset := List.mem_of_find?_eq_some h

theorem asetGet_isSome_iff : (e.asetGet t).isSome ↔ t ∈ e.aset.map Ase.t := by
  simp only [asetGet, List.find?_isSome, decide_eq_true_eq, lcCmpAsTag_eq_zero_iff, List.mem_map]
  exact ⟨fun ⟨a, ha, h⟩ => ⟨a, ha, h.symm⟩, fun ⟨a, ha, h⟩ => ⟨a, ha, h.symm⟩⟩

theorem asetGet_of_mem (hnd : (e.aset.map Ase.t).Nodup) (ha : a ∈ e.aset) :
    e.asetGet a.t = some a := by
  obtain ⟨b, hb⟩ := Option.isSome_iff_exists.mp
    (asetGet_isSome_iff.mpr (List.mem_map_of_mem (f := Ase.t) ha))
  rw [hb, List.inj_on_of_nodup_map hnd (mem_of_asetGet hb) ha (t_of_asetGet hb)]

theorem lookup_iff_exists : e.Lookup ↔ ∃ t, (e.asetGet t).isSome := by
  rw [lookup_iff]
  constructor
  · intro h
    obtain ⟨a, ha⟩ := List.exists_mem_of_ne_nil _ h
    exact ⟨a.t, asetGet_isSome_iff.mpr (List.mem_map_of_mem ha)⟩
  · rintro ⟨t, ht⟩ hnil
    rw [asetGet_isSome_iff, hnil] at ht
    cases ht

/-- The entry of a tag, or the one `add_ase` would make. -/
def aseOr (e : Oze) (t : Lc) (junk : ℚ) : Ase := (e.asetGet t).getD ⟨t, junk, 0, 0⟩

theorem t_aseOr (e : Oze) (t : Lc) (junk : ℚ) : (e.aseOr t junk).t = t := by
  rw [aseOr]
  cases h : e.asetGet t with
  | none => rfl
  | some a => exact t_of_asetGet h

/-- What both update functions do first: make sure there is an entry, and change it. -/
def touch (e : Oze) (t : Lc) (junk : ℚ) (f : Ase → Ase) : Oze := (e.withAse t junk).modifyAse t f

section

variable {junk : ℚ} {f : Ase → Ase} (hf : ∀ a, (f a).t = a.t)
include hf

theorem asetGet_modifyAse : (e.modifyAse t f).asetGet u =
    (e.asetGet u).map fun a => if a.t = t then f a else a := by
  have htest : (fun a : Ase => decide (lcCmpAsTag u (if a.t = t then f a else a).t = 0)) =
      fun a => decide (lcCmpAsTag u a.t = 0) := by
    funext a
    split <;> simp [hf]
  rw [asetGet, modifyAse, List.find?_map, asetGet]
  show Option.map _ (e.aset.find? fun a => decide (lcCmpAsTag u (if a.t = t then f a else a).t = 0))
    = _
  rw [htest]

theorem tags_modifyAse : (e.modifyAse t f).aset.map Ase.t = e.aset.map Ase.t := by
  rw [modifyAse, List.map_map]
  refine List.map_congr_left fun a _ => ?_
  show (if a.t = t then f a else a).t = a.t
  split
  · exact hf a
  · rfl

omit hf in
theorem asetGet_withAse_self : (e.withAse t junk).asetGet t = some (e.aseOr t junk) := by
  rw [withAse, aseOr]
  cases h : e.asetGet t with
  | some a => rw [h, Option.getD_some]
  | none =>
    show (e.aset ++ [_]).find? _ = _
    rw [List.find?_append, ← asetGet, h]
    simp [lcCmpAsTag_eq_zero_iff]

omit hf in
theorem asetGet_withAse_of_ne (hne : u ≠ t) : (e.withAse t junk).asetGet u = e.asetGet u := by
  rw [withAse]
  split
  · rfl
  · simp [asetGet, List.find?_append, lcCmpAsTag_eq_zero_iff, hne]

theorem asetGet_touch_self : (e.touch t junk f).asetGet t = some (f (e.aseOr t junk)) := by
  rw [touch, asetGet_modifyAse hf, asetGet_withAse_self, Option.map_some, if_pos (t_aseOr ..)]

theorem asetGet_touch_of_ne (hne : u ≠ t) : (e.touch t junk f).asetGet u = e.asetGet u := by
  rw [touch, asetGet_modifyAse hf, asetGet_withAse_of_ne hne]
  cases h : e.asetGet u with
  | none => rfl
  | some a => rw [Option.map_some, if_neg (by rw [t_of_asetGet h]; exact hne)]

theorem nodup_touch (hnd : (e.aset.map Ase.t).Nodup) :
    ((e.touch t junk f).aset.map Ase.t).Nodup := by
  rw [touch, tags_modifyAse hf, withAse]
  split
  · exact hnd
  · next h =>
    rw [List.map_append]
    refine hnd.append (List.nodup_singleton _) ?_
    have hnot : t ∉ e.aset.map Ase.t := by
      rw [← asetGet_isSome_iff, h]
      simp
    simpa using hnot

end

theorem touch_eq (e : Oze) (t : Lc) (junk : ℚ) (f : Ase → Ase) :
    e.touch t junk f = { e with aset := (e.touch t junk f).aset } := by
  rw [touch, modifyAse, withAse]
  split <;> rfl

theorem eraseP_tag {l : List Ase} (hnd : (l.map Ase.t).Nodup) (t : Lc) :
    (l.eraseP fun a => lcCmpAsTag t a.t = 0) = l.filter fun a => a.t ≠ t := by
  induction l with
  | nil => rfl
  | cons a l ih =>
    rw [List.map_cons, List.nodup_cons] at hnd
    by_cases ha : t = a.t
    · have hrest : l.filter (fun b => b.t ≠ t) = l := List.filter_eq_self.mpr fun b hb => by
        rw [decide_eq_true_eq, ha]
        exact fun heq => hnd.1 (heq ▸ List.mem_map_of_mem hb)
      rw [List.eraseP_cons_of_pos (by simpa [lcCmpAsTag_eq_zero_iff] using ha),
        List.filter_cons_of_neg (by simpa using ha.symm), hrest]
    · rw [List.eraseP_cons_of_neg (by simpa [lcCmpAsTag_eq_zero_iff] using ha),
        List.filter_cons_of_pos (by simpa using Ne.symm ha), ih hnd.2]

theorem asetGet_removeTag (hnd : (e.aset.map Ase.t).Nodup) (ht : t ∉ e.rset) :
    (e.removeTag t).asetGet u = if u = t then none else e.asetGet u := by
  have haset : (e.removeTag t).aset = e.aset.filter fun a => a.t ≠ t := by
    rw [removeTag, if_neg (by rwa [rsetGet_iff])]
    exact eraseP_tag hnd t
  rw [asetGet, haset, List.find?_filter]
  split
  · next h =>
    subst h
    refine List.find?_eq_none.mpr fun a _ => ?_
    simpa [lcCmpAsTag_eq_zero_iff] using fun h => Ne.symm h
  · next h =>
    rw [asetGet]
    refine List.find?_congr fun a _ => ?_
    by_cases hu : u = a.t
    · simp [lcCmpAsTag_eq_zero_iff, ← hu, h]
    · simp [lcCmpAsTag_eq_zero_iff, hu]

/-! ### What the helpers do -/

theorem innateBelow_iff : e.innateBelow a = true ↔ ∀ i ∈ e.innate, i.key < a.t.key := by
  rw [innateBelow]
  cases e.innate with
  | none => simp
  | some i => simp [lcCmpAsTag_neg_iff]

theorem acquiredBelow_iff : e.acquiredBelow a = true ↔
    ∀ b ∈ e.acquired.bind e.asetGet, b.rank < a.rank := by
  rw [acquiredBelow]
  cases e.acquired.bind e.asetGet with
  | none => simp
  | some b => simp [lcCmpAsTag_neg_iff, Ase.rank, Prod.Lex.toLex_lt_toLex]

/-- What `update_innate_value` writes. -/
def setX (v : ℚ) (a : Ase) : Ase := { a with x := v }

/-- What `update_acquired_value` adds. -/
def bump (v : ℚ) (a : Ase) : Ase :=
  { a with inc := a.inc + v, count := a.count + if v > 0 then v else -v }

theorem t_setX (v : ℚ) (a : Ase) : (setX v a).t = a.t := rfl

theorem t_bump (v : ℚ) (a : Ase) : (bump v a).t = a.t := rfl

theorem count_bump (v : ℚ) (a : Ase) : (bump v a).count = a.count + |v| := by
  show a.count + (if v > 0 then v else -v) = _
  split
  · next h => rw [abs_of_pos h]
  · next h => rw [abs_of_nonpos (not_lt.mp h)]

theorem rank_le_bump (v : ℚ) (a : Ase) : a.rank ≤ (bump v a).rank := by
  rw [Ase.rank, Ase.rank, Prod.Lex.toLex_le_toLex, count_bump]
  rcases (abs_nonneg v).lt_or_eq with h | h
  · exact .inl (by linarith)
  · exact .inr ⟨by rw [← h, add_zero], le_rfl⟩

theorem updateInnateValue_of_notMem {v junk : ℚ} (h : t ∉ e.rset) :
    e.updateInnateValue t v junk =
      if (e.touch t junk (setX v)).innateBelow (setX v (e.aseOr t junk)) then
        ({ e.touch t junk (setX v) with innate := some t }, true)
      else (e.touch t junk (setX v), false) := by
  have hget : ((e.withAse t junk).modifyAse t fun a => { a with x := v }).asetGet t =
      some (setX v (e.aseOr t junk)) := asetGet_touch_self (t_setX v)
  rw [updateInnateValue, if_neg (by rwa [rsetGet_iff])]
  simp only [hget]
  rfl

/-- **Everything `update_innate_value` can do.** -/
theorem updateInnateValue_cases (e : Oze) (t : Lc) (v junk : ℚ) :
    (t ∈ e.rset ∧ e.updateInnateValue t v junk = (e, false)) ∨
    (t ∉ e.rset ∧ (∀ i ∈ e.innate, i.key < t.key) ∧ e.updateInnateValue t v junk =
      ({ e.touch t junk (setX v) with innate := some t }, true)) ∨
    (t ∉ e.rset ∧ (∃ i ∈ e.innate, t.key ≤ i.key) ∧
      e.updateInnateValue t v junk = (e.touch t junk (setX v), false)) := by
  by_cases hrem : t ∈ e.rset
  · exact .inl ⟨hrem, by rw [updateInnateValue, if_pos (rsetGet_iff.mpr hrem)]⟩
  have hbelow : (e.touch t junk (setX v)).innateBelow (setX v (e.aseOr t junk)) = true ↔
      ∀ i ∈ e.innate, i.key < t.key := by
    rw [innateBelow_iff, touch_eq, show (setX v (e.aseOr t junk)).t = t from t_aseOr ..]
  rw [updateInnateValue_of_notMem hrem]
  by_cases hlt : ∀ i ∈ e.innate, i.key < t.key
  · exact .inr (.inl ⟨hrem, hlt, if_pos (hbelow.mpr hlt)⟩)
  · refine .inr (.inr ⟨hrem, ?_, if_neg (hbelow.not.mpr hlt)⟩)
    push Not at hlt
    exact hlt

theorem updateAcquiredValue_of_notMem {v junk : ℚ} (h : t ∉ e.rset) :
    e.updateAcquiredValue t v junk =
      if (e.touch t junk (bump v)).acquired = some t then (e.touch t junk (bump v), true)
      else if (e.touch t junk (bump v)).acquiredBelow (bump v (e.aseOr t junk)) then
        ({ e.touch t junk (bump v) with acquired := some t }, true)
      else (e.touch t junk (bump v), false) := by
  have hget : ((e.withAse t junk).modifyAse t fun a =>
      { a with inc := a.inc + v, count := a.count + if v > 0 then v else -v }).asetGet t =
      some (bump v (e.aseOr t junk)) := asetGet_touch_self (t_bump v)
  rw [updateAcquiredValue, if_neg (by rwa [rsetGet_iff])]
  simp only [hget]
  rfl

/-- **Everything `update_acquired_value` can do.** -/
theorem updateAcquiredValue_cases (e : Oze) (t : Lc) (v junk : ℚ) :
    (t ∈ e.rset ∧ e.updateAcquiredValue t v junk = (e, false)) ∨
    (t ∉ e.rset ∧ e.acquired = some t ∧
      e.updateAcquiredValue t v junk = (e.touch t junk (bump v), true)) ∨
    (t ∉ e.rset ∧ e.acquired ≠ some t ∧
      (∀ b ∈ e.acquired.bind e.asetGet, b.rank < (bump v (e.aseOr t junk)).rank) ∧
      e.updateAcquiredValue t v junk =
        ({ e.touch t junk (bump v) with acquired := some t }, true)) ∨
    (t ∉ e.rset ∧ e.acquired ≠ some t ∧
      (∃ b ∈ e.acquired.bind e.asetGet, (bump v (e.aseOr t junk)).rank ≤ b.rank) ∧
      e.updateAcquiredValue t v junk = (e.touch t junk (bump v), false)) := by
  by_cases hrem : t ∈ e.rset
  · exact .inl ⟨hrem, by rw [updateAcquiredValue, if_pos (rsetGet_iff.mpr hrem)]⟩
  have hacq : (e.touch t junk (bump v)).acquired = e.acquired := by rw [touch_eq]
  rw [updateAcquiredValue_of_notMem hrem, hacq]
  by_cases ht : e.acquired = some t
  · exact .inr (.inl ⟨hrem, ht, if_pos ht⟩)
  have hbind : (e.touch t junk (bump v)).acquired.bind (e.touch t junk (bump v)).asetGet =
      e.acquired.bind e.asetGet := by
    rw [hacq]
    cases ha : e.acquired with
    | none => rfl
    | some u => exact asetGet_touch_of_ne (t_bump v) fun hu => ht (by rw [ha, hu])
  have hbelow : (e.touch t junk (bump v)).acquiredBelow (bump v (e.aseOr t junk)) = true ↔
      ∀ b ∈ e.acquired.bind e.asetGet, b.rank < (bump v (e.aseOr t junk)).rank := by
    rw [acquiredBelow_iff, hbind]
  rw [if_neg ht]
  by_cases hlt : ∀ b ∈ e.acquired.bind e.asetGet, b.rank < (bump v (e.aseOr t junk)).rank
  · exact .inr (.inr (.inl ⟨hrem, ht, hlt, if_pos (hbelow.mpr hlt)⟩))
  · refine .inr (.inr (.inr ⟨hrem, ht, ?_, if_neg (hbelow.not.mpr hlt)⟩))
    push Not at hlt
    exact hlt

end Oze

/-! ### Entries -/

/-- What a message says about one tag. -/
inductive OzItem where
  /-- The tag was drawn by an add of this value. -/
  | add (t : Lc) (v : ℚ)
  /-- An increment listed the tag. -/
  | incr (t : Lc) (v : ℚ)
  /-- A remove listed the tag. -/
  | rem (t : Lc)
  deriving DecidableEq

namespace OzItem

/-- The tag. -/
def tag : OzItem → Lc
  | add t _ => t
  | incr t _ => t
  | rem t => t

/-- What the item adds to the sum of the increments of a tag. -/
def inc (t : Lc) : OzItem → ℚ
  | incr u v => if u = t then v else 0
  | _ => 0

/-- What the item adds to the sum of the absolute values. -/
def count (t : Lc) : OzItem → ℚ
  | incr u v => if u = t then |v| else 0
  | _ => 0

end OzItem

/-- The sum of the increments that listed a tag. -/
def incSum (M : List OzItem) (t : Lc) : ℚ := (M.map (OzItem.inc t)).sum

/-- The sum of their absolute values. -/
def countSum (M : List OzItem) (t : Lc) : ℚ := (M.map (OzItem.count t)).sum

/-- Some add or increment was about the tag. -/
def Mentioned (M : List OzItem) (t : Lc) : Prop := ∃ i ∈ M, i.tag = t ∧ i ≠ .rem t

/-- What the entry of a tag holds after the items `M`. The value is only known once the add has
come. -/
structure IsEntry (M : List OzItem) (t : Lc) (a : Ase) : Prop where
  x : ∀ v, .add t v ∈ M → a.x = v
  inc : a.inc = incSum M t
  count : a.count = countSum M t

/-- What an element holds after the items `M`, but for where the pointers point. -/
structure OzOk (M : List OzItem) (e : Oze) : Prop where
  /-- Each tag has one entry. -/
  nodup : (e.aset.map Ase.t).Nodup
  rset : ∀ t, t ∈ e.rset ↔ .rem t ∈ M
  aset : ∀ t, (e.asetGet t).isSome ↔ Mentioned M t ∧ .rem t ∉ M
  entry : ∀ t a, e.asetGet t = some a → IsEntry M t a
  innate : ∀ t ∈ e.innate, (e.asetGet t).isSome
  acquired : ∀ t ∈ e.acquired, (e.asetGet t).isSome

section

variable {M : List OzItem} {i : OzItem} {e : Oze} {t u : Lc} {a : Ase} {v junk : ℚ}

theorem incSum_concat (M : List OzItem) (i : OzItem) (t : Lc) :
    incSum (M ++ [i]) t = incSum M t + i.inc t := by simp [incSum]

theorem countSum_concat (M : List OzItem) (i : OzItem) (t : Lc) :
    countSum (M ++ [i]) t = countSum M t + i.count t := by simp [countSum]

theorem abs_incSum_le (M : List OzItem) (t : Lc) : |incSum M t| ≤ countSum M t := by
  induction M using List.reverseRecOn with
  | nil => simp [incSum, countSum]
  | append_singleton M i ih =>
    rw [incSum_concat, countSum_concat]
    have hi : |i.inc t| ≤ i.count t := by
      rcases i with _ | ⟨u, v⟩ | _
      · simp [OzItem.inc, OzItem.count]
      · show |if u = t then v else 0| ≤ if u = t then |v| else 0
        split <;> simp
      · simp [OzItem.inc, OzItem.count]
    exact (abs_add_le _ _).trans (add_le_add ih hi)

theorem inc_of_tag_ne (h : i.tag ≠ t) : i.inc t = 0 := by
  rcases i with _ | ⟨u, v⟩ | _
  · rfl
  · exact if_neg h
  · rfl

theorem count_of_tag_ne (h : i.tag ≠ t) : i.count t = 0 := by
  rcases i with _ | ⟨u, v⟩ | _
  · rfl
  · exact if_neg h
  · rfl

theorem IsEntry.frame (h : IsEntry M t a) (hne : i.tag ≠ t) : IsEntry (M ++ [i]) t a where
  x w hw := by
    rcases List.mem_append.mp hw with hw | hw
    · exact h.x w hw
    · obtain rfl := List.eq_of_mem_singleton hw
      exact absurd rfl hne
  inc := by rw [incSum_concat, inc_of_tag_ne hne, add_zero, h.inc]
  count := by rw [countSum_concat, count_of_tag_ne hne, add_zero, h.count]

theorem isEntry_fresh (h : ∀ i ∈ M, i.tag = t → i = .rem t) : IsEntry M t ⟨t, junk, 0, 0⟩ where
  x v hv := absurd (h _ hv rfl) (by simp)
  inc := by
    refine (List.sum_eq_zero fun q hq => ?_).symm
    obtain ⟨i, hi, rfl⟩ := List.mem_map.mp hq
    by_cases ht : i.tag = t
    · rw [h i hi ht]
      rfl
    · exact inc_of_tag_ne ht
  count := by
    refine (List.sum_eq_zero fun q hq => ?_).symm
    obtain ⟨i, hi, rfl⟩ := List.mem_map.mp hq
    by_cases ht : i.tag = t
    · rw [h i hi ht]
      rfl
    · exact count_of_tag_ne ht

theorem IsEntry.setX (h : IsEntry M t a) (hfresh : ∀ w, .add t w ∉ M) :
    IsEntry (M ++ [.add t v]) t (Oze.setX v a) where
  x w hw := by
    rcases List.mem_append.mp hw with hw | hw
    · exact absurd hw (hfresh w)
    · exact (OzItem.add.inj (List.eq_of_mem_singleton hw)).2.symm
  inc := by
    rw [incSum_concat, show OzItem.inc t (.add t v) = 0 from rfl, add_zero]
    exact h.inc
  count := by
    rw [countSum_concat, show OzItem.count t (.add t v) = 0 from rfl, add_zero]
    exact h.count

theorem IsEntry.bump (h : IsEntry M t a) : IsEntry (M ++ [.incr t v]) t (Oze.bump v a) where
  x w hw := by
    rcases List.mem_append.mp hw with hw | hw
    · exact h.x w hw
    · exact absurd (List.eq_of_mem_singleton hw) (by simp)
  inc := by
    rw [incSum_concat, ← h.inc, show OzItem.inc t (.incr t v) = v from if_pos rfl]
    rfl
  count := by
    rw [countSum_concat, ← h.count, Oze.count_bump,
      show OzItem.count t (.incr t v) = |v| from if_pos rfl]

theorem mentioned_concat : Mentioned (M ++ [i]) t ↔ Mentioned M t ∨ (i.tag = t ∧ i ≠ .rem t) := by
  simp only [Mentioned, List.mem_append, List.mem_singleton]
  constructor
  · rintro ⟨j, hj | rfl, h⟩
    · exact .inl ⟨j, hj, h⟩
    · exact .inr h
  · rintro (⟨j, hj, h⟩ | h)
    · exact ⟨j, .inl hj, h⟩
    · exact ⟨i, .inr rfl, h⟩

theorem ozOk_new : OzOk [] ozeNew where
  nodup := List.nodup_nil
  rset t := by simp [ozeNew]
  aset t := by simp [ozeNew, Oze.asetGet, Mentioned]
  entry t a h := by simp [ozeNew, Oze.asetGet] at h
  innate t h := by simp [ozeNew] at h
  acquired t h := by simp [ozeNew] at h

namespace OzOk

variable (h : OzOk M e)
include h

theorem asetGet_of_removed (ht : t ∈ e.rset) : e.asetGet t = none := by
  by_contra hne
  exact ((h.aset t).mp (Option.isSome_iff_ne_none.mpr hne)).2 ((h.rset t).mp ht)

theorem isEntry_aseOr (ht : t ∉ e.rset) (junk : ℚ) : IsEntry M t (e.aseOr t junk) := by
  rw [Oze.aseOr]
  cases hget : e.asetGet t with
  | some a => exact h.entry t a hget
  | none =>
    refine isEntry_fresh fun i hi htag => ?_
    by_contra hne
    have := (h.aset t).mpr ⟨⟨i, hi, htag, hne⟩, fun hrem => ht ((h.rset t).mpr hrem)⟩
    rw [hget] at this
    cases this

theorem skip (hi : i.tag ∈ e.rset) : OzOk (M ++ [i]) e where
  nodup := h.nodup
  rset t := by
    rw [h.rset, List.mem_append, List.mem_singleton]
    refine ⟨.inl, ?_⟩
    rintro (ht | rfl)
    · exact ht
    · exact (h.rset _).mp hi
  aset t := by
    rw [h.aset, mentioned_concat, List.mem_append, List.mem_singleton]
    constructor
    · rintro ⟨hm, hrem⟩
      refine ⟨.inl hm, ?_⟩
      rintro (ht | rfl)
      · exact hrem ht
      · exact hrem ((h.rset _).mp hi)
    · rintro ⟨hm | ⟨rfl, -⟩, hrem⟩
      · exact ⟨hm, fun ht => hrem (.inl ht)⟩
      · exact absurd (.inl ((h.rset _).mp hi)) hrem
  entry t a ha := by
    refine (h.entry t a ha).frame ?_
    rintro rfl
    rw [h.asetGet_of_removed hi] at ha
    cases ha
  innate := h.innate
  acquired := h.acquired

theorem touch {f : Ase → Ase} (hf : ∀ a, (f a).t = a.t) (hi : i.tag ∉ e.rset)
    (hrem : i ≠ .rem i.tag) (hentry : IsEntry (M ++ [i]) i.tag (f (e.aseOr i.tag junk))) :
    OzOk (M ++ [i]) (e.touch i.tag junk f) := by
  have hget : ∀ u, (e.touch i.tag junk f).asetGet u =
      if u = i.tag then some (f (e.aseOr i.tag junk)) else e.asetGet u := by
    intro u
    split
    · next hu =>
      rw [hu]
      exact Oze.asetGet_touch_self hf
    · next hu => exact Oze.asetGet_touch_of_ne hf hu
  have hmono : ∀ u, (e.asetGet u).isSome → ((e.touch i.tag junk f).asetGet u).isSome := by
    intro u hu
    rw [hget]
    split
    · rfl
    · exact hu
  have hnot : ∀ u, OzItem.rem u ≠ i := by
    rintro u rfl
    exact hrem rfl
  refine ⟨Oze.nodup_touch hf h.nodup, fun u => ?_, fun u => ?_, fun u a ha => ?_,
    fun u hu => ?_, fun u hu => ?_⟩
  · rw [Oze.touch_eq, List.mem_append, List.mem_singleton, or_iff_left (hnot u)]
    exact h.rset u
  · rw [hget, mentioned_concat, List.mem_append, List.mem_singleton, or_iff_left (hnot u)]
    split
    · next hu =>
      subst hu
      simpa [hrem] using (h.rset _).not.mp hi
    · next hu =>
      rw [h.aset, or_iff_left fun hc => hu hc.1.symm]
  · rw [hget] at ha
    split at ha
    · next hu =>
      cases ha
      exact hu ▸ hentry
    · next hu => exact (h.entry u a ha).frame (Ne.symm hu)
  · rw [Oze.touch_eq] at hu
    exact hmono u (h.innate u hu)
  · rw [Oze.touch_eq] at hu
    exact hmono u (h.acquired u hu)

theorem setInnate (ht : (e.asetGet t).isSome) : OzOk M { e with innate := some t } :=
  ⟨h.nodup, h.rset, h.aset, h.entry, fun u hu => by
    cases hu
    exact ht, h.acquired⟩

theorem setAcquired (ht : (e.asetGet t).isSome) : OzOk M { e with acquired := some t } :=
  ⟨h.nodup, h.rset, h.aset, h.entry, h.innate, fun u hu => by
    cases hu
    exact ht⟩

theorem setCurrent (c : ℤ) : OzOk M { e with current := c } :=
  ⟨h.nodup, h.rset, h.aset, h.entry, h.innate, h.acquired⟩

/-- **The effect of an add on the entries.** -/
theorem updateInnateValue (hfresh : ∀ w, .add t w ∉ M) :
    OzOk (M ++ [.add t v]) (e.updateInnateValue t v junk).1 := by
  have htouch : t ∉ e.rset → OzOk (M ++ [.add t v]) (e.touch t junk (Oze.setX v)) := fun ht =>
    h.touch (i := .add t v) (Oze.t_setX v) ht (by simp) ((h.isEntry_aseOr ht junk).setX hfresh)
  obtain ⟨ht, heq⟩ | ⟨ht, -, heq⟩ | ⟨ht, -, heq⟩ := e.updateInnateValue_cases t v junk
  · rw [heq]
    exact h.skip ht
  · rw [heq]
    refine (htouch ht).setInnate ?_
    rw [Oze.asetGet_touch_self (Oze.t_setX v)]
    rfl
  · rw [heq]
    exact htouch ht

/-- **The effect of an increment on the entries.** -/
theorem updateAcquiredValue :
    OzOk (M ++ [.incr t v]) (e.updateAcquiredValue t v junk).1 := by
  have htouch : t ∉ e.rset → OzOk (M ++ [.incr t v]) (e.touch t junk (Oze.bump v)) := fun ht =>
    h.touch (i := .incr t v) (Oze.t_bump v) ht (by simp) (h.isEntry_aseOr ht junk).bump
  obtain ⟨ht, heq⟩ | ⟨ht, -, heq⟩ | ⟨ht, -, -, heq⟩ | ⟨ht, -, -, heq⟩ :=
    e.updateAcquiredValue_cases t v junk
  · rw [heq]
    exact h.skip ht
  · rw [heq]
    exact htouch ht
  · rw [heq]
    refine (htouch ht).setAcquired ?_
    rw [Oze.asetGet_touch_self (Oze.t_bump v)]
    rfl
  · rw [heq]
    exact htouch ht

/-- **The effect of a remove on the entries.** -/
theorem removeTag : OzOk (M ++ [.rem t]) (e.removeTag t) := by
  by_cases ht : t ∈ e.rset
  · rw [Oze.removeTag, if_pos (Oze.rsetGet_iff.mpr ht)]
    exact h.skip ht
  have hget : ∀ u, (e.removeTag t).asetGet u = if u = t then none else e.asetGet u :=
    fun u => Oze.asetGet_removeTag h.nodup ht
  have heq : e.removeTag t = { e with
      rset := e.rset ++ [t]
      aset := (e.removeTag t).aset
      innate := if e.innate = some t then none else e.innate
      acquired := if e.acquired = some t then none else e.acquired } := by
    rw [Oze.removeTag, if_neg (by rwa [Oze.rsetGet_iff])]
  refine ⟨?_, fun u => ?_, fun u => ?_, fun u a ha => ?_, fun u hu => ?_, fun u hu => ?_⟩
  · rw [Oze.removeTag, if_neg (by rwa [Oze.rsetGet_iff])]
    exact h.nodup.sublist (List.eraseP_sublist.map _)
  · rw [heq, List.mem_append, List.mem_append, h.rset, List.mem_singleton, List.mem_singleton,
      OzItem.rem.injEq]
  · rw [hget, mentioned_concat, List.mem_append, List.mem_singleton, OzItem.rem.injEq]
    split
    · next hu => simp [hu]
    · next hu =>
      rw [h.aset, or_iff_left hu, or_iff_left fun hc => hu hc.1.symm]
  · rw [hget] at ha
    split at ha
    · cases ha
    · next hu => exact (h.entry u a ha).frame (Ne.symm hu)
  · rw [heq] at hu
    dsimp only at hu
    split at hu
    · cases hu
    · next hne =>
      rw [hget, if_neg]
      · exact h.innate u hu
      · rintro rfl
        exact hne hu
  · rw [heq] at hu
    dsimp only at hu
    split at hu
    · cases hu
    · next hne =>
      rw [hget, if_neg]
      · exact h.acquired u hu
      · rintro rfl
        exact hne hu

end OzOk

end

end RemoveWin
