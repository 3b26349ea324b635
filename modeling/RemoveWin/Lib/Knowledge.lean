import RemoveWin.Lib.OpBased

/-!
# Knowledge of marked events, and the vector stamps that decide it

Some events of a run are *about* a subject, and some of those are *marked*. A replica knows a
marked event if it has applied it, or has applied an event about the subject whose origin knew
it. Nobody can see that relation, but stamps can keep track of it: give every event about the
subject the join of the stamps its origin had received, plus one at the origin's own slot if it
is marked. Then a replica knows a marked event exactly when the join of its stamps has reached
the event's at the origin's slot.

The argument is about the history of a finished log and needs no order of delivery. It goes by
induction on event numbers, because the history of an event consists of events with smaller ones.

## Main results

* `Replicated.Counting.knows_iff` — the join of the stamps decides knowledge
* `Replicated.Counting.stamp_eq_iff` — an unmarked event carries the join of the whole log exactly
  when its origin knew every marked event
* `Replicated.Counting.le_iff` — joins of closed histories compare as their marked events do
* `Replicated.Counting.next`, `Counting.le_next_iff` — the stamp of an event that is delivered in
  causal order, against what has been received
-/

namespace Replicated

variable {ι σ κ Msg : Type}

/-- A replica that has applied `A` knows the event `m`: it has applied it, or it has applied an
event about the subject whose origin knew it. -/
inductive Knows (About : Event ι Msg → Prop) (m : Event ι Msg) : List (Event ι Msg) → Prop
  | here {A : List (Event ι Msg)} (hm : m ∈ A) : Knows About m A
  | via {A : List (Event ι Msg)} {d : Event ι Msg} (hd : d ∈ A) (ha : About d)
      (hk : Knows About m d.deps) : Knows About m A

theorem knows_iff_exists {About : Event ι Msg → Prop} {m : Event ι Msg} (hm : About m)
    {A : List (Event ι Msg)} :
    Knows About m A ↔ ∃ d ∈ A, About d ∧ (m = d ∨ Knows About m d.deps) := by
  constructor
  · rintro (hmA | ⟨hd, ha, hk⟩)
    · exact ⟨m, hmA, hm, .inl rfl⟩
    · exact ⟨_, hd, ha, .inr hk⟩
  · rintro ⟨d, hd, ha, rfl | hk⟩
    · exact .here hd
    · exact .via hd ha hk

/-- In a closed history everything known is there. -/
theorem Knows.mem_of_closed {About : Event ι Msg → Prop} {m : Event ι Msg}
    {A B : List (Event ι Msg)} (h : Knows About m B) (hA : Closed A) (hB : ∀ d ∈ B, d ∈ A) :
    m ∈ A := by
  induction h with
  | here hm => exact hB m hm
  | via hd _ _ ih => exact ih fun d' hd' => hA _ (hB _ hd) d' hd'

/-- The stamps received with the events of a list. -/
def stamps (About : Event ι Msg → Prop) (T : Event ι Msg → κ → ℤ) (A : List (Event ι Msg)) :
    Set (κ → ℤ) := T '' {d | d ∈ A ∧ About d}

theorem stamps_congr {About : Event ι Msg → Prop} {T : Event ι Msg → κ → ℤ}
    {A B : List (Event ι Msg)} (h : ∀ e, e ∈ A ↔ e ∈ B) :
    stamps About T A = stamps About T B := by
  simp only [stamps, h]

theorem stamps_nil (About : Event ι Msg → Prop) (T : Event ι Msg → κ → ℤ) :
    stamps About T [] = ∅ := by
  simp [stamps]

theorem stamps_concat_of_about {About : Event ι Msg → Prop} {T : Event ι Msg → κ → ℤ}
    {e : Event ι Msg} (he : About e) (A : List (Event ι Msg)) :
    stamps About T (A ++ [e]) = insert (T e) (stamps About T A) := by
  ext t
  simp only [stamps, Set.mem_image, Set.mem_ofPred_eq, List.mem_append, List.mem_singleton,
    Set.mem_insert_iff]
  constructor
  · rintro ⟨d, ⟨hd | rfl, ha⟩, rfl⟩
    · exact .inr ⟨d, ⟨hd, ha⟩, rfl⟩
    · exact .inl rfl
  · rintro (rfl | ⟨d, ⟨hd, ha⟩, rfl⟩)
    · exact ⟨e, ⟨.inr rfl, he⟩, rfl⟩
    · exact ⟨d, ⟨.inl hd, ha⟩, rfl⟩

theorem stamps_concat_of_not_about {About : Event ι Msg → Prop} {T : Event ι Msg → κ → ℤ}
    {e : Event ι Msg} (he : ¬ About e) (A : List (Event ι Msg)) :
    stamps About T (A ++ [e]) = stamps About T A := by
  ext t
  simp only [stamps, Set.mem_image, Set.mem_ofPred_eq, List.mem_append, List.mem_singleton]
  constructor
  · rintro ⟨d, ⟨hd | rfl, ha⟩, rfl⟩
    · exact ⟨d, ⟨hd, ha⟩, rfl⟩
    · exact absurd ha he
  · rintro ⟨d, ⟨hd, ha⟩, rfl⟩
    exact ⟨d, ⟨.inl hd, ha⟩, rfl⟩

/-- The stamps `T` of the events about a subject are made by the rule: join what the origin has
received, and count one more at the origin's slot for a marked event. -/
structure Counting [DecidableEq κ] (slot : ι → κ) (About Marked : Event ι Msg → Prop)
    (T : Event ι Msg → κ → ℤ) (log : List (Event ι Msg)) : Prop where
  /-- Different replicas have different slots. -/
  slot_injective : Function.Injective slot
  /-- Marked events are about the subject. -/
  about : ∀ {e}, Marked e → About e
  /-- A marked event counts one more at its origin's slot. -/
  marked : ∀ e ∈ log, Marked e → ∃ c, IsLUB (insert 0 (stamps About T e.deps)) c ∧
    T e = Function.update c (slot e.origin) (c (slot e.origin) + 1)
  /-- Any other event carries the join as it is. -/
  unmarked : ∀ e ∈ log, About e → ¬ Marked e → IsLUB (insert 0 (stamps About T e.deps)) (T e)

/-- The join of finitely many stamps is attained at every slot. -/
theorem exists_of_isLUB {About : Event ι Msg → Prop} {T : Event ι Msg → κ → ℤ}
    {A : List (Event ι Msg)} {c : κ → ℤ} (hc : IsLUB (insert 0 (stamps About T A)) c) (k : κ) :
    c k = 0 ∨ ∃ d ∈ A, About d ∧ T d k = c k := by
  have hfin : (insert 0 (stamps About T A)).Finite :=
    (((List.finite_toSet A).subset fun d hd => hd.1).image T).insert 0
  obtain ⟨t, ht, hmax⟩ := Set.exists_max_image _ (fun t : κ → ℤ => t k) hfin
    (Set.insert_nonempty _ _)
  have hle : c k ≤ t k := (isLUB_pi.mp hc k).2 (by
    rintro _ ⟨t', ht', rfl⟩
    exact hmax t' ht')
  have heq : c k = t k := le_antisymm hle (hc.1 ht k)
  rcases ht with rfl | ⟨d, ⟨hd, ha⟩, rfl⟩
  · exact .inl heq
  · exact .inr ⟨d, hd, ha, heq.symm⟩

namespace Counting

variable [DecidableEq κ] {slot : ι → κ} {About Marked : Event ι Msg → Prop}
  {T : Event ι Msg → κ → ℤ} {g : Net ι σ Msg} {A : List (Event ι Msg)} {c : κ → ℤ}

/-- A marked event's own slot is above everything its origin had received. -/
theorem lt_own (h : Counting slot About Marked T g.log) {m d : Event ι Msg} (hm : m ∈ g.log)
    (hr : Marked m) (hd : d ∈ m.deps) (ha : About d) :
    T d (slot m.origin) < T m (slot m.origin) := by
  obtain ⟨c, hc, hT⟩ := h.marked m hm hr
  have hle : T d (slot m.origin) ≤ c (slot m.origin) :=
    hc.1 (Set.mem_insert_of_mem _ ⟨d, ⟨hd, ha⟩, rfl⟩) _
  rw [hT, Function.update_self]
  omega

theorem own_pos (h : Counting slot About Marked T g.log) {m : Event ι Msg} (hm : m ∈ g.log)
    (hr : Marked m) : 0 < T m (slot m.origin) := by
  obtain ⟨c, hc, hT⟩ := h.marked m hm hr
  have hle : (0 : κ → ℤ) ≤ c := hc.1 (Set.mem_insert _ _)
  rw [hT, Function.update_self]
  exact Int.lt_add_one_of_le (hle _)

/-- What holds of one event: its stamp decides what its origin knows right after applying it. -/
def Decides (About Marked : Event ι Msg → Prop) (T : Event ι Msg → κ → ℤ) (slot : ι → κ)
    (log : List (Event ι Msg)) (d : Event ι Msg) : Prop :=
  ∀ m ∈ log, Marked m →
    (T m (slot m.origin) ≤ T d (slot m.origin) ↔ m = d ∨ Knows About m d.deps)

/-- If the stamps of a list decide knowledge one by one, their join decides it. -/
theorem join_decides (h : Counting slot About Marked T g.log)
    (hA : ∀ d ∈ A, About d → Decides About Marked T slot g.log d)
    (hc : IsLUB (insert 0 (stamps About T A)) c) {m : Event ι Msg} (hm : m ∈ g.log)
    (hr : Marked m) : T m (slot m.origin) ≤ c (slot m.origin) ↔ Knows About m A := by
  rw [knows_iff_exists (h.about hr)]
  constructor
  · intro hle
    rcases exists_of_isLUB hc (slot m.origin) with h0 | ⟨d, hd, ha, heq⟩
    · have := h.own_pos hm hr
      omega
    · exact ⟨d, hd, ha, (hA d hd ha m hm hr).mp (heq ▸ hle)⟩
  · rintro ⟨d, hd, ha, hk⟩
    exact ((hA d hd ha m hm hr).mpr hk).trans
      (hc.1 (Set.mem_insert_of_mem _ ⟨d, ⟨hd, ha⟩, rfl⟩) _)

/-- **One event.** Its stamp decides what its origin knows right after applying it, provided the
stamps of its history do. -/
theorem decides_of_deps (h : Counting slot About Marked T g.log) (w : g.WellFormed)
    {d : Event ι Msg} (hd : d ∈ g.log) (ha : About d)
    (ih : ∀ d' ∈ d.deps, About d' → Decides About Marked T slot g.log d') :
    Decides About Marked T slot g.log d := by
  intro m hm hr
  by_cases hmd : Marked d
  · obtain ⟨c, hc, hT⟩ := h.marked d hd hmd
    have hjoin := h.join_decides ih hc hm hr
    by_cases ho : m.origin = d.origin
    · -- events of one origin are in each other's history, one way or the other
      rcases w.eq_or_mem_deps hm hd ho with rfl | hmem | hmem
      · exact ⟨fun _ => .inl rfl, fun _ => le_rfl⟩
      · refine ⟨fun _ => .inr (.here hmem), fun _ => ?_⟩
        rw [ho]
        exact (h.lt_own hd hmd hmem (h.about hr)).le
      · have hlt := h.lt_own hm hr hmem ha
        have hself : T d (slot m.origin) = c (slot m.origin) + 1 := by
          rw [hT, ho, Function.update_self]
        refine ⟨fun hle => absurd hle (not_le.mpr hlt), ?_⟩
        rintro (rfl | hk)
        · exact le_rfl
        · have := hjoin.mpr hk
          omega
    · have hne : m ≠ d := fun heq => ho (heq ▸ rfl)
      rw [hT, Function.update_of_ne fun heq => ho (h.slot_injective heq), hjoin]
      exact ⟨.inr, fun hk => hk.resolve_left hne⟩
  · have hne : m ≠ d := fun heq => hmd (heq ▸ hr)
    rw [h.join_decides ih (h.unmarked d hd ha hmd) hm hr]
    exact ⟨.inr, fun hk => hk.resolve_left hne⟩

theorem decides (h : Counting slot About Marked T g.log) (w : g.WellFormed) :
    ∀ d ∈ g.log, About d → Decides About Marked T slot g.log d := by
  suffices hind : ∀ n, ∀ d ∈ g.log, d.id = n → About d → Decides About Marked T slot g.log d from
    fun d hd => hind d.id d hd rfl
  intro n
  induction n using Nat.strong_induction_on with
  | _ n ih =>
    rintro d hd rfl ha
    refine h.decides_of_deps w hd ha fun d' hd' ha' => ?_
    obtain ⟨hmem, hlt⟩ := w.deps_mem hd hd'
    exact ih d'.id hlt d' hmem rfl ha'

/-- **Stamps decide knowledge.** A replica that has applied `A` knows a marked event exactly when
the join of the stamps it received has reached the event's at its origin's slot. -/
theorem knows_iff (h : Counting slot About Marked T g.log) (w : g.WellFormed)
    (hA : ∀ d ∈ A, d ∈ g.log) (hc : IsLUB (insert 0 (stamps About T A)) c) {m : Event ι Msg}
    (hm : m ∈ g.log) (hr : Marked m) :
    Knows About m A ↔ T m (slot m.origin) ≤ c (slot m.origin) :=
  (h.join_decides (fun d hd => h.decides w d (hA d hd)) hc hm hr).symm

/-- Every slot of every stamp counts a marked event. -/
theorem exists_marked (h : Counting slot About Marked T g.log) (w : g.WellFormed) (k : κ) :
    ∀ n, ∀ d ∈ g.log, d.id = n → About d →
      T d k ≤ 0 ∨ ∃ m ∈ g.log, Marked m ∧ slot m.origin = k ∧ T m k = T d k := by
  intro n
  induction n using Nat.strong_induction_on with
  | _ n ih =>
    rintro d hd rfl ha
    have hjoin : ∀ c, IsLUB (insert 0 (stamps About T d.deps)) c →
        c k ≤ 0 ∨ ∃ m ∈ g.log, Marked m ∧ slot m.origin = k ∧ T m k = c k := by
      intro c hc
      rcases exists_of_isLUB hc k with h0 | ⟨d', hd', ha', heq⟩
      · exact .inl h0.le
      · obtain ⟨hmem, hlt⟩ := w.deps_mem hd hd'
        rw [← heq]
        exact ih d'.id hlt d' hmem rfl ha'
    by_cases hmd : Marked d
    · obtain ⟨c, hc, hT⟩ := h.marked d hd hmd
      by_cases hk : slot d.origin = k
      · exact .inr ⟨d, hd, hmd, hk, rfl⟩
      · rw [hT, Function.update_of_ne (Ne.symm hk)]
        exact hjoin c hc
    · exact hjoin _ (h.unmarked d hd ha hmd)

/-- **Knowing everything.** An unmarked event carries the join of all stamps of the log exactly
when its origin knew every marked event of the log. -/
theorem stamp_eq_iff (h : Counting slot About Marked T g.log) (w : g.WellFormed)
    (hc : IsLUB (insert 0 (stamps About T g.log)) c) {a : Event ι Msg} (ha : a ∈ g.log)
    (hab : About a) (hna : ¬ Marked a) :
    T a = c ↔ ∀ m ∈ g.log, Marked m → Knows About m a.deps := by
  have hlub := h.unmarked a ha hab hna
  have hdeps : ∀ d ∈ a.deps, d ∈ g.log := fun d hd => (w.deps_mem ha hd).1
  constructor
  · rintro rfl m hm hr
    rw [h.knows_iff w hdeps hlub hm hr]
    exact hc.1 (Set.mem_insert_of_mem _ ⟨m, ⟨hm, h.about hr⟩, rfl⟩) _
  · intro hall
    have hpos : (0 : κ → ℤ) ≤ T a := hlub.1 (Set.mem_insert _ _)
    refine le_antisymm (hc.1 (Set.mem_insert_of_mem _ ⟨a, ⟨ha, hab⟩, rfl⟩)) (hc.2 ?_)
    rintro _ (rfl | ⟨d, ⟨hd, had⟩, rfl⟩)
    · exact hpos
    · intro k
      rcases h.exists_marked w k d.id d hd rfl had with h0 | ⟨m, hm, hr, rfl, heq⟩
      · exact h0.trans (hpos k)
      · rw [← heq]
        exact (h.knows_iff w hdeps hlub hm hr).mp (hall m hm hr)

/-! ### Closed histories -/

/-- In a closed history there is nothing to know but what is there. -/
theorem mem_iff (h : Counting slot About Marked T g.log) (w : g.WellFormed)
    (hA : ∀ d ∈ A, d ∈ g.log) (hcl : Closed A) (hc : IsLUB (insert 0 (stamps About T A)) c)
    {m : Event ι Msg} (hm : m ∈ g.log) (hr : Marked m) :
    m ∈ A ↔ T m (slot m.origin) ≤ c (slot m.origin) := by
  rw [← h.knows_iff w hA hc hm hr]
  exact ⟨.here, fun hk => hk.mem_of_closed hcl fun _ hd => hd⟩

/-- **Joins compare as histories do.** What one closed history has received is below what
another has exactly when all marked events of the first are in the second. -/
theorem le_iff (h : Counting slot About Marked T g.log) (w : g.WellFormed)
    (hA : ∀ d ∈ A, d ∈ g.log) (hcl : Closed A) (hc : IsLUB (insert 0 (stamps About T A)) c)
    {B : List (Event ι Msg)} {c' : κ → ℤ} (hB : ∀ d ∈ B, d ∈ g.log) (hclB : Closed B)
    (hc' : IsLUB (insert 0 (stamps About T B)) c') :
    c ≤ c' ↔ ∀ m ∈ A, Marked m → m ∈ B := by
  constructor
  · intro hle m hm hmm
    rw [h.mem_iff w hB hclB hc' (hA m hm) hmm]
    exact ((h.mem_iff w hA hcl hc (hA m hm) hmm).mp hm).trans (hle _)
  · intro hall
    refine hc.2 ?_
    rintro _ (rfl | ⟨d, ⟨hd, ha⟩, rfl⟩)
    · exact hc'.1 (Set.mem_insert _ _)
    · intro k
      rcases h.exists_marked w k d.id d (hA d hd) rfl ha with h0 | ⟨m, hm, hmm, rfl, heq⟩
      · exact h0.trans (hc'.1 (Set.mem_insert _ _) k)
      · have hmA : m ∈ A := by
          rw [h.mem_iff w hA hcl hc hm hmm, heq]
          exact hc.1 (Set.mem_insert_of_mem _ ⟨d, ⟨hd, ha⟩, rfl⟩) _
        rw [← heq]
        exact (h.mem_iff w hB hclB hc' hm hmm).mp (hall m hmA hmm)

/-- **What comes next.** A marked event that has not been applied, but whose history has, counts
exactly one more at its origin's slot than what has been received, and nothing new elsewhere. -/
theorem next (h : Counting slot About Marked T g.log) (w : g.WellFormed)
    (hA : ∀ d ∈ A, d ∈ g.log) (hcl : Closed A) (hc : IsLUB (insert 0 (stamps About T A)) c)
    {e : Event ι Msg} (he : e ∈ g.log) (hr : Marked e) (heA : e ∉ A)
    (hdeps : ∀ d ∈ e.deps, d ∈ A) :
    (∀ k, k ≠ slot e.origin → T e k ≤ c k) ∧
      T e (slot e.origin) = c (slot e.origin) + 1 := by
  obtain ⟨c', hc', hT⟩ := h.marked e he hr
  have hle : c' ≤ c := by
    refine hc'.mono hc (Set.insert_subset_insert ?_)
    rintro _ ⟨d, ⟨hd, ha⟩, rfl⟩
    exact ⟨d, ⟨hdeps d hd, ha⟩, rfl⟩
  have hlt : c (slot e.origin) < T e (slot e.origin) :=
    not_le.mp (heA ∘ (h.mem_iff w hA hcl hc he hr).mpr)
  have hown : T e (slot e.origin) = c' (slot e.origin) + 1 := by rw [hT, Function.update_self]
  refine ⟨fun k hk => ?_, ?_⟩
  · rw [hT, Function.update_of_ne hk]
    exact hle k
  · have hle' : c' (slot e.origin) ≤ c (slot e.origin) := hle _
    omega

/-- **Concurrency.** The stamp of such an event is above everything received exactly when
everything received was known to its origin. -/
theorem le_next_iff (h : Counting slot About Marked T g.log) (w : g.WellFormed)
    (hA : ∀ d ∈ A, d ∈ g.log) (hcl : Closed A) (hc : IsLUB (insert 0 (stamps About T A)) c)
    {e : Event ι Msg} (he : e ∈ g.log) (hr : Marked e) (heA : e ∉ A)
    (hdeps : ∀ d ∈ e.deps, d ∈ A) (hcle : Closed e.deps) :
    c ≤ T e ↔ ∀ m ∈ A, Marked m → m ∈ e.deps := by
  obtain ⟨-, hnext⟩ := h.next w hA hcl hc he hr heA hdeps
  obtain ⟨c', hc', hT⟩ := h.marked e he hr
  have hlog : ∀ d ∈ e.deps, d ∈ g.log := fun d hd => hA d (hdeps d hd)
  have hle : c' ≤ T e := by
    rw [hT, le_update_iff]
    exact ⟨by omega, fun _ _ => le_rfl⟩
  have hown : T e (slot e.origin) = c' (slot e.origin) + 1 := by rw [hT, Function.update_self]
  constructor
  · intro hce m hm hmm
    have hmc : T m (slot m.origin) ≤ c (slot m.origin) :=
      (h.mem_iff w hA hcl hc (hA m hm) hmm).mp hm
    rw [h.mem_iff w hlog hcle hc' (hA m hm) hmm]
    by_cases ho : slot m.origin = slot e.origin
    · rw [ho] at hmc ⊢
      omega
    · have := hce (slot m.origin)
      rw [hT, Function.update_of_ne ho] at this
      exact hmc.trans this
  · exact fun hall => ((h.le_iff w hA hcl hc hlog hcle hc').mpr hall).trans hle

end Counting

end Replicated
