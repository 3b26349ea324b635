import RemoveWin.Lib.OpBased

/-!
# Building and completing runs

Runs are built here act by act. What an act does is stated through the lists of what the replicas
have applied: if prepare halves only read, these determine the states.

## Main results

* `Replicated.Steps.strengthen` — conditions that are always met
* `Replicated.OpBased.step_refused`, `step_accepted`, `step_deliver` — when an act is possible
* `Replicated.Steps.exists_issue`, `Steps.exists_deliver` — one more act
* `Replicated.Steps.exists_delivered` — any run can be completed
* `Replicated.Reachable.state_eq_foldl` — states, from what has been applied
-/

namespace Replicated

variable {ι σ Cmd Msg : Type}

/-- Something a replica has not applied although it has applied all that it depends on. -/
theorem Net.WellFormed.exists_ready {g : Net ι σ Msg} (w : g.WellFormed) {r : ι}
    {e : Event ι Msg} (he : e ∈ g.log) (hr : e ∉ g.applied r) :
    ∃ e ∈ g.log, e ∉ g.applied r ∧ ∀ d ∈ e.deps, d ∈ g.applied r := by
  -- the one with the least number
  induction hn : e.id using Nat.strong_induction_on generalizing e with
  | _ n ih =>
    by_cases hdeps : ∀ d ∈ e.deps, d ∈ g.applied r
    · exact ⟨e, he, hr, hdeps⟩
    · push Not at hdeps
      obtain ⟨d, hd, hdr⟩ := hdeps
      obtain ⟨hdlog, hlt⟩ := w.deps_mem he hd
      exact ih d.id (hn ▸ hlt) hdlog hdr rfl

/-- A replica that has not applied a message has room for it. -/
theorem Net.WellFormed.applied_length_lt {g : Net ι σ Msg} (w : g.WellFormed) {r : ι}
    {e : Event ι Msg} (he : e ∈ g.log) (hr : e ∉ g.applied r) :
    (g.applied r).length < g.log.length := by
  have hnodup : (e :: g.applied r).Nodup := List.nodup_cons.mpr ⟨hr, (w.applied_nodup r).of_map⟩
  have hsub : e :: g.applied r ⊆ g.log := List.cons_subset.mpr ⟨he, fun _ => w.applied_mem⟩
  exact (hnodup.subperm hsub).length_le

section

variable [DecidableEq ι] {S : OpBased ι σ Cmd Msg} {C : Cond ι σ Cmd Msg} {g₀ g : Net ι σ Msg}

/-- If prepare halves only read, the state of a replica is what it has applied. -/
theorem Reachable.state_eq_foldl
    (hprep : ∀ {r c s s' o}, S.prepare r c s = some (s', o) → s' = s) (h : Reachable S C g)
    (r : ι) : g.state r = (g.applied r).foldl (fun s e => S.effect r e.msg s) (S.init r) := by
  refine h.local_invariant
    (I := fun r A s => s = A.foldl (fun s e => S.effect r e.msg s) (S.init r)) ?_ ?_ ?_ r
  · exact fun r => rfl
  · intro g g' r c s o _ _ hp hI
    rw [hprep hp, hI]
  · intro g' r e A s _ _ _ hI
    rw [List.foldl_concat, hI]

/-- A condition that all acts of a run meet can be assumed of them. -/
theorem Steps.strengthen {C' : Cond ι σ Cmd Msg}
    (hC : ∀ {g a g'}, Steps S C g₀ g → Steps S C g₀ g' → C g a g' → C' g a g')
    (h : Steps S C g₀ g) : Steps S C' g₀ g := by
  induction h with
  | refl => exact .refl
  | tail hg hc hs ih => exact ih.tail (hC hg (hg.tail hc hs) hc) hs

theorem OpBased.step_refused {r : ι} {c : Cmd} {s : σ}
    (hp : S.prepare r c (g.state r) = some (s, none)) :
    S.step g (.client r c) = some (g.setState r s) := by
  simp [OpBased.step, hp]

theorem OpBased.step_accepted {r : ι} {c : Cmd} {s : σ} {m : Msg}
    (hp : S.prepare r c (g.state r) = some (s, some m)) :
    S.step g (.client r c) =
      some ((g.announce (g.event r m)).apply r (g.event r m) (S.effect r m s)) := by
  simp [OpBased.step, hp]

theorem OpBased.step_deliver {r : ι} {i : ℕ} {e : Event ι Msg} (he : g.log[i]? = some e)
    (hi : i ∉ g.appliedIds r) :
    S.step g (.deliver r i) = some (g.apply r e (S.effect r e.msg (g.state r))) := by
  simp [OpBased.step, he, hi]

/-- A command that is accepted. -/
theorem Steps.exists_issue {r : ι} {c : Cmd} {s : σ} {m : Msg} (h : Steps S C g₀ g)
    (hp : S.prepare r c (g.state r) = some (s, some m)) (hC : ∀ g', C g (.client r c) g') :
    ∃ g', Steps S C g₀ g' ∧ g'.log = g.log ++ [g.event r m] ∧
      g'.applied r = g.applied r ++ [g.event r m] ∧
      ∀ r', r' ≠ r → g'.applied r' = g.applied r' := by
  exact ⟨_, h.tail (hC _) (OpBased.step_accepted hp), rfl, Net.apply_applied_self ..,
    fun r' hr' => Net.apply_applied_of_ne _ _ _ hr'⟩

/-- A delivery in causal order. -/
theorem Steps.exists_deliver (h0 : g₀.WellFormed)
    (hC : ∀ {g r i g'}, (causal : Cond ι σ Cmd Msg) g (.deliver r i) g' → C g (.deliver r i) g')
    {r : ι} {e : Event ι Msg} (h : Steps S C g₀ g) (he : e ∈ g.log) (hr : e ∉ g.applied r)
    (hdeps : ∀ d ∈ e.deps, d ∈ g.applied r) :
    ∃ g', Steps S C g₀ g' ∧ g'.log = g.log ∧ g'.applied r = g.applied r ++ [e] ∧
      ∀ r', r' ≠ r → g'.applied r' = g.applied r' := by
  have w : g.WellFormed := h.wellFormed h0
  have hcausal : ∀ g', (causal : Cond ι σ Cmd Msg) g (.deliver r e.id) g' := by
    intro g' e' he' d hd
    rw [w.getElem?_id he] at he'
    cases he'
    exact List.mem_map_of_mem (hdeps d hd)
  have hi : e.id ∉ g.appliedIds r := fun hi => hr ((w.mem_applied_iff he r).mp hi)
  have hs := OpBased.step_deliver (S := S) (w.getElem?_id he) hi
  exact ⟨_, h.tail (hC (hcausal _)) hs, rfl, Net.apply_applied_self ..,
    fun r' hr' => Net.apply_applied_of_ne _ _ _ hr'⟩

/-- **Any run can be completed**, without touching the replicas that have applied everything. -/
theorem Steps.exists_delivered [Fintype ι] (h0 : g₀.WellFormed)
    (hC : ∀ {g r i g'}, (causal : Cond ι σ Cmd Msg) g (.deliver r i) g' → C g (.deliver r i) g')
    (h : Steps S C g₀ g) :
    ∃ g', Steps S C g₀ g' ∧ Delivered g' ∧ g'.log = g.log ∧
      ∀ r, (∀ e ∈ g.log, e ∈ g.applied r) → g'.applied r = g.applied r := by
  -- by the number of deliveries that are missing
  induction hn : ∑ r, (g.log.length - (g.applied r).length) using Nat.strong_induction_on
    generalizing g with
  | _ n ih =>
    by_cases hd : Delivered g
    · exact ⟨g, h, hd, rfl, fun _ _ => rfl⟩
    · have w : g.WellFormed := h.wellFormed h0
      rw [Delivered] at hd
      push Not at hd
      obtain ⟨r, e', he', hr'⟩ := hd
      obtain ⟨e, he, hr, hdeps⟩ := w.exists_ready he' hr'
      have hlen := w.applied_length_lt he hr
      obtain ⟨g₁, h₁, hlog₁, hself, hother⟩ := h.exists_deliver h0 hC he hr hdeps
      have hfewer : ∑ r', (g₁.log.length - (g₁.applied r').length) < n := by
        rw [← hn, hlog₁]
        refine Finset.sum_lt_sum (fun r' _ => ?_) ⟨r, Finset.mem_univ r, ?_⟩
        · by_cases hne : r' = r
          · subst hne
            rw [hself, List.length_append]
            omega
          · rw [hother r' hne]
        · rw [hself, List.length_append, List.length_singleton]
          omega
      obtain ⟨g', hg', hd', hlog, hsame⟩ := ih _ hfewer h₁ rfl
      refine ⟨g', hg', hd', hlog.trans hlog₁, fun r' hall => ?_⟩
      have hne : r' ≠ r := by
        rintro rfl
        exact hr (hall e he)
      rw [hsame r' (by rwa [hlog₁, hother r' hne]), hother r' hne]

end

end Replicated
