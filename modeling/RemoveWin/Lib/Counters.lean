import RemoveWin.Lib.OpBased

/-!
# Names drawn from counters

A common way to make names that are unique in a whole run without any coordination: a replica
keeps a counter, puts its value together with its own identity into a name, and moves the counter
on. The counters may be kept per cell of the state, and one message may draw several names. Nothing
is assumed about delivery.
-/

namespace Replicated

variable {ι σ Cmd Msg κ τ : Type}

/-- Counters for the cells `κ` of a state, and the names `τ` that messages draw from them. -/
structure Counters (ι σ Msg κ τ : Type) where
  /-- The counter of a cell. -/
  cur : σ → κ → ℤ
  /-- The names a message draws for a cell. -/
  names : Msg → κ → List τ
  /-- The name a replica makes of a value of a counter. -/
  name : ι → ℤ → τ
  /-- The name tells both. -/
  name_injective : ∀ {r r' : ι} {c c' : ℤ}, name r c = name r' c' → r = r' ∧ c = c'

namespace Counters

/-- What a prepare half of replica `r` does that draws its names properly. -/
structure Prepares (K : Counters ι σ Msg κ τ) (r : ι) (s s' : σ) (o : Option Msg) : Prop where
  /-- Counters do not move back. -/
  le : ∀ k, K.cur s k ≤ K.cur s' k
  /-- The names come from what the counters moved over. -/
  drawn : ∀ m ∈ o, ∀ k, ∀ t ∈ K.names m k, ∃ c, K.cur s k ≤ c ∧ c < K.cur s' k ∧ t = K.name r c
  /-- No cell gets a name twice. -/
  nodup : ∀ m ∈ o, ∀ k, (K.names m k).Nodup

/-- The names drawn so far: they name their origin, its counters are past them, and none was drawn
twice. -/
structure Drawn (K : Counters ι σ Msg κ τ) (g : Net ι σ Msg) : Prop where
  /-- Where a name comes from. -/
  origin : ∀ e ∈ g.log, ∀ k, ∀ t ∈ K.names e.msg k,
    ∃ c, c < K.cur (g.state e.origin) k ∧ t = K.name e.origin c
  /-- No name of a cell was drawn twice. -/
  nodup : ∀ k, (g.log.flatMap fun e => K.names e.msg k).Nodup

section

variable [DecidableEq ι] {K : Counters ι σ Msg κ τ} {g : Net ι σ Msg}

theorem Drawn.setState (h : K.Drawn g) (r : ι) (s : σ)
    (hle : ∀ k, K.cur (g.state r) k ≤ K.cur s k) : K.Drawn (g.setState r s) where
  origin e he k t ht := by
    obtain ⟨c, hc, rfl⟩ := h.origin e he k t ht
    refine ⟨c, ?_, rfl⟩
    by_cases hr : e.origin = r
    · rw [hr, Net.setState_state_self]
      exact (hr ▸ hc).trans_le (hle k)
    · rwa [Net.setState_state_of_ne _ _ hr]
  nodup := h.nodup

/-- A new message draws past what its origin drew before, and under its own name. -/
theorem Drawn.issue {r : ι} {s s' : σ} {m : Msg} (h : K.Drawn g)
    (hp : K.Prepares r (g.state r) s (some m)) (heff : ∀ k, K.cur s' k = K.cur s k) :
    K.Drawn ((g.announce (g.event r m)).apply r (g.event r m) s') := by
  have hset := h.setState r s' fun k => by
    rw [heff]
    exact hp.le k
  refine ⟨?_, ?_⟩
  · intro e he k t ht
    rw [Net.apply_log, Net.announce_log, List.mem_append, List.mem_singleton] at he
    rcases he with he | rfl
    · exact hset.origin e he k t ht
    · obtain ⟨c, -, hlt, rfl⟩ := hp.drawn m rfl k t ht
      refine ⟨c, ?_, rfl⟩
      show c < K.cur ((g.apply r (g.event r m) s').state r) k
      rw [Net.apply_state_self, heff]
      exact hlt
  · intro k
    rw [Net.apply_log, Net.announce_log, List.flatMap_append, List.flatMap_singleton]
    refine (h.nodup k).append (hp.nodup m rfl k) ?_
    intro t ht ht'
    obtain ⟨e, he, ht⟩ := List.mem_flatMap.mp ht
    obtain ⟨c, hc, hte⟩ := h.origin e he k t ht
    obtain ⟨c', hle, -, hte'⟩ := hp.drawn m rfl k t ht'
    obtain ⟨hr, rfl⟩ := K.name_injective (hte.symm.trans hte')
    rw [hr] at hc
    exact absurd hc (not_lt.mpr hle)

/-- **No name of a cell is drawn twice in a run**, if prepare halves draw properly and effects leave
the counters alone. -/
theorem drawn_of_reachable {S : OpBased ι σ Cmd Msg} {C : Cond ι σ Cmd Msg}
    (hprep : ∀ {g g' : Net ι σ Msg} {r : ι} {c : Cmd} {s : σ} {o : Option Msg},
      C g (.client r c) g' → S.prepare r c (g.state r) = some (s, o) → K.Prepares r (g.state r) s o)
    (heff : ∀ r m s k, K.cur (S.effect r m s) k = K.cur s k) (hg : Reachable S C g) :
    K.Drawn g := by
  refine hg.invariant (P := K.Drawn) ⟨by simp [OpBased.start], by simp [OpBased.start]⟩ ?_
  intro g g' a _ ih hc hs
  obtain ⟨r, c, s, rfl, hp, rfl⟩ | ⟨r, c, s, m, rfl, hp, rfl⟩ | ⟨r, i, e, rfl, he, hi, rfl⟩ :=
    OpBased.step_cases _ hs
  · exact ih.setState r s (hprep hc hp).le
  · exact ih.issue (hprep hc hp) (heff r m s)
  · have hset := ih.setState r (S.effect r e.msg (g.state r)) fun k => (heff ..).ge
    exact ⟨hset.origin, hset.nodup⟩

end

end Counters

end Replicated
