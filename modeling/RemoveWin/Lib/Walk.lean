import Mathlib

/-!
# Walks over a graph, by fuel

Two loops that follow pointers until nothing is left to follow. `queueWalk` is a breadth-first
walk that does not remember where it has been; `climb` goes up single links until it meets the
root. Neither need terminate, so both take fuel and return `none` when it runs out. What they
return does not depend on the fuel, and they return when the graph is well founded below, or
above, the starting point.

`Ranked` is the invariant that gives well-foundedness in both directions: a rank that drops along
every edge and is bounded. It survives the removal of edges, and the addition of edges into one
node that close no loop.

## Main results

* `Walk.mem_of_queueWalk`, `Walk.exists_queueWalk`, `Walk.queueWalk_eq_none` — what the queue walk
  visits, when it ends and when not
* `Walk.queueWalk_mono`, `Walk.climb_mono` — that more fuel changes nothing
* `Walk.climbs_iff_of_climb`, `Walk.exists_climb`, `Walk.climb_eq_none` — what the climb decides,
  when it ends and when not
* `Walk.Ranked.insert` — adding edges that close no loop
* `Walk.acc_of_unique` — graphs in which nodes have one parent at most
-/

namespace Walk

variable {α : Type}

/-! ### The queue walk -/

section

variable (alive : α → Bool) (next : α → List α)

/-- Take nodes from the queue, drop the dead ones, and queue the successors of the others. The
result lists the nodes that were alive, in the order they were taken. -/
def queueWalk : ℕ → List α → Option (List α)
  | _, [] => some []
  | 0, _ :: _ => none
  | n + 1, x :: q =>
    if alive x then (queueWalk n (q ++ next x)).map (x :: ·) else queueWalk n q

/-- `y` is visited by a walk that starts at `x`: every node up to and including `y` is alive. -/
inductive Visits : α → α → Prop
  | here {x : α} (hx : alive x) : Visits x x
  | step {x y z : α} (hx : alive x) (hy : y ∈ next x) (hz : Visits y z) : Visits x z

/-- The nodes a walk goes on to from `x`. -/
def Below (y x : α) : Prop := alive x ∧ y ∈ next x

end

section

variable {alive : α → Bool} {next : α → List α}

theorem Visits.end_alive {x y : α} (h : Visits alive next x y) : alive y := by
  induction h with
  | here hx => exact hx
  | step _ _ _ ih => exact ih

/-- A visited node that is not the start was reached from a visited one. -/
theorem Visits.tail {x y z : α} (h : Visits alive next x y) (hz : z ∈ next y) (ha : alive z) :
    Visits alive next x z := by
  induction h with
  | here hx => exact .step hx hz (.here ha)
  | step hx hy _ ih => exact .step hx hy (ih hz)

/-- A visited node is the start or comes after some node. -/
theorem Visits.eq_or_mem_next {x z : α} (h : Visits alive next x z) :
    z = x ∨ ∃ y, alive y ∧ z ∈ next y := by
  induction h with
  | here _ => exact .inl rfl
  | step hx hy _ ih =>
    rcases ih with rfl | hz
    · exact .inr ⟨_, hx, hy⟩
    · exact .inr hz

theorem visits_iff {x z : α} :
    Visits alive next x z ↔ alive x ∧ (x = z ∨ ∃ y ∈ next x, Visits alive next y z) := by
  constructor
  · rintro (hx | ⟨hx, hy, hz⟩)
    · exact ⟨hx, .inl rfl⟩
    · exact ⟨hx, .inr ⟨_, hy, hz⟩⟩
  · rintro ⟨hx, rfl | ⟨y, hy, hz⟩⟩
    · exact .here hx
    · exact .step hx hy hz

/-- What is visited does not depend on the order of successors, nor on dead ones. -/
theorem Visits.mono {alive' : α → Bool} {next' : α → List α} {x z : α}
    (h : Visits alive next x z) (ha : ∀ y, alive y → alive' y)
    (hn : ∀ x y, alive y → y ∈ next x → y ∈ next' x) : Visits alive' next' x z := by
  induction h with
  | here hx => exact .here (ha _ hx)
  | step hx hy hz ih => exact .step (ha _ hx) (hn _ _ (visits_iff.mp hz).1 hy) ih

/-- **What the walk returns**: everything visited from the queue, whatever the fuel. -/
theorem mem_of_queueWalk {n : ℕ} {q l : List α} (h : queueWalk alive next n q = some l) (z : α) :
    z ∈ l ↔ ∃ x ∈ q, Visits alive next x z := by
  induction n generalizing q l with
  | zero =>
    cases q with
    | nil =>
      obtain rfl : [] = l := by simpa [queueWalk] using h
      simp
    | cons x q => simp [queueWalk] at h
  | succ n ih =>
    cases q with
    | nil =>
      obtain rfl : [] = l := by simpa [queueWalk] using h
      simp
    | cons x q =>
      rw [queueWalk] at h
      rw [List.exists_mem_cons_iff, visits_iff]
      split at h
      · next hx =>
        obtain ⟨l', hl', rfl⟩ := Option.map_eq_some_iff.mp h
        rw [List.mem_cons, ih hl']
        simp only [List.mem_append, or_and_right, exists_or, hx, true_and, eq_comm]
        exact (or_congr_right or_comm).trans or_assoc.symm
      · next hx =>
        rw [ih h]
        simp [hx]

/-- More fuel changes nothing. -/
theorem queueWalk_mono {n m : ℕ} {q l : List α} (h : queueWalk alive next n q = some l)
    (hnm : n ≤ m) : queueWalk alive next m q = some l := by
  induction n generalizing m q l with
  | zero =>
    cases q with
    | nil => cases m <;> exact h
    | cons x q => cases h
  | succ n ih =>
    obtain ⟨m, rfl⟩ : ∃ m', m = m' + 1 := ⟨m - 1, by omega⟩
    cases q with
    | nil => exact h
    | cons x q =>
      rw [queueWalk] at h ⊢
      split at h
      · next hx =>
        obtain ⟨l', hl', rfl⟩ := Option.map_eq_some_iff.mp h
        rw [if_pos hx, ih hl' (by omega), Option.map_some]
      · next hx => rw [if_neg hx, ih h (by omega)]

/-- Fuel `n` is enough for a walk from one node, and this is how much of it is used. -/
inductive Cost (alive : α → Bool) (next : α → List α) : α → ℕ → Prop
  | dead {x : α} (hx : ¬ alive x) : Cost alive next x 1
  | alive {x : α} {ns : List ℕ} (hx : alive x) (hns : List.Forall₂ (Cost alive next) (next x) ns) :
      Cost alive next x (1 + ns.sum)

theorem exists_costs {l : List α} (h : ∀ y ∈ l, ∃ n, Cost alive next y n) :
    ∃ ns, List.Forall₂ (Cost alive next) l ns := by
  induction l with
  | nil => exact ⟨[], .nil⟩
  | cons y l ih =>
    obtain ⟨n, hn⟩ := h y (by simp)
    obtain ⟨ns, hns⟩ := ih fun z hz => h z (by simp [hz])
    exact ⟨n :: ns, .cons hn hns⟩

theorem exists_cost {x : α} (h : Acc (Below alive next) x) : ∃ n, Cost alive next x n := by
  induction h with
  | intro x _ ih =>
    by_cases hx : alive x
    · obtain ⟨ns, hns⟩ := exists_costs fun y hy => ih y ⟨hx, hy⟩
      exact ⟨_, .alive hx hns⟩
    · exact ⟨1, .dead hx⟩

theorem queueWalk_of_cost {n : ℕ} {q : List α} {ns : List ℕ}
    (h : List.Forall₂ (Cost alive next) q ns) (hn : ns.sum ≤ n) :
    ∃ l, queueWalk alive next n q = some l := by
  induction n generalizing q ns with
  | zero =>
    cases h with
    | nil => exact ⟨[], rfl⟩
    | cons hc _ => cases hc <;> simp at hn
  | succ n ih =>
    cases h with
    | nil => exact ⟨[], rfl⟩
    | @cons x m q ns hc hq =>
      rw [queueWalk]
      cases hc with
      | dead hx =>
        rw [if_neg hx]
        exact ih hq (by simp at hn; omega)
      | @alive _ ms hx hms =>
        rw [if_pos hx]
        obtain ⟨l, hl⟩ := ih (List.rel_append hq hms) (by simp at hn ⊢; omega)
        exact ⟨x :: l, by rw [hl]; rfl⟩

/-- **The walk ends** when no infinite path of alive nodes starts in the queue. -/
theorem exists_queueWalk {q : List α} (h : ∀ x ∈ q, Acc (Below alive next) x) :
    ∃ n l, queueWalk alive next n q = some l := by
  obtain ⟨ns, hns⟩ := exists_costs fun y hy => exists_cost (h y hy)
  exact ⟨ns.sum, queueWalk_of_cost hns le_rfl⟩

/-- A walk whose queue holds one of several nodes that are alive and lead to each other does not
end. -/
theorem queueWalk_eq_none {P : α → Prop} (hP : ∀ x, P x → alive x ∧ ∃ y ∈ next x, P y)
    {q : List α} (hq : ∃ x ∈ q, P x) (n : ℕ) : queueWalk alive next n q = none := by
  induction n generalizing q with
  | zero =>
    cases q with
    | nil => simp at hq
    | cons x q => rfl
  | succ n ih =>
    cases q with
    | nil => simp at hq
    | cons x q =>
      rw [queueWalk]
      by_cases hx : P x
      · obtain ⟨hal, y, hy, hPy⟩ := hP x hx
        rw [if_pos hal, ih ⟨y, by simp [hy], hPy⟩, Option.map_none]
      · obtain ⟨z, hz, hPz⟩ := hq
        have hz : z ∈ q := (List.mem_cons.mp hz).resolve_left fun h => hx (h ▸ hPz)
        split
        · rw [ih ⟨z, by simp [hz], hPz⟩, Option.map_none]
        · exact ih ⟨z, hz, hPz⟩

end

/-! ### The climb -/

section

variable [DecidableEq α] (root : α) (alive : α → Bool) (up : α → Option α)

/-- Go up from `x` until the root or a dead node is met. A node that is alive and has no link
ends the climb as lack of fuel does. -/
def climb : ℕ → α → Option Bool
  | 0, x => if x = root then some true else none
  | n + 1, x =>
    if x = root then some true
    else if alive x then (up x).bind (climb n) else some false

/-- `x` leads up to the root, through nodes that are alive. -/
inductive Climbs : α → Prop
  | root : Climbs root
  | step {x y : α} (hne : x ≠ root) (hx : alive x) (hy : up x = some y) (h : Climbs y) : Climbs x

/-- The node a climb goes on to from `x`. -/
def Above (y x : α) : Prop := x ≠ root ∧ alive x ∧ up x = some y

end

section

variable [DecidableEq α] {root : α} {alive : α → Bool} {up : α → Option α}

omit [DecidableEq α] in
theorem climbs_iff {x : α} : Climbs root alive up x ↔
    x = root ∨ (x ≠ root ∧ alive x ∧ ∃ y, up x = some y ∧ Climbs root alive up y) := by
  constructor
  · rintro (_ | ⟨hne, hx, hy, h⟩)
    · exact .inl rfl
    · exact .inr ⟨hne, hx, _, hy, h⟩
  · rintro (rfl | ⟨hne, hx, y, hy, h⟩)
    · exact .root
    · exact .step hne hx hy h

/-- **What the climb decides**, whatever the fuel. -/
theorem climbs_iff_of_climb {n : ℕ} {x : α} {b : Bool} (h : climb root alive up n x = some b) :
    b = true ↔ Climbs root alive up x := by
  induction n generalizing x with
  | zero =>
    rw [climb] at h
    split at h
    · next hx => simp [← Option.some.inj h, hx, Climbs.root]
    · cases h
  | succ n ih =>
    rw [climb] at h
    split at h
    · next hx => simp [← Option.some.inj h, hx, Climbs.root]
    · next hne =>
      split at h
      · next hx =>
        obtain ⟨y, hy, hb⟩ := Option.bind_eq_some_iff.mp h
        rw [ih hb, climbs_iff (x := x)]
        simp [hne, hx, hy]
      · next hx =>
        rw [← Option.some.inj h, climbs_iff]
        simp [hne, hx]

/-- More fuel changes nothing. -/
theorem climb_mono {n m : ℕ} {x : α} {b : Bool} (h : climb root alive up n x = some b)
    (hnm : n ≤ m) : climb root alive up m x = some b := by
  induction n generalizing m x with
  | zero =>
    rw [climb, Option.ite_none_right_eq_some] at h
    cases m <;> rw [climb, if_pos h.1, h.2]
  | succ n ih =>
    obtain ⟨m, rfl⟩ : ∃ m', m = m' + 1 := ⟨m - 1, by omega⟩
    rw [climb] at h ⊢
    split at h
    · next hx => rw [if_pos hx, h]
    · next hne =>
      rw [if_neg hne]
      split at h
      · next hx =>
        obtain ⟨y, hy, hb⟩ := Option.bind_eq_some_iff.mp h
        rw [if_pos hx, hy, Option.bind_some, ih hb (by omega)]
      · next hx => rw [if_neg hx, h]

/-- A climb among nodes that are alive, lead to each other and are not the root does not end. -/
theorem climb_eq_none {P : α → Prop}
    (hP : ∀ x, P x → x ≠ root ∧ alive x ∧ ∃ y, up x = some y ∧ P y) {x : α} (hx : P x) (n : ℕ) :
    climb root alive up n x = none := by
  induction n generalizing x with
  | zero => rw [climb, if_neg (hP x hx).1]
  | succ n ih =>
    obtain ⟨hne, hal, y, hy, hPy⟩ := hP x hx
    rw [climb, if_neg hne, if_pos hal, hy, Option.bind_some, ih hPy]

/-- **The climb ends** when no infinite chain of links starts at `x` and every node on the way
that is alive has a link. -/
theorem exists_climb {x : α} (hlink : ∀ y, y ≠ root → alive y → up y ≠ none)
    (h : Acc (Above root alive up) x) : ∃ n b, climb root alive up n x = some b := by
  induction h with
  | intro x _ ih =>
    by_cases hr : x = root
    · exact ⟨0, true, by rw [climb, if_pos hr]⟩
    · by_cases hx : alive x
      · obtain ⟨y, hy⟩ := Option.ne_none_iff_exists'.mp (hlink x hr hx)
        obtain ⟨n, b, hb⟩ := ih y ⟨hr, hx, hy⟩
        exact ⟨n + 1, b, by rw [climb, if_neg hr, if_pos hx, hy, Option.bind_some, hb]⟩
      · exact ⟨1, false, by rw [climb, if_neg hr, if_neg hx]⟩

end

/-! ### Ranks -/

section

variable {R R' : α → α → Prop}

/-- Some bounded rank drops along every edge. -/
def Ranked (R : α → α → Prop) : Prop :=
  ∃ (bound : ℕ) (rank : α → ℕ), (∀ x, rank x ≤ bound) ∧ ∀ x y, R x y → rank y < rank x

theorem ranked_of_empty (h : ∀ x y, ¬ R x y) : Ranked R :=
  ⟨0, fun _ => 0, fun _ => le_rfl, fun x y hR => absurd hR (h x y)⟩

theorem Ranked.mono (h : Ranked R) (hR : ∀ x y, R' x y → R x y) : Ranked R' := by
  obtain ⟨bound, rank, hb, hr⟩ := h
  exact ⟨bound, rank, hb, fun x y hxy => hr x y (hR x y hxy)⟩

/-- No infinite path goes down. -/
theorem Ranked.acc_down (h : Ranked R) (x : α) : Acc (fun y x => R x y) x := by
  obtain ⟨_, rank, _, hr⟩ := h
  exact Subrelation.accessible (fun hxy => hr _ _ hxy) ((measure rank).wf.apply x)

/-- No infinite path goes up: ranks are bounded. -/
theorem Ranked.acc_up (h : Ranked R) (x : α) : Acc R x := by
  obtain ⟨bound, rank, hb, hr⟩ := h
  refine Subrelation.accessible (fun {y x} hyx => ?_) ((measure fun x => bound - rank x).wf.apply x)
  have hlt := hr y x hyx
  have hle := hb y
  exact show bound - rank y < bound - rank x by omega

theorem Ranked.not_transGen_self (h : Ranked R) (x : α) : ¬ Relation.TransGen R x x := by
  obtain ⟨_, rank, _, hr⟩ := h
  have hlt : ∀ y, Relation.TransGen R x y → rank y < rank x := by
    intro y hy
    induction hy with
    | single hxy => exact hr _ _ hxy
    | tail _ hyz ih => exact (hr _ _ hyz).trans ih
  exact fun hx => Nat.lt_irrefl _ (hlt x hx)

open scoped Classical in
/-- **Adding edges into one node that close no loop.** Everything from which a new edge can be
reached is lifted above the far end of it. -/
theorem Ranked.insert (h : Ranked R) {P : α → Prop} {x : α}
    (hno : ∀ p, P p → ¬ Relation.ReflTransGen R x p) : Ranked fun a b => R a b ∨ (P a ∧ b = x) := by
  obtain ⟨bound, rank, hb, hr⟩ := h
  refine ⟨bound + (rank x + 1), fun k =>
    if ∃ p, P p ∧ Relation.ReflTransGen R k p then rank k + (rank x + 1) else rank k, ?_, ?_⟩
  · intro k
    have := hb k
    dsimp only
    split <;> omega
  · rintro a b (hab | ⟨ha, rfl⟩)
    · have hlt := hr a b hab
      by_cases hbp : ∃ p, P p ∧ Relation.ReflTransGen R b p
      · obtain ⟨p, hp, hpath⟩ := hbp
        have hap : ∃ p, P p ∧ Relation.ReflTransGen R a p := ⟨p, hp, .head hab hpath⟩
        simp only [if_pos hap, if_pos (⟨p, hp, hpath⟩ : ∃ p, P p ∧ Relation.ReflTransGen R b p)]
        omega
      · simp only [if_neg hbp]
        split <;> omega
    · have hbx : ¬ ∃ p, P p ∧ Relation.ReflTransGen R b p := fun ⟨p, hp, hpath⟩ => hno p hp hpath
      simp only [if_pos (⟨a, ha, .refl⟩ : ∃ p, P p ∧ Relation.ReflTransGen R a p), if_neg hbx]
      omega

end

/-! ### Single parents -/

section

variable {R : α → α → Prop} {root : α}

/-- A loop at the end of an edge is a loop at its start, if the edge is the only one that leads
there. -/
theorem transGen_self_of_edge (huniq : ∀ x x' y, R x y → R x' y → x = x') {x y : α}
    (hxy : R x y) (hy : Relation.TransGen R y y) : Relation.TransGen R x x := by
  obtain ⟨z, hyz, hzy⟩ := Relation.TransGen.tail'_iff.mp hy
  obtain rfl := huniq _ _ _ hxy hzy
  exact Relation.TransGen.head' hxy hyz

/-- What leads to a node below the root is below the root. -/
theorem reflTransGen_root_of_below (huniq : ∀ x x' y, R x y → R x' y → x = x')
    (hroot : ∀ x, ¬ R x root) {x y : α} (hy : Relation.ReflTransGen R root y)
    (hx : Relation.ReflTransGen R x y) : Relation.ReflTransGen R root x := by
  induction hx with
  | refl => exact hy
  | tail _ hbc ih =>
    rcases hy.cases_tail with rfl | ⟨b, hb, hb'⟩
    · exact absurd hbc (hroot _)
    · exact ih (huniq _ _ _ hb' hbc ▸ hb)

/-- **Walks from a root end** in a finite graph where nodes have one parent at most and the root
has none. -/
theorem acc_of_unique (hfin : {y | ∃ x, R x y}.Finite)
    (huniq : ∀ x x' y, R x y → R x' y → x = x') (hroot : ∀ x, ¬ R x root) :
    Acc (fun y x => R x y) root := by
  have hloop : ∀ {y}, Relation.ReflTransGen R root y → ¬ Relation.TransGen R y y := by
    intro y hy
    induction hy with
    | refl =>
      intro hrr
      obtain ⟨z, -, hz⟩ := Relation.TransGen.tail'_iff.mp hrr
      exact hroot z hz
    | tail _ hyz ih => exact fun hzz => ih (transGen_self_of_edge huniq hyz hzz)
  have hbelow : ∀ x, {y | Relation.TransGen R x y}.Finite := fun x =>
    hfin.subset fun y hy => by
      obtain ⟨z, -, hz⟩ := Relation.TransGen.tail'_iff.mp hy
      exact ⟨z, hz⟩
  -- what can be reached shrinks along every edge
  suffices h : ∀ n x, Relation.ReflTransGen R root x → {y | Relation.TransGen R x y}.ncard = n →
      Acc (fun y x => R x y) x from h _ root .refl rfl
  intro n
  induction n using Nat.strong_induction_on with
  | _ n ih =>
    intro x hx hn
    refine Acc.intro x fun y hxy => ?_
    have hy := hx.tail hxy
    refine ih _ ?_ y hy rfl
    rw [← hn]
    refine Set.ncard_lt_ncard (Set.ssubset_iff_exists.mpr ⟨fun z hyz => .head hxy hyz, y, ?_, ?_⟩)
      (hbelow x)
    · exact .single hxy
    · exact hloop hy

end

end Walk
