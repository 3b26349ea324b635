import RemoveWin.Tree.Values

/-!
# Concurrent moves

A move that meets no concurrent move of its node takes place. One that does takes place if its
destination is smaller than the parent the node has at that moment. That parent may be the work
of a move that the new one already knew and meant to replace, and then the outcome depends on
whether the concurrent move arrived before or after.

Under causal delivery the parent of a node is the smallest destination among its top moves, as
long as no move replaces another whose destination is smaller than its own and smaller than that
of a third move concurrent with both. In that case all replicas agree in the end. Otherwise they
need not.

## Main results

* `RemoveWin.sameParents_of_structural` — replicas agree once a tree has been built and delivered
* `RemoveWin.rwTree_parents_converge` — and still do after moves that settle
* `RemoveWin.rwTree_parents_diverge` — what happens otherwise
-/

namespace RemoveWin

open Replicated

/-- The keys of the node that is moved and of the destination. -/
def TreeMsg.moveOf : TreeMsg → Option (Sds × Sds)
  | .move dst src _ _ _ => some (sdsnew src, sdsnew dst)
  | _ => none

theorem TreeMsg.sdsnew_of_moveOf {m : TreeMsg} {k p : Sds} (h : m.moveOf = some (k, p)) :
    sdsnew p = p := by
  cases m with
  | move dst src v rDst rSrc =>
    obtain ⟨-, rfl⟩ := Prod.mk.inj (Option.some.inj h)
    exact sdsnew_sdsnew dst
  | _ => cases h

/-- Whether the command moves a node. -/
def TreeCmd.isMove : TreeCmd → Bool
  | .move _ _ => true
  | _ => false

section

variable {N : ℕ}

/-- Clients only move nodes. -/
def onlyMoves : TreeCond N
  | _, .client _ c, _ => c.cmd.isMove
  | _, .deliver _ _, _ => True

instance (g : TreeNet N) (a : Act (Fin N) TreeCall)
    (g' : TreeNet N) : Decidable (onlyMoves g a g') :=
  match a with
  | .client _ c => inferInstanceAs (Decidable (c.cmd.isMove = true))
  | .deliver _ _ => inferInstanceAs (Decidable True)

/-- Only moves, in causal order. -/
def movesOnly : TreeCond N :=
  fun g a g' => causal g a g' ∧ onlyMoves g a g'

instance (g : TreeNet N) (a : Act (Fin N) TreeCall)
    (g' : TreeNet N) : Decidable (movesOnly g a g') :=
  inferInstanceAs (Decidable (_ ∧ _))

/-- The nodes that are there are those of `there`, they have the parents `par`, and the children
sets say the same. The parent string that the root is created with stands for no node. -/
structure Hangs (there : Sds → Prop) (par : Sds → Option Sds) (F : Forest) : Prop where
  exists_iff : ∀ k, (F k).header.Exists ↔ there k
  parent : ∀ k, there k → (F k).parent = par k
  uid : ∀ k, there k → ∃ u, (F k).uid = some u ∧ sdsnew u = k
  /-- The node is a child of its parent and of no other node. -/
  children : ∀ k, there k → ∀ u, (F k).uid = some u → ∀ p, (k = rootId → p ≠ nullId) →
    (u ∈ (F p).children ↔ sdsnewNull (par k) = p)

/-- All replicas are up, have the same nodes, the root among them, under the same parents, and
their children sets agree with their parents. -/
def SameParents (iter : Fin N → Iteration) (g : TreeNet N) : Prop :=
  ∃ there par, there rootId ∧
    ∀ r, ∃ ht, g.state r = some ht ∧ Hangs there par (ht.node (.of iter r))

/-- No move since `g₀` replaces a move with a smaller destination while a third one, concurrent
with both, has a greater destination as well. -/
def MovesSettle (g₀ : TreeNet N) (log : List (TreeEvent N)) :
    Prop :=
  ∀ a ∈ log, ∀ b ∈ log, ∀ c ∈ log, ∀ k p q s, a ∉ g₀.log → a.msg.moveOf = some (k, p) →
    b.msg.moveOf = some (k, q) → c.msg.moveOf = some (k, s) → a ∈ b.deps →
    a ∉ c.deps → c ∉ a.deps → b ∉ c.deps → c ∉ b.deps → p < q → s ≤ p

theorem MovesSettle.of_append {g₀ : TreeNet N}
    {l : List (TreeEvent N)} {e : TreeEvent N}
    (h : MovesSettle g₀ (l ++ [e])) : MovesSettle g₀ l :=
  fun a ha b hb c hc => h a (List.mem_append_left _ ha) b (List.mem_append_left _ hb) c
    (List.mem_append_left _ hc)

/-! ### Ids, in any run -/

variable {iter : Fin N → Iteration} {C₀ C : TreeCond N}
  {g₀ g g' : TreeNet N} {r : Fin N} {e : TreeEvent N}
  {ht : TreeHT}

theorem TreeMsg.onUid_of_exists {srv : Server} {m : TreeMsg} {j : Sds} {h : Reh} {u : Option Sds}
    (hu : h.Exists → u ≠ none) (hex : (m.onHeader srv j h).Exists) : m.onUid j u ≠ none := by
  rw [ne_eq, onUid_eq_none_iff]
  rintro ⟨hnone, hmakes⟩
  exact hu ((exists_of_onHeader hex).resolve_right hmakes) hnone

theorem uid_of_reachable (hg : Reachable (rwTree iter) C g) (r : Fin N) {ht : TreeHT}
    (hs : g.state r = some ht) (k : Sds) :
    ((ht.node (.of iter r) k).header.Exists → (ht.node (.of iter r) k).uid ≠ none) ∧
      ∀ u, (ht.node (.of iter r) k).uid = some u → sdsnew u = k := by
  refine tree_invariant (P := fun _ _ F => ∀ k, ((F k).header.Exists → (F k).uid ≠ none) ∧
    ∀ u, (F k).uid = some u → sdsnew u = k) ?_ ?_ hg r ht hs k
  · intro r ht hs k
    cases hs
    exact ⟨fun hex => absurd hex (not_exists_rtnNew _), fun u hu => by cases hu⟩
  · intro g' r e A ht ht' _ _ _ ih heff k
    have hf := treeEffect_frame heff k
    rw [hf.header, hf.uid]
    refine ⟨TreeMsg.onUid_of_exists (ih k).1, fun u hu => ?_⟩
    cases hm : e.msg with
    | create =>
      rw [hm] at hu
      dsimp only [TreeMsg.onUid] at hu
      split at hu
      · next hk =>
        cases hu
        rw [hk]
        decide
      · exact (ih k).2 u hu
    | insert name parent uid rp t =>
      rw [hm] at hu
      dsimp only [TreeMsg.onUid] at hu
      split at hu
      · next hk =>
        cases hu
        exact hk.symm
      · exact (ih k).2 u hu
    | _ =>
      rw [hm] at hu
      exact (ih k).2 u hu

theorem exists_uid_of_reachable (hg : Reachable (rwTree iter) C g) (hs : g.state r = some ht)
    {k : Sds} (hex : (ht.node (.of iter r) k).header.Exists) :
    ∃ u, (ht.node (.of iter r) k).uid = some u ∧ sdsnew u = k := by
  obtain ⟨hne, huid⟩ := uid_of_reachable hg r hs k
  obtain ⟨u, hu⟩ := Option.ne_none_iff_exists'.mp (hne hex)
  exact ⟨u, hu, huid u hu⟩

/-! ### A replica that applies moves -/

/-- The parent of the node with key `k` at a replica: the one from before, or the smallest
destination of the top moves it has applied. -/
def Chosen (old : Option Sds) (log₀ A : List (TreeEvent N)) (k : Sds)
    (par : Option Sds) : Prop :=
  (par = old ∧ ∀ e ∈ A, e ∉ log₀ → ∀ p, e.msg.moveOf ≠ some (k, p)) ∨
    ∃ e p, e ∉ log₀ ∧ Top TreeMsg.moveOf A e k p ∧ par = some p ∧
      ∀ e' p', e' ∉ log₀ → Top TreeMsg.moveOf A e' k p' → p ≤ p'

variable {old : Option Sds} {log₀ A : List (TreeEvent N)} {k : Sds}
  {par par' : Option Sds}

theorem Chosen.concat_of_ne (h : Chosen old log₀ A k par)
    (hm : ∀ p, e.msg.moveOf ≠ some (k, p)) : Chosen old log₀ (A ++ [e]) k par := by
  have htop : ∀ {d p}, d ∉ log₀ → (Top TreeMsg.moveOf (A ++ [e]) d k p ↔
      Top TreeMsg.moveOf A d k p) := by
    intro d p _
    constructor
    · intro hd
      have hmem := hd.1
      rw [List.mem_append, List.mem_singleton] at hmem
      rcases hmem with hmem | rfl
      · exact ((top_concat_iff hmem).mp hd).1
      · exact absurd hd.2.1 (hm p)
    · exact fun hd => (top_concat_iff hd.1).mpr ⟨hd, fun w hw => absurd hw (hm w)⟩
  rcases h with ⟨hold, hno⟩ | ⟨d, p, hnew, hd, hpar, hmin⟩
  · refine .inl ⟨hold, fun d hd => ?_⟩
    rw [List.mem_append, List.mem_singleton] at hd
    rcases hd with hd | rfl
    · exact hno d hd
    · exact fun _ => hm
  · exact .inr ⟨d, p, hnew, (htop hnew).mpr hd, hpar, fun e' p' hne he' =>
      hmin e' p' hne ((htop hne).mp he')⟩

/-- **One move.** It takes place if nothing concurrent has been seen, and else if its destination
is smaller than the parent. The parent is the smallest top destination afterwards if it was
before. -/
theorem Chosen.concat (w₀ : g₀.WellFormed) (w : g'.WellFormed) (hsettle : MovesSettle g₀ g'.log)
    (hcl : ∀ d ∈ g.applied r, d ∉ g₀.log → Closed d.deps) (ho : InOrder g₀ g g' r e)
    (he : e ∈ g'.log) {p : Sds} (hm : e.msg.moveOf = some (k, p))
    (h : Chosen old g₀.log (g.applied r) k par)
    (htake : (∀ m ∈ g.applied r, ∀ s, m.msg.moveOf = some (k, s) → m ∈ e.deps) → par' = some p)
    (hlt : p < sdsnewNull par → par' = some p)
    (hkeep : (∃ m ∈ g.applied r, ∃ s, m.msg.moveOf = some (k, s) ∧ m ∉ e.deps) →
      ¬ p < sdsnewNull par → par' = par) :
    Chosen old g₀.log (g.applied r ++ [e]) k par' := by
  have heTop := top_of_inOrder ho (w.notMem_deps he) hm
  -- a top move afterwards is the new one, or was on top before and is not known to the new one
  have htop : ∀ {d q}, Top TreeMsg.moveOf (g.applied r ++ [e]) d k q →
      (d = e ∧ q = p) ∨ (Top TreeMsg.moveOf (g.applied r) d k q ∧ d ∉ e.deps) := by
    intro d q hd
    have hmem := hd.1
    rw [List.mem_append, List.mem_singleton] at hmem
    rcases hmem with hmem | rfl
    · obtain ⟨hd', hno⟩ := (top_concat_iff hmem).mp hd
      exact .inr ⟨hd', hno p hm⟩
    · exact .inl ⟨rfl, (Prod.mk.inj (Option.some.inj (hd.2.1.symm.trans hm))).2⟩
  by_cases hconc : ∃ m ∈ g.applied r, ∃ s, m.msg.moveOf = some (k, s) ∧ m ∉ e.deps
  · obtain ⟨m, hmA, s, hms, hme⟩ := hconc
    have hmnew : m ∉ g₀.log := fun hm₀ => hme (ho.old m hm₀)
    obtain ⟨-, hno⟩ | ⟨d, q, hdnew, hdtop, rfl, hmin⟩ := h
    · exact absurd hms (hno m hmA hmnew s)
    · have hq : sdsnewNull (some q) = q := TreeMsg.sdsnew_of_moveOf hdtop.2.1
      rw [hq] at hlt hkeep
      by_cases hpq : p < q
      · refine .inr ⟨e, p, ho.new, heTop, hlt hpq, fun e' p' hne he' => ?_⟩
        rcases htop he' with ⟨-, rfl⟩ | ⟨he', -⟩
        · exact le_rfl
        · exact hpq.le.trans (hmin e' p' hne he')
      · have hqp : q ≤ p := not_lt.mp hpq
        have hmin' : ∀ e' p', e' ∉ g₀.log → Top TreeMsg.moveOf (g.applied r ++ [e]) e' k p' →
            q ≤ p' := by
          intro e' p' hne he'
          rcases htop he' with ⟨-, rfl⟩ | ⟨he', -⟩
          · exact hqp
          · exact hmin e' p' hne he'
        rw [hkeep ⟨m, hmA, s, hms, hme⟩ hpq]
        by_cases hde : d ∈ e.deps
        · -- the parent's move is replaced: the new one or a third one has the same destination
          obtain ⟨c, s', hcnew, hctop, hmc⟩ :=
            exists_top w₀ w ho.applied_mem hcl hmA hmnew hms
          have hce : c ∉ e.deps := by
            intro hce
            rcases hmc with rfl | hmc
            · exact hme hce
            · exact hme (ho.closed_deps c hce m hmc)
          have hec : e ∉ c.deps := fun hec => ho.fresh (ho.closed c hctop.1 e hec)
          rcases hqp.eq_or_lt with rfl | hqp
          · exact .inr ⟨e, q, ho.new, heTop, rfl, hmin'⟩
          · have hs' : s' ≤ q := hsettle d (ho.applied_mem d hdtop.1) e he c
              (ho.applied_mem c hctop.1) k q p s' hdnew hdtop.2.1 hm hctop.2.1 hde
              (hdtop.2.2 c hctop.1 s' hctop.2.1) (hctop.2.2 d hdtop.1 q hdtop.2.1) hec hce hqp
            obtain rfl : s' = q := le_antisymm hs' (hmin c s' hcnew hctop)
            exact .inr ⟨c, s', hcnew, (top_concat_iff hctop.1).mpr ⟨hctop, fun _ _ => hce⟩, rfl,
              hmin'⟩
        · exact .inr ⟨d, q, hdnew, (top_concat_iff hdtop.1).mpr ⟨hdtop, fun _ _ => hde⟩, rfl, hmin'⟩
  · have hall : ∀ m ∈ g.applied r, ∀ s, m.msg.moveOf = some (k, s) → m ∈ e.deps := by
      intro m hmA s hms
      by_contra hme
      exact hconc ⟨m, hmA, s, hms, hme⟩
    refine .inr ⟨e, p, ho.new, heTop, htake hall, fun e' p' _ he' => ?_⟩
    rcases htop he' with ⟨-, rfl⟩ | ⟨he', hno⟩
    · exact le_rfl
    · exact absurd (hall e' he'.1 p' he'.2.1) hno

theorem moveClock_about_iff {m : TreeEvent N} {k : Sds} :
    moveClock.About k m ↔ ∃ p, m.msg.moveOf = some (k, p) := by
  rw [ClockField.About]
  cases hm : m.msg with
  | move dst src v rDst rSrc =>
    simp only [moveClock, TreeMsg.moveOf, Option.isSome_ite, Option.some.injEq, Prod.mk.injEq,
      exists_and_left, exists_eq', and_true]
    exact eq_comm
  | _ => simp [moveClock, TreeMsg.moveOf]

/-- **When a move takes place.** -/
theorem moves_iff_of_inOrder (ha : TreeApplies iter C (rwTree iter).start g g' r e ht)
    (ho : InOrder g₀ g g' r e) {dst src : Sds} {v tD tS : VC} (hm : e.msg = .move dst src v tD tS)
    (ht' : tS.entry = (ht.node (.of iter r) (sdsnew src)).header.current.entry) :
    Moves (ht.node (.of iter r) (sdsnew src)) dst v tS ↔
      (∀ m ∈ g.applied r, ∀ s, m.msg.moveOf = some (sdsnew src, s) → m ∈ e.deps) ∨
        sdsnew dst < sdsnewNull (ht.node (.of iter r) (sdsnew src)).parent := by
  have hsize := ha.size (j := sdsnew src) (t := tS) (by simp [hm, TreeMsg.stampsFor])
  have hsent : moveClock.sent (sdsnew src) e.msg = some v := by rw [hm]; exact if_pos rfl
  have hconc := moveClock.checkCurrency_iff ha ho hsent
  have hready := moveClock.ready ha ho hsent
  have hlt := lt_iff_sdsnew_lt (s := dst)
    (nulFree_sdsnew ((ht.node (.of iter r) (sdsnew src)).parent.getD []))
  rw [Moves, and_iff_right ((updateCheck_iff hsize).mpr ht')]
  simp only [moveClock_about_iff] at hconc
  split
  · next hc =>
    obtain ⟨m, hmA, ⟨s, hms⟩, hme⟩ := hconc.mp hc
    rw [or_iff_right fun hall => hme (hall m hmA s hms)]
    exact hlt
  · next hc =>
    refine ⟨fun _ => .inl fun m hmA s hms => ?_, fun _ => hready⟩
    by_contra hme
    exact hc (hconc.mpr ⟨m, hmA, ⟨s, hms⟩, hme⟩)

/-- A move of the second part of a run carries the clocks that all headers have. -/
def MoveMsg (H : Sds → ℕ → ℤ) (there : Sds → Prop) (m : TreeMsg) : Prop :=
  ∃ dst src v tD tS, m = .move dst src v tD tS ∧ tD.entry = H (sdsnew dst) ∧
    tS.entry = H (sdsnew src) ∧ there (sdsnew src)

/-- The state of a replica in the second part of a run. -/
structure Moved (H : Sds → ℕ → ℤ) (there : Sds → Prop) (old : Sds → Option Sds)
    (log₀ A : List (TreeEvent N)) (F : Forest) : Prop where
  current : ∀ k, (F k).header.current.entry = H k
  exists_iff : ∀ k, (F k).header.Exists ↔ there k
  chosen : ∀ k, there k → Chosen (old k) log₀ A k (F k).parent
  children : ∀ k, there k → ∀ u, (F k).uid = some u → ∀ p, (k = rootId → p ≠ nullId) →
    (u ∈ (F p).children ↔ sdsnewNull (F k).parent = p)

/-- Children sets agree with parents after a node has been moved to `d`, if they did before. -/
theorem agree_relink {F F' : Forest} {s d u k x p : Sds} (hks : (F k).uid = some x)
    (hkey : ∀ {j y}, (F j).uid = some y → sdsnew y = j) (hu : (F s).uid = some u)
    (hchildren : (F' p).children =
      let c := if p = sdsnewNull (F s).parent then setTypeRemove (F p).children u
        else (F p).children
      if p = sdsnew d then setTypeAdd c u else c)
    (hself : (F' s).parent = some (sdsnew d)) (hne : ∀ j, j ≠ s → (F' j).parent = (F j).parent)
    (h : x ∈ (F p).children ↔ sdsnewNull (F k).parent = p) :
    x ∈ (F' p).children ↔ sdsnewNull (F' k).parent = p := by
  rw [TreeLinks.mem_relink hchildren]
  by_cases hk : k = s
  · subst hk
    obtain rfl : x = u := Option.some.inj (hks.symm.trans hu)
    rw [hself, sdsnewNull_some, sdsnew_sdsnew, h]
    constructor
    · rintro (⟨hp, -⟩ | ⟨hp, hpne⟩)
      · exact hp.symm
      · exact absurd rfl (hpne hp.symm)
    · exact fun hp => .inl ⟨hp.symm, rfl⟩
  · have hxu : x ≠ u := by
      rintro rfl
      exact hk ((hkey hks).symm.trans (hkey hu))
    rw [hne k hk, ← h]
    simp [hxu]

/-- **One move at a replica.** -/
theorem Moved.move {H : Sds → ℕ → ℤ} {there : Sds → Prop} {old : Sds → Option Sds}
    (h : Moved H there old g₀.log (g.applied r) (ht.node (.of iter r)))
    (ha : TreeApplies iter C (rwTree iter).start g g' r e ht) (ho : InOrder g₀ g g' r e)
    (huid : ∀ k, ((ht.node (.of iter r) k).header.Exists → (ht.node (.of iter r) k).uid ≠ none) ∧
      ∀ u, (ht.node (.of iter r) k).uid = some u → sdsnew u = k)
    (w₀ : g₀.WellFormed) (hsettle : MovesSettle g₀ g'.log)
    (hcl : ∀ d ∈ g.applied r, d ∉ g₀.log → Closed d.deps) (hmsg : MoveMsg H there e.msg) :
    ∃ ht', treeEffect (.of iter r) ht e.msg = some ht' ∧
      Moved H there old g₀.log (g.applied r ++ [e]) (ht'.node (.of iter r)) := by
  obtain ⟨dst, src, v, tD, tS, hm, hD, hS, hthere⟩ := hmsg
  have w := Reachable.wellFormed ha.after
  have hD' := hD.trans (h.current (sdsnew dst)).symm
  have hS' := hS.trans (h.current (sdsnew src)).symm
  have hcalmD : ¬ removeCheck (ht.node (.of iter r) (sdsnew dst)).header tD := by
    rw [removeCheck_iff (ha.size (by simp [hm, TreeMsg.stampsFor])), hD', not_not]
  have hcalmS : ¬ removeCheck (ht.node (.of iter r) (sdsnew src)).header tS := by
    rw [removeCheck_iff (ha.size (by simp [hm, TreeMsg.stampsFor])), hS', not_not]
  obtain ⟨u, hu⟩ := Option.ne_none_iff_exists'.mp
    ((huid (sdsnew src)).1 ((h.exists_iff _).mpr hthere))
  have hmoves := moves_iff_of_inOrder ha ho hm hS'
  have hmv : e.msg.moveOf = some (sdsnew src, sdsnew dst) := by rw [hm]; rfl
  obtain ⟨ht', heff, hnode⟩ :
      ∃ ht', moveEffect (.of iter r) dst src v tD tS ht = some ht' ∧ _ :=
    moveEffect_of_calm hcalmD hcalmS hu
  refine ⟨ht', by rw [hm]; exact heff, ?_⟩
  have hheader : ∀ j, (ht'.node (.of iter r) j).header = (ht.node (.of iter r) j).header :=
    fun j => by rw [hnode]
  have huid' : ∀ j, (ht'.node (.of iter r) j).uid = (ht.node (.of iter r) j).uid :=
    fun j => by rw [hnode]
  have hne : ∀ j, j ≠ sdsnew src →
      (ht'.node (.of iter r) j).parent = (ht.node (.of iter r) j).parent := by
    intro j hj
    rw [hnode]
    exact if_neg fun hc => hj hc.1
  have hself : Moves (ht.node (.of iter r) (sdsnew src)) dst v tS →
      (ht'.node (.of iter r) (sdsnew src)).parent = some (sdsnew dst) := by
    intro hmoves
    rw [hnode]
    exact if_pos ⟨rfl, hmoves⟩
  have hkeep : ¬ Moves (ht.node (.of iter r) (sdsnew src)) dst v tS →
      (ht'.node (.of iter r) (sdsnew src)).parent =
        (ht.node (.of iter r) (sdsnew src)).parent := by
    intro hmoves
    rw [hnode]
    exact if_neg fun hc => hmoves hc.2
  refine ⟨fun k => by rw [hheader, h.current], fun k => by rw [hheader, h.exists_iff], ?_, ?_⟩
  · intro k hk
    by_cases hks : k = sdsnew src
    · subst hks
      refine Chosen.concat w₀ w hsettle hcl ho ha.mem hmv (h.chosen _ hk) ?_ ?_ ?_
      · exact fun hall => hself (hmoves.mpr (.inl hall))
      · exact fun hlt => hself (hmoves.mpr (.inr hlt))
      · rintro ⟨m, hmA, s, hms, hme⟩ hlt
        refine hkeep fun hmv => ?_
        rcases hmoves.mp hmv with hall | hlt'
        · exact hme (hall m hmA s hms)
        · exact hlt hlt'
    · rw [hne k hks]
      refine (h.chosen k hk).concat_of_ne fun p hp => hks ?_
      rw [hmv] at hp
      exact (Prod.mk.inj (Option.some.inj hp)).1.symm
  · intro k hk x hx p hroot
    rw [huid'] at hx
    by_cases hmoved : Moves (ht.node (.of iter r) (sdsnew src)) dst v tS
    · refine agree_relink hx (fun hy => (huid _).2 _ hy) hu ?_ (hself hmoved) hne
        (h.children k hk x hx p hroot)
      rw [hnode]
      exact if_pos hmoved
    · have hchildren : (ht'.node (.of iter r) p).children =
          (ht.node (.of iter r) p).children := by
        rw [hnode]
        exact if_neg hmoved
      have hparent : (ht'.node (.of iter r) k).parent = (ht.node (.of iter r) k).parent := by
        by_cases hks : k = sdsnew src
        · subst hks
          exact hkeep hmoved
        · exact hne k hks
      rw [hchildren, hparent]
      exact h.children k hk x hx p hroot

theorem moved_of_movesOnly {there : Sds → Prop} {old : Sds → Option Sds}
    (h₀ : Reachable (rwTree iter) C₀ g₀) (hd₀ : Delivered g₀) (hroot : there rootId)
    (hhangs : ∀ r, ∃ ht, g₀.state r = some ht ∧ Hangs there old (ht.node (.of iter r)))
    (h : Steps (rwTree iter) movesOnly g₀ g) (hsettle : MovesSettle g₀ g.log) :
    ∃ H, ∀ r, ∃ ht, g.state r = some ht ∧
      Moved H there old g₀.log (g.applied r) (ht.node (.of iter r)) := by
  have w₀ := Reachable.wellFormed h₀
  obtain ⟨H, hH⟩ := exists_current_of_delivered h₀ hd₀
  refine ⟨H, (tree_apply_invariant (J := fun e => e ∉ g₀.log → MoveMsg H there e.msg)
    (P := fun _ A F => Moved H there old g₀.log A F) ?_ (fun e he hne => absurd he hne) ?_ ?_
    (h.and_log (K := MovesSettle g₀) (fun _ _ => MovesSettle.of_append) hsettle)).2⟩
  · intro r
    obtain ⟨ht, hs, hF⟩ := hhangs r
    refine ⟨ht, hs, hH r ht hs, hF.exists_iff, fun k hk => .inl ⟨hF.parent k hk, ?_⟩, ?_⟩
    · exact fun e he hne => absurd (w₀.applied_mem he) hne
    · intro k hk u hu p hkr
      rw [hF.children k hk u hu p hkr, hF.parent k hk]
  · intro g g' r fuel cmd m ht _ _ _ hP hc _ _ hacc _
    cases hacc with
    | @move dst src _ hd hs =>
      refine ⟨dst, src, _, _, _, rfl, hP.current _, hP.current _, ?_⟩
      rcases exists_of_istreeMember (.of iter r) hs with hr | hex
      · rw [hr]
        exact hroot
      · exact (hP.exists_iff _).mp hex
    | _ => cases hc.1.2
  · intro g g' r e ht ha ihJ hP
    have ho := ha.inOrder (fun hc => hc.1.1) h₀ hd₀
    obtain ⟨a, -, hsettle'⟩ := ha.cond
    obtain ⟨ht₀, hs, hnode⟩ := ha.state
    have huid := uid_of_reachable (reachable_of_steps h₀ ha.before) r hs
    rw [hnode] at huid
    refine hP.move (ha.of_start h₀) ho huid w₀ hsettle' (fun d hd hne => ?_)
      (ihJ e ha.mem ho.new)
    exact ha.before.closed_deps (fun hc => hc.1.1) w₀ (hd₀.closed w₀) d
      ((ha.before.wellFormed w₀).applied_mem hd) hne

theorem Chosen.unique {old par par' : Option Sds} {log₀ A B : List (TreeEvent N)}
    {k : Sds} (hAB : ∀ e, e ∈ A ↔ e ∈ B) (h : Chosen old log₀ A k par)
    (h' : Chosen old log₀ B k par') : par = par' := by
  rcases h with ⟨rfl, hno⟩ | ⟨e, p, hne, he, rfl, hmin⟩ <;>
    rcases h' with ⟨rfl, hno'⟩ | ⟨e', p', hne', he', rfl, hmin'⟩
  · rfl
  · exact absurd he'.2.1 (hno e' ((hAB e').mpr he'.1) hne' p')
  · exact absurd he.2.1 (hno' e ((hAB e).mp he.1) hne p)
  · exact congrArg some (le_antisymm (hmin e' p' hne' ((top_congr hAB).mpr he'))
      (hmin' e p hne ((top_congr hAB).mp he)))

/-- **Parents converge if moves settle.** Take any run after which everything has been delivered and
all replicas agree on their nodes, on parents and on children, and go on with moves alone, in any
causal order of delivery. Once they have all been delivered, and if no move replaced one with a
smaller destination while a third one, concurrent with both, has a greater destination as well, all
replicas agree on parents and children again. Clocks are unbounded here: in the code they are exact
below `INT_MAX` and for at most `100` replicas. -/
theorem rwTree_parents_converge (h₀ : Reachable (rwTree iter) C₀ g₀) (hd₀ : Delivered g₀)
    (hsame : SameParents iter g₀) (h : Steps (rwTree iter) movesOnly g₀ g) (hd : Delivered g)
    (hsettle : MovesSettle g₀ g.log) : SameParents iter g := by
  obtain ⟨there, old, hroot, hhangs⟩ := hsame
  have w := h.wellFormed (Reachable.wellFormed h₀)
  have happ : ∀ r r' e, e ∈ g.applied r ↔ e ∈ g.applied r' := fun r r' e =>
    ⟨fun he => hd r' e (w.applied_mem he), fun he => hd r e (w.applied_mem he)⟩
  obtain ⟨H, hmoved⟩ := moved_of_movesOnly h₀ hd₀ hroot hhangs h hsettle
  have hpar : ∀ k, ∃ p, ∀ r F, Moved H there old g₀.log (g.applied r) F → there k →
      (F k).parent = p := by
    intro k
    by_cases hex : ∃ r F, Moved H there old g₀.log (g.applied r) F ∧ there k
    · obtain ⟨r₀, F₀, hF₀, hk⟩ := hex
      exact ⟨(F₀ k).parent, fun r F hF _ =>
        (hF.chosen k hk).unique (happ r r₀) (hF₀.chosen k hk)⟩
    · exact ⟨none, fun r F hF hk => absurd ⟨r, F, hF, hk⟩ hex⟩
  choose par hpar using hpar
  refine ⟨there, par, hroot, fun r => ?_⟩
  obtain ⟨ht, hs, hF⟩ := hmoved r
  refine ⟨ht, hs, hF.exists_iff, fun k hk => hpar k r _ hF hk, fun k hk => ?_,
    fun k hk u hu p hkr => ?_⟩
  · exact exists_uid_of_reachable (reachable_of_steps h₀ h) hs ((hF.exists_iff k).mpr hk)
  · rw [hF.children k hk u hu p hkr, hpar k r _ hF hk]

/-- Replicas agree once a tree has been built under the benchmark's discipline and delivered. -/
theorem sameParents_of_structural (hg : Reachable (rwTree iter) structural g) (hd : Delivered g)
    (hc : Created g.log) : SameParents iter g := by
  obtain ⟨hlog, hok⟩ := treeOk_of_reachable hg
  have w := Reachable.wellFormed hg
  have happ : ∀ r e, e ∈ g.applied r ↔ e ∈ g.log := fun r e => ⟨w.applied_mem, hd r e⟩
  have hcre : ∀ r, Created (g.applied r) := by
    obtain ⟨e, he, hm⟩ := hc
    exact fun r => ⟨e, (happ r e).mpr he, hm⟩
  have hthere : ∀ r F k, TreeOk (.of iter r) (g.applied r) F → ((F k).header.Exists ↔
      k = rootId ∨ (Inserted g.log k ∧ ¬ Deleted g.log k)) := by
    intro r F k h
    constructor
    · intro hex
      by_cases hk : k = rootId
      · exact .inl hk
      · exact .inr ⟨(h.inserted_of_exists hk hex).mono fun e => (happ r e).mp,
          fun hdel => h.not_deleted_of_exists hex ((deleted_congr (happ r)).mpr hdel)⟩
    · rintro (rfl | ⟨⟨v, p, hins⟩, hdel⟩)
      · exact h.root (hcre r)
      · exact (h.linked k v p ((insertedAs_congr (happ r)).mpr hins)
          (hdel ∘ (deleted_congr (happ r)).mp)).1
  have hpar : ∀ k, ∃ p, (k = rootId → p = some nullId) ∧
      ∀ v q, InsertedAs g.log k v q → p = some q := by
    intro k
    by_cases hin : Inserted g.log k
    · obtain ⟨v, q, hins⟩ := hin
      have hk := (hlog.of_insertedAs (A := g.log) (fun _ he => he) hins).2.2.2.1
      refine ⟨some q, fun hr => absurd hr hk, fun v' q' hins' => ?_⟩
      rw [(hlog.insertedAs_unique (A := g.log) (B := g.log) (fun _ he => he) (fun _ he => he)
        hins hins').2]
    · exact ⟨some nullId, fun _ => rfl, fun v q hins => absurd ⟨v, q, hins⟩ hin⟩
  choose par hroot hins using hpar
  refine ⟨fun k => k = rootId ∨ (Inserted g.log k ∧ ¬ Deleted g.log k), par, .inl rfl,
    fun r => ?_⟩
  obtain ⟨ht, hs, h⟩ := hok r
  refine ⟨ht, hs, fun k => hthere r _ k h, ?_, fun k hk =>
    exists_uid_of_reachable hg hs ((hthere r _ k h).mpr hk), ?_⟩
  · rintro k (rfl | ⟨⟨v, p, hk⟩, hdel⟩)
    · rw [h.rootParent (hcre r), hroot rootId rfl]
    · rw [(h.linked k v p ((insertedAs_congr (happ r)).mpr hk)
        (hdel ∘ (deleted_congr (happ r)).mp)).2.1, hins k v p hk]
  · rintro k (rfl | ⟨⟨v, p, hk⟩, hdel⟩) u hu q hq
    · rw [hroot rootId rfl, sdsnewNull_some]
      refine iff_of_false (fun hmem => ?_) fun hnull => hq rfl hnull.symm
      obtain ⟨v, hv⟩ := h.children q u hmem
      have hu' := hlog.of_insertedAs (fun e => (happ r e).mp) hv
      exact hu'.2.2.2.1 ((sdsnew_of_nulFree hu'.1).symm.trans ((uid_of_reachable hg r hs _).2 u hu))
    · have hkr' := (insertedAs_congr (happ r)).mpr hk
      obtain rfl : u = k := Option.some.inj (hu.symm.trans (h.written k v p hkr').1)
      rw [hins u v p hk, sdsnewNull_some,
        sdsnew_of_nulFree (hlog.of_insertedAs (A := g.log) (fun _ he => he) hk).2.2.2.2.1]
      constructor
      · intro hmem
        obtain ⟨v', hv'⟩ := h.children q u hmem
        exact (hlog.insertedAs_unique (A := g.log) (B := g.applied r) (fun _ he => he)
          (fun e => (happ r e).mp) hk hv').2
      · rintro rfl
        exact (h.linked u v p hkr' (hdel ∘ (deleted_congr (happ r)).mp)).2.2

end

/-- Two replicas move one node to different places at the same time: both end up with it under
the smaller one. -/
theorem rwTree_parents_converge_crossing :
    ∃ g₀ g, Reachable (rwTree (inOrder 2)) structural g₀ ∧ Delivered g₀ ∧
      Steps (rwTree (inOrder 2)) movesOnly g₀ g ∧ Delivered g ∧
      (∃ e ∈ g.log, e.msg.moveOf = some ([120], [97])) ∧
      (∃ e ∈ g.log, e.msg.moveOf = some ([120], [98])) ∧
      SameParents (inOrder 2) g := by
  obtain ⟨g₀, hg₀, hids₀, hc, hrun⟩ :=
    (rwTree (inOrder 2)).exists_reachable structural
      (fun g => (∀ r, ∀ i < g.log.length, i ∈ g.appliedIds r) ∧ (∃ e ∈ g.log, e.msg.isCreate) ∧
        ((rwTree (inOrder 2)).run movesOnly g
          [.client 0 ⟨9, .move [97] [120]⟩, .client 1 ⟨9, .move [98] [120]⟩, .deliver 1 4,
            .deliver 0 5]).any fun g =>
          (∀ r, ∀ i < g.log.length, i ∈ g.appliedIds r) ∧
            (∃ e ∈ g.log, e.msg.moveOf = some ([120], [97])) ∧
            (∃ e ∈ g.log, e.msg.moveOf = some ([120], [98])) ∧
            ∀ a ∈ g.log, a.msg.moveOf = none ∨
              ∀ b ∈ g.log, b.msg.moveOf = none ∨ a.id ∉ b.deps.map Event.id)
      [.client 0 ⟨0, .create⟩, .client 0 ⟨1, .insert [118] rootId [97]⟩,
        .client 0 ⟨1, .insert [118] rootId [98]⟩, .client 0 ⟨1, .insert [118] rootId [120]⟩,
        .deliver 1 0, .deliver 1 1, .deliver 1 2, .deliver 1 3] (by decide)
  obtain ⟨g, hg, hids, hleft, hright, hconc⟩ := Steps.exists_of_run .refl _ hrun
  have w₀ := Reachable.wellFormed hg₀
  have hd₀ : Delivered g₀ := w₀.delivered_of_ids hids₀
  have hd : Delivered g := (hg.wellFormed w₀).delivered_of_ids hids
  refine ⟨g₀, g, hg₀, hd₀, hg, hd, hleft, hright, rwTree_parents_converge hg₀
    hd₀ (sameParents_of_structural hg₀ hd₀ hc) hg hd ?_⟩
  -- no move knows another one, so none replaces another
  intro a ha b hb c _ k p q s _ hma hmb _ hab
  rcases hconc a ha with hnone | hconc
  · rw [hma] at hnone
    cases hnone
  rcases hconc b hb with hnone | hno
  · rw [hmb] at hnone
    cases hnone
  · exact absurd (List.mem_map_of_mem hab) hno

/-- **A move that replaces a smaller one.** Replica `0` moves a node to `a` and then on to `b`,
while replica `1` moves it to `c`. Replica `0` sees `c` last and keeps `b`. At replica `1` the
first move wins over `c`, and the second one, which is concurrent with `c` as well, is compared
with `a` and ignored. -/
theorem rwTree_parents_diverge :
    ∃ g₀ g, Reachable (rwTree (inOrder 2)) structural g₀ ∧ Delivered g₀ ∧
      Steps (rwTree (inOrder 2)) movesOnly g₀ g ∧ Delivered g ∧
      ¬ SameParents (inOrder 2) g := by
  obtain ⟨g₀, hg₀, hids₀, hrun⟩ :=
    (rwTree (inOrder 2)).exists_reachable structural
      (fun g => (∀ r, ∀ i < g.log.length, i ∈ g.appliedIds r) ∧
        ((rwTree (inOrder 2)).run movesOnly g
          [.client 0 ⟨9, .move [97] [120]⟩, .client 0 ⟨9, .move [98] [120]⟩,
            .client 1 ⟨9, .move [99] [120]⟩, .deliver 0 7, .deliver 1 5, .deliver 1 6]).any fun g =>
          (∀ r, ∀ i < g.log.length, i ∈ g.appliedIds r) ∧
            (g.state 0).all (fun ht =>
              let n := ht.node (.of (inOrder 2) 0) [120]
              n.header.Exists ∧ n.parent = some [98]) ∧
            (g.state 1).all (fun ht =>
              let n := ht.node (.of (inOrder 2) 1) [120]
              n.header.Exists ∧ n.parent = some [97]))
      [.client 0 ⟨0, .create⟩, .client 0 ⟨1, .insert [118] rootId [97]⟩,
        .client 0 ⟨1, .insert [118] rootId [98]⟩, .client 0 ⟨1, .insert [118] rootId [99]⟩,
        .client 0 ⟨1, .insert [118] rootId [120]⟩,
        .deliver 1 0, .deliver 1 1, .deliver 1 2, .deliver 1 3, .deliver 1 4] (by decide)
  obtain ⟨g, hg, hids, h₀, h₁⟩ := Steps.exists_of_run .refl _ hrun
  have w₀ := Reachable.wellFormed hg₀
  refine ⟨g₀, g, hg₀, w₀.delivered_of_ids hids₀, hg, (hg.wellFormed w₀).delivered_of_ids hids, ?_⟩
  rintro ⟨there, par, -, hhangs⟩
  obtain ⟨ht, hs, hF⟩ := hhangs 0
  obtain ⟨ht', hs', hF'⟩ := hhangs 1
  rw [hs, Option.all_some, decide_eq_true_iff] at h₀
  rw [hs', Option.all_some, decide_eq_true_iff] at h₁
  have hthere := (hF.exists_iff [120]).mp h₀.1
  have hne := (h₀.2.symm.trans (hF.parent _ hthere)).trans
    ((hF'.parent _ hthere).symm.trans h₁.2)
  exact absurd hne (by decide)

end RemoveWin
