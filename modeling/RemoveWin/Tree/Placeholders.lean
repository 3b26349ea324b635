import RemoveWin.Lib.Completion
import RemoveWin.Tree.Acyclic

/-!
# Nodes whose insert has not come yet

Every effect creates the nodes it names, so a message that overtakes an insert finds a node without
an id and without a parent. A node without an id must not be hashed. A move hashes the id of the
node it moves, so it kills a server that has not heard of the node. A remove hashes it only when
the parent has children. The parent of such a node is looked up under the empty id while it has no
parent, and under `none` once it has been removed, so removes do no harm as long as nodes of these
two names have no children.

Messages that come after the inserts of the nodes they name are harmless, and in causal order they
all do.
-/

namespace RemoveWin

open Replicated

section

variable {N : ℕ}

/-- The node with key `k` has been inserted or, if it is the root, created. -/
def Made (A : List (TreeEvent N)) (k : Sds) : Prop :=
  Placed A k ∨ (k = rootId ∧ Created A)

theorem Made.mono {A B : List (TreeEvent N)} {k : Sds} (hAB : ∀ e ∈ A, e ∈ B)
    (h : Made A k) : Made B k := by
  rcases h with h | ⟨hk, e, he, hc⟩
  · exact .inl (h.mono hAB)
  · exact .inr ⟨hk, e, hAB e he, hc⟩

theorem made_concat {A : List (TreeEvent N)} {e : TreeEvent N} {k : Sds} :
    Made (A ++ [e]) k ↔ Made A k ∨ e.msg.Makes k := by
  rw [Made, placed_concat, created_concat, Made, TreeMsg.Makes, and_or_left, or_assoc, or_assoc]
  exact or_congr_right (or_comm.trans or_assoc)

/-- The ids under which the parent of a node is looked for that has none. -/
def limbo : List Sds := [[], noneId]

/-- The nodes of these ids have no children. -/
def LimboEmpty (F : Forest) : Prop := ∀ p ∈ limbo, (F p).children.elems = []

/-- The message comes after the inserts of the nodes it names. For nodes that it only clears, it is
enough that there are no children in limbo. -/
def Safe (A : List (TreeEvent N)) (F : Forest) : TreeMsg → Prop
  | .create => True
  | .insert _ parent _ _ _ =>
    Made A (sdsnew parent) ∨ (sdsnew parent ∉ limbo ∧ LimboEmpty F)
  | .delete uid _ => Made A (sdsnew uid) ∨ LimboEmpty F
  | .changeValue uid _ _ _ => Made A (sdsnew uid) ∨ LimboEmpty F
  | .move dst src _ _ _ => Made A (sdsnew src) ∧ (Made A (sdsnew dst) ∨ LimboEmpty F)

/-- Messages are applied, at their origins and elsewhere, where they are safe. -/
def safeOrder (iter : Fin N → Iteration) : TreeCond N :=
  fun g _ g' => ∀ r e ht, g'.applied r = g.applied r ++ [e] → g.state r = some ht →
    Safe (g.applied r) (ht.node (.of iter r)) e.msg

/-! ### The invariant -/

/-- Nodes that have been made have an id, and the others are in limbo. -/
structure UidOk (A : List (TreeEvent N)) (F : Forest) : Prop where
  made : ∀ k, Made A k → (F k).uid ≠ none
  limbo : ∀ k, (F k).uid = none → sdsnewNull (F k).parent ∈ limbo

theorem uidOk_rtnNew (srv : Server) :
    UidOk ([] : List (TreeEvent N)) fun _ => rtnNew srv where
  made k h := by simp [Made, Placed, Created] at h
  limbo k _ := by simp [rtnNew, RemoveWin.limbo]

variable {A : List (TreeEvent N)} {srv : Server} {ht ht' : TreeHT} {k : Sds} {t : VC}

theorem exists_tRemFunc_of_limbo (hlimbo : (ht.node srv k).uid = none →
      sdsnewNull (ht.node srv k).parent ∈ limbo)
    (h : (ht.node srv k).uid ≠ none ∨ LimboEmpty (ht.node srv)) :
    ∃ ht', tRemFunc srv ht k t = some ht' :=
  exists_tRemFunc fun hnone => h.elim (absurd hnone) fun hempty => hempty _ (hlimbo hnone)

/-- **A safe message does not crash.** -/
theorem exists_treeEffect {m : TreeMsg} (hok : UidOk A (ht.node srv))
    (hsafe : Safe A (ht.node srv) m) : ∃ ht', treeEffect srv ht m = some ht' := by
  cases m with
  | create => exact ⟨_, rfl⟩
  | insert name parent uid rp r =>
    set ht₀ := insertWrite srv name parent uid ht with hht₀
    have huid : ∀ j, (ht₀.node srv j).uid =
        if j = sdsnew uid then some uid else (ht.node srv j).uid := fun j => by
      rw [hht₀, node_insertWrite]
    obtain ⟨ht₁, h₁⟩ : ∃ ht₁, tRemFunc srv ht₀ (sdsnew parent) rp = some ht₁ := by
      refine exists_tRemFunc fun hnone => ?_
      -- the parent has no id, so it is neither the new node nor made
      have hne : sdsnew parent ≠ sdsnew uid := by
        intro heq
        rw [huid, if_pos heq] at hnone
        cases hnone
      rw [huid, if_neg hne] at hnone
      obtain ⟨hout, hempty⟩ := hsafe.resolve_left fun hm => hok.made _ hm hnone
      have hin := hok.limbo _ hnone
      have hparent : (ht₀.node srv (sdsnew parent)).parent =
          (ht.node srv (sdsnew parent)).parent := by
        rw [hht₀, node_insertWrite]
        exact if_neg hne
      rw [hparent, hht₀, node_insertWrite]
      refine (congrArg SetObj.elems (if_neg ?_)).trans (hempty _ hin)
      exact fun heq => hout (heq ▸ hin)
    obtain ⟨ht₂, h₂⟩ : ∃ ht₂, tRemFunc srv ht₁ (sdsnew uid) r = some ht₂ := by
      refine exists_tRemFunc fun hnone => ?_
      rw [(frame_tRemFunc h₁ _).1, huid, if_pos rfl] at hnone
      cases hnone
    exact ⟨_, by rw [treeEffect, insertEffect, h₁, Option.bind_eq_bind, Option.bind_some, h₂]; rfl⟩
  | delete uid r =>
    refine exists_tRemFunc_of_limbo ?_ ?_
    · rw [TreeHT.node_create]
      exact hok.limbo _
    · rw [TreeHT.node_create]
      exact hsafe.imp_left (hok.made _)
  | changeValue uid name v r =>
    obtain ⟨ht₁, h₁⟩ : ∃ ht₁, tRemFunc srv (ht.create srv (sdsnew uid)) (sdsnew uid) r =
        some ht₁ := by
      refine exists_tRemFunc_of_limbo ?_ ?_
      · rw [TreeHT.node_create]
        exact hok.limbo _
      · rw [TreeHT.node_create]
        exact hsafe.imp_left (hok.made _)
    exact ⟨_, by rw [treeEffect, changeValueEffect, h₁]; rfl⟩
  | move dst src v rDst rSrc =>
    have hnode : ((ht.create srv (sdsnew dst)).create srv (sdsnew src)).node srv = ht.node srv := by
      rw [TreeHT.node_create, TreeHT.node_create]
    obtain ⟨ht₁, h₁⟩ : ∃ ht₁, tRemFunc srv ((ht.create srv (sdsnew dst)).create srv (sdsnew src))
        (sdsnew dst) rDst = some ht₁ := by
      refine exists_tRemFunc_of_limbo ?_ ?_
      · rw [hnode]
        exact hok.limbo _
      · rw [hnode]
        exact hsafe.2.imp_left (hok.made _)
    have hu₁ : (ht₁.node srv (sdsnew src)).uid ≠ none := by
      rw [(frame_tRemFunc h₁ _).1, hnode]
      exact hok.made _ hsafe.1
    obtain ⟨ht₂, h₂⟩ : ∃ ht₂, tRemFunc srv ht₁ (sdsnew src) rSrc = some ht₂ :=
      exists_tRemFunc fun hnone => absurd hnone hu₁
    rw [← (frame_tRemFunc h₂ _).1] at hu₁
    obtain ⟨u, hu₂⟩ := Option.ne_none_iff_exists'.mp hu₁
    obtain ⟨ht₃, h₃⟩ : ∃ ht₃, moveLink srv dst (sdsnew src) v rSrc ht₂ = some ht₃ := by
      rcases moveLink_cases srv ht₂ dst (sdsnew src) v rSrc with ⟨-, create, hlink⟩ | ⟨-, hlink⟩
      · rw [hlink]
        exact exists_reparent create dst hu₂
      · exact ⟨ht₂, hlink⟩
    exact ⟨_, by
      rw [treeEffect, moveEffect, h₁, Option.bind_eq_bind, Option.bind_some, h₂, Option.bind_some,
        h₃]
      rfl⟩

theorem parent_modify {f : Rtn → Rtn} {j : Sds} (hf : ∀ tn, (f tn).parent = tn.parent) :
    ((ht.modify srv k f).node srv j).parent = (ht.node srv j).parent := by
  rw [TreeHT.node_modify]
  split
  · next hj => rw [hf, hj]
  · rfl

theorem parent_tRemFunc (h : tRemFunc srv ht k t = some ht') (j : Sds) :
    (ht'.node srv j).parent = (ht.node srv j).parent ∨ (ht'.node srv j).parent = some noneId := by
  by_cases hr : removeCheck (ht.node srv k).header t
  · rw [node_tRemFunc hr h]
    dsimp only
    split
    · exact .inr rfl
    · exact .inl rfl
  · rw [tRemFunc_of_calm hr] at h
    exact .inl (by rw [Option.some.inj h])

theorem parent_treeEffect {m : TreeMsg} (h : treeEffect srv ht m = some ht') {j : Sds}
    (hnone : (ht'.node srv j).uid = none) :
    (ht'.node srv j).parent = (ht.node srv j).parent ∨ (ht'.node srv j).parent = some noneId := by
  have hframe := (treeEffect_frame h j).uid
  rw [hnone, eq_comm, TreeMsg.onUid_eq_none_iff] at hframe
  obtain ⟨hold, hmakes⟩ := hframe
  cases m with
  | create =>
    have hj : j ≠ rootId := fun hj => hmakes (.inl ⟨hj, rfl⟩)
    cases h
    rw [createEffect, TreeHT.node_modify_of_ne _ hj]
    exact .inl rfl
  | insert name parent uid rp r =>
    have hj : j ≠ sdsnew uid := fun hj => hmakes (.inr ⟨uid, name, parent, rfl, hj.symm⟩)
    obtain ⟨ht₁, h₁, h⟩ := Option.bind_eq_some_iff.mp h
    obtain ⟨ht₂, h₂, h⟩ := Option.bind_eq_some_iff.mp h
    cases h
    rw [node_insertOwn]
    have hstep := parent_tRemFunc h₁ j
    have hwrite : ((insertWrite srv name parent uid ht).node srv j).parent =
        (ht.node srv j).parent := by
      rw [node_insertWrite]
      exact if_neg hj
    rw [hwrite] at hstep
    rcases parent_tRemFunc h₂ j with heq | heq
    · exact hstep.imp heq.trans heq.trans
    · exact .inr heq
  | delete uid r =>
    have hstep := parent_tRemFunc h j
    rwa [TreeHT.node_create] at hstep
  | changeValue uid name v r =>
    obtain ⟨ht₁, h₁, h⟩ := Option.bind_eq_some_iff.mp h
    have hstep := parent_tRemFunc h₁ j
    rw [TreeHT.node_create] at hstep
    have hkeep : (ht'.node srv j).parent = (ht₁.node srv j).parent := by
      rw [← Option.some.inj h]
      rw [parent_modify, node_changeName]
      exact fun _ => rfl
    rwa [hkeep]
  | move dst src v rDst rSrc =>
    obtain ⟨ht₁, h₁, h⟩ := Option.bind_eq_some_iff.mp h
    obtain ⟨ht₂, h₂, h⟩ := Option.bind_eq_some_iff.mp h
    obtain ⟨ht₃, h₃, h⟩ := Option.bind_eq_some_iff.mp h
    have hstep := parent_tRemFunc h₁ j
    rw [TreeHT.node_create, TreeHT.node_create] at hstep
    have hstep₂ : (ht₂.node srv j).parent = (ht.node srv j).parent ∨
        (ht₂.node srv j).parent = some noneId := by
      rcases parent_tRemFunc h₂ j with heq | heq
      · exact hstep.imp heq.trans heq.trans
      · exact .inr heq
    have hkeep : (ht'.node srv j).parent = (ht₃.node srv j).parent := by
      rw [← Option.some.inj h, parent_modify]
      exact fun _ => rfl
    rw [hkeep]
    rcases moveLink_cases srv ht₂ dst (sdsnew src) v rSrc with ⟨-, create, hlink⟩ | ⟨-, hlink⟩
    · rw [hlink] at h₃
      obtain ⟨u, hu, hnode⟩ := node_reparent h₃
      have hj : j ≠ sdsnew src := by
        rintro rfl
        rw [(frame_tRemFunc h₂ _).1, (frame_tRemFunc h₁ _).1, TreeHT.node_create,
          TreeHT.node_create, hold] at hu
        cases hu
      have hkeep : (ht₃.node srv j).parent = (ht₂.node srv j).parent := by
        rw [hnode]
        exact if_neg hj
      rwa [hkeep]
    · rw [hlink] at h₃
      rwa [← Option.some.inj h₃]

theorem UidOk.effect {e : TreeEvent N} (h : UidOk A (ht.node srv))
    (heff : treeEffect srv ht e.msg = some ht') : UidOk (A ++ [e]) (ht'.node srv) where
  made k hk := by
    rw [(treeEffect_frame heff k).uid, ne_eq, TreeMsg.onUid_eq_none_iff]
    rintro ⟨hnone, hmakes⟩
    exact h.made k ((made_concat.mp hk).resolve_right hmakes) hnone
  limbo k hnone := by
    have hframe := (treeEffect_frame heff k).uid
    rw [hnone, eq_comm, TreeMsg.onUid_eq_none_iff] at hframe
    rcases parent_treeEffect heff hnone with heq | heq
    · rw [heq]
      exact h.limbo k hframe.1
    · rw [heq]
      decide

/-! ### Runs -/

variable {iter : Fin N → Iteration} {g : TreeNet N}

theorem uidOk_of_reachable (hg : Reachable (rwTree iter) (safeOrder iter) g) (r : Fin N) :
    ∃ ht, g.state r = some ht ∧ UidOk (g.applied r) (ht.node (.of iter r)) := by
  revert r
  refine (tree_apply_invariant (J := fun _ => True) (P := fun _ A F => UidOk A F) ?_
    (fun _ _ => trivial) (fun _ _ _ _ _ _ _ _ => trivial) ?_ hg).2
  · exact fun r => ⟨.empty, rfl, uidOk_rtnNew _⟩
  · intro g g' r e ht ha _ hok
    obtain ⟨a, hc⟩ := ha.cond
    obtain ⟨ht₀, hs, hnode⟩ := ha.state
    have hsafe := hc r e ht₀ ha.applied hs
    rw [hnode] at hsafe
    obtain ⟨ht', heff⟩ := exists_treeEffect hok hsafe
    exact ⟨ht', heff, hok.effect heff⟩

/-! ### Causal order -/

/-- The keys of the nodes that a message is about, other than the one it inserts. -/
def TreeMsg.names : TreeMsg → List Sds
  | .create => []
  | .insert _ parent _ _ _ => [sdsnew parent]
  | .delete uid _ | .changeValue uid _ _ _ => [sdsnew uid]
  | .move dst src _ _ _ => [sdsnew dst, sdsnew src]

theorem safe_of_names {F : Forest} {m : TreeMsg} (h : ∀ k ∈ m.names, Made A k) : Safe A F m := by
  cases m with
  | create => trivial
  | insert => exact .inl (h _ (by simp [TreeMsg.names]))
  | delete => exact .inl (h _ (by simp [TreeMsg.names]))
  | changeValue => exact .inl (h _ (by simp [TreeMsg.names]))
  | move => exact ⟨h _ (by simp [TreeMsg.names]), .inl (h _ (by simp [TreeMsg.names]))⟩

variable {C : TreeCond N}

theorem made_of_exists (hg : Reachable (rwTree iter) C g) (r : Fin N) {ht : TreeHT}
    (hs : g.state r = some ht) {k : Sds} (hex : (ht.node (.of iter r) k).header.Exists) :
    Made (g.applied r) k := by
  refine tree_invariant (P := fun _ A F => ∀ k, (F k).header.Exists → Made A k) ?_ ?_ hg r ht hs
    k hex
  · intro r ht hs k hex
    cases hs
    exact absurd hex (not_exists_rtnNew _)
  · intro g' r e A ht ht' _ _ _ ih heff k hex
    rw [(treeEffect_frame heff k).header] at hex
    exact made_concat.mpr ((TreeMsg.exists_of_onHeader hex).imp_left (ih k))

theorem made_of_names (hg : Reachable (rwTree iter) C g) :
    ∀ e ∈ g.log, ∀ k ∈ e.msg.names, k ≠ rootId → Made e.deps k := by
  refine tree_log_invariant (by simp [OpBased.start]) ?_ hg
  intro g g' r fuel cmd m ht hg _ _ _ hs hacc k hk hne
  have hmem : ∀ {x}, istreeMember ht fuel x = some true → sdsnew x ≠ rootId →
      Made (g.applied r) (sdsnew x) := fun hx hne =>
    made_of_exists hg r hs ((exists_of_istreeMember (.of iter r) hx).resolve_left hne)
  cases hacc with
  | create => cases hk
  | insert hp hu =>
    obtain rfl := List.mem_singleton.mp hk
    exact hmem hp hne
  | delete hu =>
    obtain rfl := List.mem_singleton.mp hk
    exact hmem hu hne
  | changeValue hu =>
    obtain rfl := List.mem_singleton.mp hk
    exact hmem hu hne
  | move hd hs _ _ _ =>
    rcases List.mem_pair.mp hk with rfl | rfl
    · exact hmem hd hne
    · exact hmem hs hne

/-- **Causal order is safe.** -/
theorem safeOrder_of_causal (hC : ∀ {g a g'}, C g a g' → causal g a g')
    (hg : Reachable (rwTree iter) C g) : Reachable (rwTree iter) (safeOrder iter) g := by
  refine Steps.strengthen ?_ hg
  intro g a g' _ hg' _ r e ht happ _
  have w := Reachable.wellFormed hg'
  have he : e ∈ g'.log := w.applied_mem (r := r) (by simp [happ])
  have hdeps : ∀ d ∈ e.deps, d ∈ g.applied r := by
    intro d hd
    have hcausal := Reachable.causalList hC hg' r
    rw [happ] at hcausal
    exact hcausal.last hd
  refine safe_of_names fun k hk => ?_
  by_cases hroot : k = rootId
  · have hc : e.msg.isCreate = false := by
      cases hm : e.msg with
      | create =>
        rw [hm] at hk
        cases hk
      | _ => rfl
    obtain ⟨d, hd, hdc⟩ := (created_of_causal hC hg').1 e he hc
    exact .inr ⟨hroot, d, hdeps d hd, hdc⟩
  · exact (made_of_names hg' e he k hk hroot).mono hdeps

/-- **No `NULL` id is hashed** if messages come in a safe order: in every run over all commands, in
whatever order messages arrive, if each message is applied after the inserts of the nodes it names,
or clears nodes that it names while there are no children in limbo, then all servers are up. Clocks
are unbounded here: in the code they are exact below `INT_MAX` and for at most `100` replicas. -/
theorem rwTree_never_null (hg : Reachable (rwTree iter) (safeOrder iter) g) (r : Fin N) :
    ∃ ht, g.state r = some ht :=
  (uidOk_of_reachable hg r).imp fun _ => And.left

end

/-- A node is inserted by one replica and moved by another, and the third hears of the insert
first. -/
theorem rwTree_never_null_moved :
    ∃ g, Reachable (rwTree (inOrder 3)) (safeOrder fun _ => .insertion) g ∧
      (∃ e ∈ g.applied 2, e.msg.names = [[97], [120]]) ∧ ∃ ht, g.state 2 = some ht := by
  obtain ⟨g, hg, hmoved⟩ := (rwTree (inOrder 3)).exists_reachable causal
    (fun g => ∃ e ∈ g.applied 2, e.msg.names = [[97], [120]])
    [.client 0 ⟨0, .create⟩, .client 0 ⟨1, .insert [118] rootId [97]⟩,
      .client 0 ⟨1, .insert [118] rootId [120]⟩, .deliver 1 0, .deliver 1 1, .deliver 1 2,
      .client 1 ⟨2, .move [97] [120]⟩, .deliver 2 0, .deliver 2 1, .deliver 2 2, .deliver 2 3]
    (by decide)
  have hsafe := safeOrder_of_causal (fun h => h) hg
  exact ⟨g, hsafe, hmoved, rwTree_never_null hsafe 2⟩

/-- A node is inserted by one replica and moved by another. The move reaches the third replica
first: it adds a `NULL` id to the children of the destination. -/
theorem rwTree_null_crashes :
    ∃ g, Reachable (rwTree (inOrder 3)) fifo g ∧ g.state 2 = none := by
  obtain ⟨g, hg, hs⟩ := (rwTree (inOrder 3)).exists_reachable fifo
    (fun g => (g.state 2).isNone)
    [.client 0 ⟨0, .create⟩, .client 0 ⟨1, .insert [118] rootId [97]⟩,
      .client 0 ⟨1, .insert [118] rootId [120]⟩, .deliver 1 0, .deliver 1 1, .deliver 1 2,
      .client 1 ⟨2, .move [97] [120]⟩, .deliver 2 0, .deliver 2 3] (by decide)
  exact ⟨g, hg, Option.isNone_iff_eq_none.mp hs⟩

end RemoveWin
