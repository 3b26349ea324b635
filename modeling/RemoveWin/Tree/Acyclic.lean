import RemoveWin.Tree.Structure

/-!
# Moves and loops

A move is refused when the destination is in the subtree of the node, but only the origin asks.
The effect hangs the node where the message says, so two replicas that move two nodes below each
other at the same time leave a loop behind, at every replica, and every walk that meets it runs
for ever.

At the origin the question is enough: an accepted move closes no loop there, and neither does the
insert of a node that is new. What has to be asked for is that a message that arrives finds its
new parent outside the node's subtree as well, and that an insert that brings a node back, with
the children it had, does not hang it below one of them, which nobody asks. The question itself
compares whole strings, while nodes are found by their ids up to the first NUL byte, so ids must
not go on after one.

## Main results

* `RemoveWin.TreeLinks.not_below_of_subTree` — what the check of a move finds
* `RemoveWin.treeLinks_of_reachable` — nothing crashes and no loop is closed
* `RemoveWin.rwTree_acyclic` — acyclicity and termination
* `RemoveWin.rwTree_moves_loop` — what happens otherwise
-/

namespace RemoveWin

open Replicated Walk Relation

/-! ### Edges and loops -/

/-- The node with key `c` is in the children set of the node with key `p`. -/
def Listed (F : Forest) (p c : Sds) : Prop := ∃ u ∈ (F p).children, sdsnew u = c

/-- The node with key `c` is there and a child of the node with key `p`. -/
def Edge (F : Forest) (p c : Sds) : Prop := Listed F p c ∧ (F c).header.Exists

section

variable {N : ℕ}

/-- The node with key `k` has been inserted. -/
def Placed (A : List (TreeEvent N)) (k : Sds) : Prop :=
  ∃ e ∈ A, ∃ x v p, e.msg.insertOf = some (x, v, p) ∧ sdsnew x = k

theorem Placed.mono {A B : List (TreeEvent N)} {k : Sds} (hAB : ∀ e ∈ A, e ∈ B)
    (h : Placed A k) : Placed B k := by
  obtain ⟨e, he, hx⟩ := h
  exact ⟨e, hAB e he, hx⟩

theorem placed_concat {A : List (TreeEvent N)} {e : TreeEvent N} {k : Sds} :
    Placed (A ++ [e]) k ↔
      Placed A k ∨ ∃ x v p, e.msg.insertOf = some (x, v, p) ∧ sdsnew x = k := by
  simp [Placed, or_and_right, exists_or]

/-- Applying the message in `F`, after `A`, hangs no node below itself. When a move takes place,
the new parent cannot be reached from the node. An insert may bring back a node that has been there
before, with its children; if the node is there afterwards, neither its new parent nor any other
that still lists it can be reached from it. -/
def NoLoop (A : List (TreeEvent N)) (F : Forest) : TreeMsg → Prop
  | .insert _ parent uid _ r => Placed A (sdsnew uid) →
      ((F (sdsnew uid)).header.ins r).Exists → ∀ p, p = sdsnew parent ∨ Listed F p (sdsnew uid) →
        ¬ ReflTransGen (Edge F) (sdsnew uid) p
  | .move dst src moveVC _ rSrc => Moves (F (sdsnew src)) dst moveVC rSrc →
      ¬ ReflTransGen (Edge F) (sdsnew src) (sdsnew dst)
  | _ => True

/-- No message closes a loop where it is delivered, and no insert does where it is accepted.
Nothing is asked of moves where they are accepted. -/
def noLoop (iter : Fin N → Iteration) : TreeCond N
  | g, .deliver r i, _ => ∀ e, g.log[i]? = some e → ∀ ht, g.state r = some ht →
      NoLoop (g.applied r) (ht.node (.of iter r)) e.msg
  | g, .client r c, _ => ∀ ht, g.state r = some ht → ∀ m, m.insertOf.isSome →
      Accepts (.of iter r) ht c.fuel c.cmd m → NoLoop (g.applied r) (ht.node (.of iter r)) m

/-- The root is not deleted. -/
def TreeCmd.KeepsRoot : TreeCmd → Prop
  | .delete uid => sdsnew uid ≠ rootId
  | _ => True

instance : (cmd : TreeCmd) → Decidable cmd.KeepsRoot
  | .delete uid => inferInstanceAs (Decidable (sdsnew uid ≠ rootId))
  | .create | .insert _ _ _ | .changeValue _ _ | .move _ _ => inferInstanceAs (Decidable True)

/-- Ids do not go on after a NUL byte: not that of a new node, not that of a destination, and not
that of the root where something is inserted under it. -/
def TreeCmd.IdsWhole : TreeCmd → Prop
  | .insert _ parent uid => (sdsnew parent = rootId → parent = rootId) ∧ NulFree uid
  | .move dst _ => NulFree dst
  | _ => True

instance : (cmd : TreeCmd) → Decidable cmd.IdsWhole
  | .insert _ parent uid =>
    inferInstanceAs (Decidable ((sdsnew parent = rootId → parent = rootId) ∧ NulFree uid))
  | .move dst _ => inferInstanceAs (Decidable (NulFree dst))
  | .create | .delete _ | .changeValue _ _ => inferInstanceAs (Decidable True)

/-- Clients keep the root. -/
def rootKept : TreeCond N
  | _, .client _ c, _ => c.cmd.KeepsRoot
  | _, .deliver _ _, _ => True

/-- Clients give whole ids. -/
def idsWhole : TreeCond N
  | _, .client _ c, _ => c.cmd.IdsWhole
  | _, .deliver _ _, _ => True

instance (g : TreeNet N) (a : Act (Fin N) TreeCall)
    (g' : TreeNet N) : Decidable (rootKept g a g') :=
  match a with
  | .client _ c => inferInstanceAs (Decidable c.cmd.KeepsRoot)
  | .deliver _ _ => inferInstanceAs (Decidable True)

instance (g : TreeNet N) (a : Act (Fin N) TreeCall)
    (g' : TreeNet N) : Decidable (idsWhole g a g') :=
  match a with
  | .client _ c => inferInstanceAs (Decidable c.cmd.IdsWhole)
  | .deliver _ _ => inferInstanceAs (Decidable True)

/-- Causal delivery, the root is kept, ids are whole, and no loop is closed where a message is
delivered or a node brought back. -/
def loopFree (iter : Fin N → Iteration) : TreeCond N :=
  fun g a g' => causal g a g' ∧ rootKept g a g' ∧ idsWhole g a g' ∧ noLoop iter g a g'

/-! ### The invariant -/

/-- **Stored ids at a replica.** They have no NUL byte, and those in children sets are of nodes that
have been inserted, in the sets of such nodes or of the root. -/
structure TreeIds (A : List (TreeEvent N)) (F : Forest) : Prop where
  uid : ∀ k u, (F k).uid = some u → NulFree u
  children : ∀ p, ∀ u ∈ (F p).children,
    NulFree u ∧ Placed A (sdsnew u) ∧ (p = rootId ∨ Placed A p)

theorem TreeIds.step {A B : List (TreeEvent N)} {F F' : Forest} (h : TreeIds A F)
    (hAB : ∀ k, Placed A k → Placed B k)
    (huid : ∀ k u, (F' k).uid = some u → (F k).uid = some u ∨ NulFree u)
    (hchildren : ∀ p, ∀ u ∈ (F' p).children, u ∈ (F p).children ∨
      (NulFree u ∧ Placed B (sdsnew u) ∧ (p = rootId ∨ Placed B p))) : TreeIds B F' := by
  constructor
  · exact fun k u hu => (huid k u hu).elim (h.uid k u) id
  · intro p u hu
    rcases hchildren p u hu with hu | hu
    · obtain ⟨hn, hpl, hp⟩ := h.children p u hu
      exact ⟨hn, hAB _ hpl, hp.imp_right (hAB p)⟩
    · exact hu

/-- **Parents and children at a replica.** Children sets have no loops among nodes that are there,
and a node that is there is a child of its parent. -/
structure TreeLinks (A : List (TreeEvent N)) (F : Forest) : Prop where
  /-- No loops. -/
  ranked : Ranked (Edge F)
  parent : ∀ k, k ≠ rootId → (F k).header.Exists →
    ∃ p, (F k).parent = some p ∧ (sdsnew p = rootId → p = rootId) ∧ Listed F (sdsnew p) k
  rootParent : (F rootId).header.Exists → (F rootId).parent ≠ none
  key : ∀ k u, (F k).uid = some u → sdsnew u = k
  rootFree : ∀ p, ¬ Listed F p rootId
  /-- Only the root is there without having been inserted. -/
  placed : ∀ k, k ≠ rootId → (F k).header.Exists → Placed A k
  uid : ∀ k, Placed A k → ∃ u, (F k).uid = some u
  /-- The root is there once it has been created. -/
  root : Created A → (F rootId).header.Exists
  /-- Ids are whole. -/
  ids : TreeIds A F

/-- What is true of a message, given what its origin had applied. -/
def LinkMsg (deps : List (TreeEvent N)) : TreeMsg → Prop
  | .insert _ parent uid _ _ => sdsnew uid ≠ rootId ∧ NulFree uid ∧
      (sdsnew parent = rootId → parent = rootId) ∧
      (sdsnew parent = rootId ∨ Placed deps (sdsnew parent))
  | .delete uid _ => sdsnew uid ≠ rootId ∧ Placed deps (sdsnew uid)
  | .move dst src _ _ _ => sdsnew src ≠ rootId ∧ Placed deps (sdsnew src) ∧
      (sdsnew dst = rootId ∨ Placed deps (sdsnew dst))
  | _ => True

theorem treeLinks_rtnNew (srv : Server) :
    TreeLinks ([] : List (TreeEvent N)) fun _ => rtnNew srv where
  ranked := ranked_of_empty fun _ _ h => not_exists_rtnNew srv h.2
  parent _ _ h := absurd h (not_exists_rtnNew srv)
  rootParent h := absurd h (not_exists_rtnNew srv)
  key _ _ h := by cases h
  rootFree _ := fun ⟨u, hu, _⟩ => SetObj.notMem_empty u hu
  placed _ _ h := absurd h (not_exists_rtnNew srv)
  uid _ h := by simp [Placed] at h
  root h := by simp [Created] at h
  ids :=
    { uid := by rintro k u ⟨⟩
      children := fun _ u hu => absurd hu (SetObj.notMem_empty u) }

namespace TreeLinks

variable {A B : List (TreeEvent N)} {e : TreeEvent N} {F F' : Forest}
  {srv : Server} {ht ht' : TreeHT}

theorem congr (h : TreeLinks A F) (hheader : ∀ j, (F' j).header.Exists ↔ (F j).header.Exists)
    (huid : ∀ j, (F' j).uid = (F j).uid) (hparent : ∀ j, (F' j).parent = (F j).parent)
    (hchildren : ∀ j, (F' j).children = (F j).children)
    (hplaced : ∀ k, Placed B k ↔ Placed A k) (hcreated : Created B ↔ Created A) :
    TreeLinks B F' := by
  have hlisted : ∀ p c, Listed F' p c ↔ Listed F p c := by
    intro p c
    rw [Listed, hchildren, Listed]
  constructor
  · exact h.ranked.mono fun p c hpc => ⟨(hlisted p c).mp hpc.1, (hheader c).mp hpc.2⟩
  · intro k hk hex
    obtain ⟨p, hp, hroot, hl⟩ := h.parent k hk ((hheader k).mp hex)
    exact ⟨p, (hparent k).trans hp, hroot, (hlisted _ _).mpr hl⟩
  · intro hex
    rw [hparent]
    exact h.rootParent ((hheader _).mp hex)
  · intro k u hu
    exact h.key k u ((huid k).symm.trans hu)
  · exact fun p hp => h.rootFree p ((hlisted _ _).mp hp)
  · exact fun k hk hex => (hplaced k).mpr (h.placed k hk ((hheader k).mp hex))
  · intro k hk
    rw [huid]
    exact h.uid k ((hplaced k).mp hk)
  · exact fun hc => (hheader rootId).mpr (h.root (hcreated.mp hc))
  · exact h.ids.step (fun k => (hplaced k).mpr) (fun k u hu => .inl (huid k ▸ hu))
      fun p u hu => .inl (hchildren p ▸ hu)

theorem create (h : TreeLinks A (ht.node srv)) (hm : e.msg = .create) (hid : 0 ≤ srv.p2pId) :
    TreeLinks (A ++ [e]) ((createEffect srv ht).node srv) := by
  have hplaced : ∀ k, Placed (A ++ [e]) k ↔ Placed A k := by
    intro k
    simp [placed_concat, hm, TreeMsg.insertOf]
  have hlisted : ∀ p c, Listed ((createEffect srv ht).node srv) p c ↔
      Listed (ht.node srv) p c := by
    intro p c
    by_cases hp : p = rootId
    · rw [Listed, hp, node_createEffect_rootId, Listed]
    · rw [Listed, node_createEffect_of_ne hp, Listed]
  constructor
  · refine h.ranked.mono ?_
    rintro p c ⟨hl, hex⟩
    rw [hlisted] at hl
    have hc : c ≠ rootId := fun hc => h.rootFree p (hc ▸ hl)
    rw [node_createEffect_of_ne hc] at hex
    exact ⟨hl, hex⟩
  · intro k hk hex
    rw [node_createEffect_of_ne hk] at hex ⊢
    obtain ⟨p, hp, hr, hl⟩ := h.parent k hk hex
    exact ⟨p, hp, hr, (hlisted _ _).mpr hl⟩
  · intro _
    rw [node_createEffect_rootId]
    simp
  · intro k u hu
    by_cases hk : k = rootId
    · rw [hk, node_createEffect_rootId] at hu
      cases hu
      rw [hk]
      decide
    · rw [node_createEffect_of_ne hk] at hu
      exact h.key k u hu
  · exact fun p hp => h.rootFree p ((hlisted _ _).mp hp)
  · intro k hk hex
    rw [node_createEffect_of_ne hk] at hex
    exact (hplaced k).mpr (h.placed k hk hex)
  · intro k hpl
    by_cases hk : k = rootId
    · rw [hk, node_createEffect_rootId]
      exact ⟨rootId, rfl⟩
    · rw [node_createEffect_of_ne hk]
      exact h.uid k ((hplaced k).mp hpl)
  · intro _
    rw [node_createEffect_rootId]
    exact hid
  · refine h.ids.step (fun k => (hplaced k).mpr) ?_ fun p u hu => .inl ?_
    · intro k u hu
      by_cases hk : k = rootId
      · rw [hk, node_createEffect_rootId] at hu
        cases hu
        exact .inr (by decide)
      · rw [node_createEffect_of_ne hk] at hu
        exact .inl hu
    · rwa [children_createEffect] at hu

theorem not_below_of_new (h : TreeLinks A F) {x parent p : Sds} (hx : x ≠ rootId)
    (hnew : ¬ Placed A x) (hparent : parent = rootId ∨ Placed A parent)
    (hp : p = parent ∨ Listed F p x) : ¬ ReflTransGen (Edge F) x p := by
  intro hpath
  have hpx : p = x := by
    rcases hpath.cases_head with rfl | ⟨y, ⟨⟨u, hu, -⟩, -⟩, -⟩
    · rfl
    · exact absurd (h.ids.children x u hu).2.2 (not_or.mpr ⟨hx, hnew⟩)
  rw [hpx] at hp
  rcases hp with rfl | ⟨u, hu, rfl⟩
  · exact hparent.elim hx hnew
  · exact hnew (h.ids.children _ u hu).2.1

/-- An insert. The node may come back to parents that list it, and gets a new one. -/
theorem insert {name parent uid : Sds} {rp r : VC} (h : TreeLinks A (ht.node srv))
    (hm : e.msg = .insert name parent uid rp r) (hmsg : LinkMsg e.deps e.msg)
    (hloop : NoLoop A (ht.node srv) e.msg) (hdeps : ∀ d ∈ e.deps, d ∈ A)
    (hp : ¬ removeCheck (ht.node srv (sdsnew parent)).header rp)
    (hk : ¬ removeCheck (ht.node srv (sdsnew uid)).header r) :
    ∃ ht', treeEffect srv ht e.msg = some ht' ∧ TreeLinks (A ++ [e]) (ht'.node srv) := by
  rw [hm] at hmsg hloop
  obtain ⟨hroot, hnul, hnamed, hin⟩ := hmsg
  replace hin := hin.imp_right fun hin => hin.mono hdeps
  obtain ⟨ht', heff, hnode⟩ : ∃ ht', insertEffect srv name parent uid rp r ht = some ht' ∧ _ :=
    insertEffect_of_calm hp hk
  refine ⟨ht', by rw [hm]; exact heff, ?_⟩
  have hplaced : ∀ k, Placed (A ++ [e]) k ↔ Placed A k ∨ sdsnew uid = k := by
    intro k
    simp [placed_concat, hm, TreeMsg.insertOf]
  have hcreated : Created (A ++ [e]) ↔ Created A := by simp [created_concat, hm, TreeMsg.isCreate]
  have hlisted : ∀ q c, Listed (ht'.node srv) q c ↔
      Listed (ht.node srv) q c ∨ (q = sdsnew parent ∧ c = sdsnew uid) := by
    intro q c
    simp only [Listed, hnode, mem_ite_setTypeAdd, or_and_right, exists_or, and_assoc,
      exists_and_left, exists_eq_left]
    rw [eq_comm (a := sdsnew uid)]
  have hheader : ∀ k, k ≠ sdsnew uid → (ht'.node srv k).header = (ht.node srv k).header := by
    intro k hk
    rw [hnode]
    exact if_neg hk
  have hself : (ht'.node srv (sdsnew uid)).header = (ht.node srv (sdsnew uid)).header.ins r := by
    rw [hnode]
    exact if_pos rfl
  constructor
  · have hedge : ∀ q c, Edge (ht'.node srv) q c → Edge (ht.node srv) q c ∨
        ((q = sdsnew parent ∨ Listed (ht.node srv) q (sdsnew uid)) ∧ c = sdsnew uid) := by
      rintro q c ⟨hl, hex⟩
      rw [hlisted] at hl
      by_cases hc : c = sdsnew uid
      · subst hc
        exact .inr ⟨hl.symm.imp_left And.left, rfl⟩
      · rw [hheader c hc] at hex
        exact .inl ⟨hl.resolve_right fun hqc => hc hqc.2, hex⟩
    by_cases hex : ((ht.node srv (sdsnew uid)).header.ins r).Exists
    · refine (h.ranked.insert fun p hp => ?_).mono hedge
      by_cases hold : Placed A (sdsnew uid)
      · exact hloop hold hex p hp
      · exact h.not_below_of_new hroot hold hin hp
    · refine h.ranked.mono fun q c hqc => (hedge q c hqc).resolve_right ?_
      rintro ⟨-, rfl⟩
      have := hqc.2
      rw [hself] at this
      exact hex this
  · intro k hkr hex
    by_cases hku : k = sdsnew uid
    · subst hku
      refine ⟨parent, ?_, hnamed, (hlisted _ _).mpr (.inr ⟨rfl, rfl⟩)⟩
      rw [hnode]
      exact if_pos rfl
    · rw [hheader k hku] at hex
      obtain ⟨p, hpar, hr, hl⟩ := h.parent k hkr hex
      refine ⟨p, ?_, hr, (hlisted _ _).mpr (.inl hl)⟩
      rw [hnode, ← hpar]
      exact if_neg hku
  · intro hex
    rw [hheader _ hroot.symm] at hex
    rw [hnode]
    dsimp only
    rw [if_neg hroot.symm]
    exact h.rootParent hex
  · intro k u hu
    rw [hnode] at hu
    dsimp only at hu
    split at hu
    · next hku =>
      cases hu
      exact hku.symm
    · exact h.key k u hu
  · intro p hp
    rcases (hlisted _ _).mp hp with hp | ⟨-, hp⟩
    · exact h.rootFree p hp
    · exact hroot hp.symm
  · intro k hkr hex
    by_cases hku : k = sdsnew uid
    · exact (hplaced k).mpr (.inr hku.symm)
    · rw [hheader k hku] at hex
      exact (hplaced k).mpr (.inl (h.placed k hkr hex))
  · intro k hpl
    rw [hnode]
    dsimp only
    split
    · exact ⟨uid, rfl⟩
    · next hku => exact h.uid k (((hplaced k).mp hpl).resolve_right (Ne.symm hku))
  · intro hc
    rw [hheader _ hroot.symm]
    exact h.root (hcreated.mp hc)
  · refine h.ids.step (fun k hk => (hplaced k).mpr (.inl hk)) ?_ ?_
    · intro k u hu
      rw [hnode] at hu
      dsimp only at hu
      split at hu
      · cases hu
        exact .inr hnul
      · exact .inl hu
    · intro q u hu
      simp only [hnode, mem_ite_setTypeAdd] at hu
      refine hu.imp_right ?_
      rintro ⟨rfl, rfl⟩
      exact ⟨hnul, (hplaced _).mpr (.inr rfl), hin.imp_right fun hin => (hplaced _).mpr (.inl hin)⟩

theorem mem_relink {q u : Sds} {b d : Prop} [Decidable b] [Decidable d]
    (hF : (F' q).children =
      let o := if b then setTypeRemove (F q).children u else (F q).children
      if d then setTypeAdd o u else o) (w : Sds) :
    w ∈ (F' q).children ↔ (d ∧ w = u) ∨ (w ∈ (F q).children ∧ (b → w ≠ u)) := by
  rw [hF]
  by_cases hb : b <;> by_cases hd : d <;> simp [hb, hd, and_comm]

/-- Taking an id out of a children set and putting it into another affects its own key only. -/
theorem listed_relink {q u : Sds} {b d : Prop} [Decidable b] [Decidable d]
    (hF : (F' q).children =
      let o := if b then setTypeRemove (F q).children u else (F q).children
      if d then setTypeAdd o u else o) (c : Sds) :
    (Listed F' q c → Listed F q c ∨ (d ∧ c = sdsnew u)) ∧
      (c ≠ sdsnew u → Listed F q c → Listed F' q c) ∧ (d → Listed F' q (sdsnew u)) := by
  have hmem := mem_relink hF
  refine ⟨?_, ?_, ?_⟩
  · rintro ⟨w, hw, rfl⟩
    rcases (hmem w).mp hw with ⟨hd, rfl⟩ | ⟨hw, -⟩
    · exact .inr ⟨hd, rfl⟩
    · exact .inl ⟨w, hw, rfl⟩
  · rintro hc ⟨w, hw, rfl⟩
    exact ⟨w, (hmem w).mpr (.inr ⟨hw, fun _ hwu => hc (by rw [hwu])⟩), rfl⟩
  · exact fun hd => ⟨u, (hmem u).mpr (.inl ⟨hd, rfl⟩), rfl⟩

theorem remove {k u : Sds} {r : VC} (h : TreeLinks A (ht.node srv)) (hroot : k ≠ rootId)
    (hu : (ht.node srv k).uid = some u) (hrc : removeCheck (ht.node srv k).header r)
    (heff : tRemFunc srv ht k r = some ht') (hplaced : ∀ k, Placed B k ↔ Placed A k)
    (hcreated : Created B ↔ Created A) : TreeLinks B (ht'.node srv) := by
  have hlisted : ∀ q c, (Listed (ht'.node srv) q c → Listed (ht.node srv) q c) ∧
      (c ≠ k → Listed (ht.node srv) q c → Listed (ht'.node srv) q c) := by
    intro q c
    constructor
    · rintro ⟨w, hw, rfl⟩
      exact ⟨w, ((mem_children_tRemFunc hrc heff q w).mp hw).1, rfl⟩
    · rintro hc ⟨w, hw, rfl⟩
      exact ⟨w, (mem_children_tRemFunc hrc heff q w).mpr ⟨hw, fun huw => hc (h.key k w huw.2)⟩, rfl⟩
  have hheader : ∀ j, j ≠ k → (ht'.node srv j).header = (ht.node srv j).header :=
    fun j hj => (tRemFunc_of_ne heff hj).1
  have hparent : ∀ j, j ≠ k → (ht'.node srv j).parent = (ht.node srv j).parent :=
    fun j hj => (tRemFunc_of_ne heff hj).2
  have hne : ∀ {j}, (ht'.node srv j).header.Exists → j ≠ k := by
    rintro j hj rfl
    exact (gone_tRemFunc hrc heff).1 hj
  constructor
  · refine h.ranked.mono ?_
    rintro q c ⟨hl, hex⟩
    rw [hheader c (hne hex)] at hex
    exact ⟨(hlisted q c).1 hl, hex⟩
  · intro j hj hex
    have hjk := hne hex
    rw [hheader j hjk] at hex
    obtain ⟨p, hp, hr, hl⟩ := h.parent j hj hex
    exact ⟨p, (hparent j hjk).trans hp, hr, (hlisted _ _).2 hjk hl⟩
  · intro hex
    have hjk := hne hex
    rw [hheader _ hjk] at hex
    rw [hparent _ hjk]
    exact h.rootParent hex
  · intro j w hw
    rw [(frame_tRemFunc heff j).1] at hw
    exact h.key j w hw
  · exact fun p hp => h.rootFree p ((hlisted _ _).1 hp)
  · intro j hj hex
    rw [hheader j (hne hex)] at hex
    exact (hplaced j).mpr (h.placed j hj hex)
  · intro j hj
    rw [(frame_tRemFunc heff j).1]
    exact h.uid j ((hplaced j).mp hj)
  · intro hc
    rw [hheader _ hroot.symm]
    exact h.root (hcreated.mp hc)
  · refine h.ids.step (fun k => (hplaced k).mpr) (fun j w hw => .inl ?_) fun q w hw => .inl ?_
    · rwa [(frame_tRemFunc heff j).1] at hw
    · exact ((mem_children_tRemFunc hrc heff q w).mp hw).1

theorem delete {uid : Sds} {r : VC} (h : TreeLinks A (ht.node srv)) (hm : e.msg = .delete uid r)
    (hmsg : LinkMsg e.deps e.msg) (hdeps : ∀ d ∈ e.deps, d ∈ A) :
    ∃ ht', treeEffect srv ht e.msg = some ht' ∧ TreeLinks (A ++ [e]) (ht'.node srv) := by
  rw [hm] at hmsg
  obtain ⟨hroot, hpl⟩ := hmsg
  have hplaced : ∀ k, Placed (A ++ [e]) k ↔ Placed A k := by
    intro k
    simp [placed_concat, hm, TreeMsg.insertOf]
  have hcreated : Created (A ++ [e]) ↔ Created A := by simp [created_concat, hm, TreeMsg.isCreate]
  have hcreate : (ht.create srv (sdsnew uid)).node srv = ht.node srv := TreeHT.node_create
  rw [← hcreate] at h
  obtain ⟨u, hu⟩ := h.uid _ (hpl.mono hdeps)
  have hcrash : ∀ l : List Sds, ((ht.create srv (sdsnew uid)).node srv (sdsnew uid)).uid = none →
      l = [] := fun l hn => absurd (hu.symm.trans hn) (by simp)
  obtain ⟨ht', heff⟩ := exists_tRemFunc (t := r) (hcrash _)
  refine ⟨ht', by rw [hm]; exact heff, ?_⟩
  by_cases hrc : removeCheck ((ht.create srv (sdsnew uid)).node srv (sdsnew uid)).header r
  · exact h.remove hroot hu hrc heff hplaced hcreated
  · rw [tRemFunc_of_calm hrc] at heff
    cases heff
    exact h.congr (fun _ => Iff.rfl) (fun _ => rfl) (fun _ => rfl) (fun _ => rfl) hplaced hcreated

theorem changeValue {uid name : Sds} {v r : VC} (h : TreeLinks A (ht.node srv))
    (hm : e.msg = .changeValue uid name v r)
    (hk : ¬ removeCheck (ht.node srv (sdsnew uid)).header r) :
    ∃ ht', treeEffect srv ht e.msg = some ht' ∧ TreeLinks (A ++ [e]) (ht'.node srv) := by
  obtain ⟨ht', heff, hnode⟩ : ∃ ht', changeValueEffect srv uid name v r ht = some ht' ∧ _ :=
    changeValueEffect_of_calm hk
  refine ⟨ht', by rw [hm]; exact heff, ?_⟩
  refine h.congr ?_ ?_ ?_ ?_ ?_ ?_
  · exact fun j => by rw [hnode]
  · exact fun j => by rw [hnode]
  · exact fun j => by rw [hnode]
  · exact fun j => by rw [hnode]
  · exact fun k => by simp [placed_concat, hm, TreeMsg.insertOf]
  · simp [created_concat, hm, TreeMsg.isCreate]

theorem move {dst src : Sds} {v rDst rSrc : VC} (h : TreeLinks A (ht.node srv))
    (hm : e.msg = .move dst src v rDst rSrc) (hmsg : LinkMsg e.deps e.msg)
    (hloop : NoLoop A (ht.node srv) e.msg) (hdeps : ∀ d ∈ e.deps, d ∈ A)
    (hd : ¬ removeCheck (ht.node srv (sdsnew dst)).header rDst)
    (hs : ¬ removeCheck (ht.node srv (sdsnew src)).header rSrc) :
    ∃ ht', treeEffect srv ht e.msg = some ht' ∧ TreeLinks (A ++ [e]) (ht'.node srv) := by
  rw [hm] at hmsg hloop
  obtain ⟨hroot, hpl, hin⟩ := hmsg
  replace hpl := hpl.mono hdeps
  replace hin := hin.imp_right fun hin => hin.mono hdeps
  obtain ⟨u, hu⟩ := h.uid _ hpl
  have hkey : sdsnew u = sdsnew src := h.key _ u hu
  obtain ⟨ht', heff, hnode⟩ : ∃ ht', moveEffect srv dst src v rDst rSrc ht = some ht' ∧ _ :=
    moveEffect_of_calm hd hs hu
  refine ⟨ht', by rw [hm]; exact heff, ?_⟩
  have hplaced : ∀ k, Placed (A ++ [e]) k ↔ Placed A k := by
    intro k
    simp [placed_concat, hm, TreeMsg.insertOf]
  have hcreated : Created (A ++ [e]) ↔ Created A := by simp [created_concat, hm, TreeMsg.isCreate]
  have hheader : ∀ j, (ht'.node srv j).header = (ht.node srv j).header := fun j => by rw [hnode]
  have huid : ∀ j, (ht'.node srv j).uid = (ht.node srv j).uid := fun j => by rw [hnode]
  by_cases hmv : Moves (ht.node srv (sdsnew src)) dst v rSrc
  · have hparent : ∀ j, (ht'.node srv j).parent =
        if j = sdsnew src then some (sdsnew dst) else (ht.node srv j).parent := by
      intro j
      rw [hnode]
      by_cases hj : j = sdsnew src
      · subst hj
        simp [hmv]
      · simp [hj]
    -- the id leaves the old parent's children and joins the new one's
    have hchildren : ∀ q, (ht'.node srv q).children =
        let o := if q = sdsnewNull (ht.node srv (sdsnew src)).parent then
          setTypeRemove (ht.node srv q).children u else (ht.node srv q).children
        if q = sdsnew dst then setTypeAdd o u else o := by
      intro q
      rw [hnode]
      exact if_pos hmv
    have hlisted : ∀ q c, (Listed (ht'.node srv) q c →
        Listed (ht.node srv) q c ∨ (q = sdsnew dst ∧ c = sdsnew src)) ∧
        (c ≠ sdsnew src → Listed (ht.node srv) q c → Listed (ht'.node srv) q c) ∧
        (q = sdsnew dst → Listed (ht'.node srv) q (sdsnew src)) := by
      intro q c
      rw [← hkey]
      exact listed_relink (hchildren q) c
    constructor
    · refine (h.ranked.insert (P := (· = sdsnew dst)) (x := sdsnew src) ?_).mono ?_
      · rintro _ rfl
        exact hloop hmv
      · rintro q c ⟨hl, hex⟩
        rw [hheader] at hex
        exact ((hlisted q c).1 hl).imp_left fun hl => ⟨hl, hex⟩
    · intro k hk hex
      rw [hheader] at hex
      rw [hparent]
      by_cases hks : k = sdsnew src
      · subst hks
        refine ⟨sdsnew dst, if_pos rfl, fun hr => ?_, ?_⟩
        · rwa [sdsnew_sdsnew] at hr
        · rw [sdsnew_sdsnew]
          exact (hlisted _ (sdsnew src)).2.2 rfl
      · obtain ⟨p, hp, hr, hl⟩ := h.parent k hk hex
        rw [if_neg hks]
        exact ⟨p, hp, hr, (hlisted _ k).2.1 hks hl⟩
    · intro hex
      rw [hheader] at hex
      rw [hparent, if_neg hroot.symm]
      exact h.rootParent hex
    · intro k w hw
      rw [huid] at hw
      exact h.key k w hw
    · intro p hp
      rcases (hlisted p _).1 hp with hp | ⟨-, hr⟩
      · exact h.rootFree p hp
      · exact hroot hr.symm
    · intro k hk hex
      rw [hheader] at hex
      exact (hplaced k).mpr (h.placed k hk hex)
    · intro k hk
      rw [huid]
      exact h.uid k ((hplaced k).mp hk)
    · intro hc
      rw [hheader]
      exact h.root (hcreated.mp hc)
    · refine h.ids.step (fun k => (hplaced k).mpr) (fun k w hw => .inl (huid k ▸ hw)) ?_
      intro q w hw
      rcases (mem_relink (hchildren q) w).mp hw with ⟨rfl, rfl⟩ | ⟨hw, -⟩
      · refine .inr ⟨h.ids.uid _ w hu, (hplaced _).mpr (hkey ▸ hpl), ?_⟩
        exact hin.imp_right (hplaced _).mpr
      · exact .inl hw
  · refine h.congr (fun j => by rw [hheader]) huid ?_ ?_ hplaced hcreated
    · intro j
      rw [hnode]
      dsimp only
      rw [if_neg]
      rintro ⟨rfl, hmv'⟩
      exact hmv hmv'
    · intro j
      rw [hnode]
      exact if_neg hmv

/-! ### Climbing and walking -/

theorem below_of_climbs (h : TreeLinks A F) {x : Sds}
    (hx : Climbs rootId (alive F) (parentId F) x) : ReflTransGen (Edge F) rootId (sdsnew x) := by
  induction hx with
  | root => exact (show sdsnew rootId = rootId by decide) ▸ .refl
  | @step x y _ hal hup _ ih =>
    rw [alive_iff] at hal
    by_cases hr : sdsnew x = rootId
    · rw [hr]
    · obtain ⟨p, hp, -, hl⟩ := h.parent _ hr hal
      obtain rfl : p = y := Option.some.inj (hp.symm.trans hup)
      exact ih.tail ⟨hl, hal⟩

theorem visits_of_edges (h : TreeLinks A F) {x y : Sds} (hn : NulFree x)
    (hx : (F x).header.Exists) (hpath : ReflTransGen (Edge F) x y) :
    NulFree y ∧ Visits (alive F) (childIds srv F) x y := by
  have halive : ∀ {z}, NulFree z → (F z).header.Exists → alive F z := by
    intro z hz hex
    rw [alive_iff, sdsnew_of_nulFree hz]
    exact hex
  induction hpath with
  | refl => exact ⟨hn, .here (halive hn hx)⟩
  | @tail b c _ hbc ih =>
    obtain ⟨⟨u, hu, rfl⟩, hex⟩ := hbc
    obtain ⟨hb, hvis⟩ := ih
    have hun := (h.ids.children b u hu).1
    rw [sdsnew_of_nulFree hun] at hex ⊢
    refine ⟨hun, hvis.tail ?_ (halive hun hex)⟩
    rwa [mem_childIds, sdsnew_of_nulFree hb]

/-- **What the check of a move finds.** A destination that is not in the subtree of the node, as
`subTree` collects it, cannot be reached from the node. -/
theorem not_below_of_subTree (h : TreeLinks A (ht.node srv)) {fuel : ℕ} {dst src : Sds}
    {srcSt : SetObj} (hex : (ht.node srv (sdsnew src)).header.Exists) (hdst : NulFree dst)
    (hst : subTree srv ht fuel src = some srcSt) (hno : dst ∉ srcSt) :
    ¬ ReflTransGen (Edge (ht.node srv)) (sdsnew src) (sdsnew dst) := by
  intro hpath
  rw [sdsnew_of_nulFree hdst] at hpath
  exact hno ((mem_subTree hst).mpr (h.visits_of_edges (nulFree_sdsnew src) hex hpath).2)

theorem acc_below (h : TreeLinks A F) (srv : Server) (x : Sds) :
    Acc (Below (alive F) (childIds srv F)) x := by
  induction hk : sdsnew x using (WellFounded.intro h.ranked.acc_down).induction generalizing x with
  | _ k ih =>
    refine Acc.intro x ?_
    rintro y ⟨-, hy⟩
    by_cases hal : alive F y
    · rw [mem_childIds, hk] at hy
      exact ih (sdsnew y) ⟨⟨y, hy, rfl⟩, alive_iff.mp hal⟩ y rfl
    · exact Acc.intro y fun z hz => absurd hz.1 hal

theorem acc_above (h : TreeLinks A F) {x : Sds} (hx : sdsnew x = rootId → x = rootId) :
    Acc (Above rootId (alive F) (parentId F)) x := by
  induction hk : sdsnew x using (WellFounded.intro h.ranked.acc_up).induction generalizing x with
  | _ k ih =>
    refine Acc.intro x ?_
    rintro y ⟨hne, hal, hup⟩
    rw [alive_iff, hk] at hal
    have hkr : k ≠ rootId := fun hr => hne (hx (hk.trans hr))
    obtain ⟨p, hp, hroot, hl⟩ := h.parent k hkr hal
    obtain rfl : p = y := by
      rw [parentId, hk] at hup
      exact Option.some.inj (hp.symm.trans hup)
    exact ih (sdsnew p) ⟨hl, hal⟩ hroot rfl

theorem parent_ne_none (h : TreeLinks A F) {x : Sds} (hx : alive F x) : parentId F x ≠ none := by
  rw [alive_iff] at hx
  rw [parentId]
  by_cases hr : sdsnew x = rootId
  · rw [hr] at hx ⊢
    exact h.rootParent hx
  · obtain ⟨p, hp, -⟩ := h.parent _ hr hx
    rw [hp]
    simp

end TreeLinks

/-- Following parent fields, by key. -/
def ParentOf (F : Forest) (k p : Sds) : Prop := (F k).parent.map sdsnew = some p

theorem TreeLinks.ascends {A : List (TreeEvent N)} {F : Forest} (h : TreeLinks A F)
    (k : Sds) : ∃ j, ReflTransGen (ParentOf F) k j ∧ (j = rootId ∨ ¬ (F j).header.Exists) := by
  induction k using (WellFounded.intro h.ranked.acc_up).induction with
  | _ k ih =>
    by_cases hk : k = rootId
    · exact ⟨k, .refl, .inl hk⟩
    · by_cases hex : (F k).header.Exists
      · obtain ⟨p, hp, -, hl⟩ := h.parent k hk hex
        obtain ⟨j, hpath, hj⟩ := ih (sdsnew p) ⟨hl, hex⟩
        exact ⟨j, .head (by rw [ParentOf, hp, Option.map_some]) hpath, hj⟩
      · exact ⟨k, .refl, .inr hex⟩

/-! ### The create comes first -/

/-- A command other than create is accepted only where there is a table, and no command makes
one. -/
theorem treePrepare_present {srv : Server} {ht : TreeHT} {c : TreeCall}
    {p : Prepared TreeHT TreeMsg} (h : treePrepare srv c ht = some p) :
    (p.state.present → ht.present) ∧ ∀ m ∈ p.msg, m.isCreate = false → ht.present := by
  have hrefused : ∀ replies, some ⟨ht, replies, none⟩ = some p →
      (p.state.present → ht.present) ∧ ∀ m ∈ p.msg, m.isCreate = false → ht.present := by
    intro replies h
    cases h
    exact ⟨fun hp => hp, by simp⟩
  have hother : ∀ {rest : Option (Prepared TreeHT TreeMsg)} {replies : List Reply},
      (if ¬ ht.present then some ⟨ht, replies, none⟩ else rest) = some p →
      (p.state.present → ht.present) ∧ ∀ m ∈ p.msg, m.isCreate = false → ht.present := by
    intro rest replies h
    split at h
    · exact hrefused _ h
    · next hp =>
      have hp := not_not.mp hp
      exact ⟨fun _ => hp, fun _ _ _ => hp⟩
  obtain ⟨fuel, cmd⟩ := c
  cases cmd with
  | create =>
    simp only [treePrepare, createPrepare] at h
    split at h
    · exact hrefused _ h
    · cases h
      refine ⟨fun hp => hp, fun m hm hc => ?_⟩
      cases hm
      cases hc
  | insert => exact hother h
  | delete => exact hother h
  | changeValue => exact hother h
  | move => exact hother h

variable {iter : Fin N → Iteration} {g : TreeNet N}

/-- In causal order the create comes first: where there is a table, and in the history of every
other message. -/
theorem created_of_causal {C : TreeCond N}
    (hC : ∀ {g a g'}, C g a g' → causal g a g') (hg : Reachable (rwTree iter) C g) :
    (∀ e ∈ g.log, e.msg.isCreate = false → Created e.deps) ∧
      ∀ r ht, g.state r = some ht → ht.present → Created (g.applied r) := by
  refine hg.joint_invariant (I := fun _ A s => ∀ ht, s = some ht → ht.present → Created A)
    (J := fun e => e.msg.isCreate = false → Created e.deps) ?_ ?_ ?_ ?_ ?_
  · intro r ht hs hp
    cases hs
    cases hp
  · simp [OpBased.start]
  · intro g g' r c s o _ _ hp ih ht' hs hpres
    obtain ⟨ht, hst, h⟩ := Option.bind_eq_some_iff.mp hp
    obtain ⟨p, hprep, h⟩ := Option.bind_eq_some_iff.mp h
    obtain ⟨rfl, -⟩ := Prod.mk.inj (Option.some.inj h)
    cases hs
    exact ih ht hst ((treePrepare_present hprep).1 hpres)
  · intro g g' r c s m _ _ ih _ _ hp hm
    obtain ⟨ht, hst, h⟩ := Option.bind_eq_some_iff.mp hp
    obtain ⟨p, hprep, h⟩ := Option.bind_eq_some_iff.mp h
    obtain ⟨-, hmsg⟩ := Prod.mk.inj (Option.some.inj h)
    exact ih ht hst ((treePrepare_present hprep).2 m hmsg hm)
  · intro g' r e A s hg' hJ he happ _ ht _ _
    rw [created_concat]
    cases hm : e.msg.isCreate with
    | true => exact .inr rfl
    | false =>
      have hcausal := Reachable.causalList hC hg' r
      rw [happ] at hcausal
      obtain ⟨d, hd, hc⟩ := hJ e he hm
      exact .inl ⟨d, hcausal.last hd, hc⟩

/-! ### Runs -/

theorem moves_self {srv : Server} {n : Rtn} (hn : RtnShape srv n) (hid : 0 ≤ srv.p2pId)
    (hlt : srv.p2pId.toNat < srv.p2pCount) (dst : Sds) :
    Moves n dst (nowVC n.moveVC) n.header.current := by
  obtain ⟨hsize, hkeep⟩ := hn.moveVC
  have hlt' : n.moveVC.id.toNat < n.moveVC.size := by rwa [hkeep, hsize]
  refine ⟨(updateCheck_iff rfl).mpr rfl, ?_⟩
  rw [checkCurrency_nowVC hlt', if_neg Bool.false_ne_true]
  exact causallyReady_nowVC (by rwa [hkeep]) hlt'

section

variable {srv : Server} {A : List (TreeEvent N)} {ht : TreeHT} {fuel : ℕ} {cmd : TreeCmd}
  {m : TreeMsg}

/-- What is sent. In particular the root is not moved: all members of the tree are in its
subtree. -/
theorem TreeLinks.linkMsg (h : TreeLinks A (ht.node srv)) (hcreated : ht.present → Created A)
    (hacc : Accepts srv ht fuel cmd m) (hkept : cmd.KeepsRoot) (hwhole : cmd.IdsWhole) :
    LinkMsg A m := by
  have hmem : ∀ {x}, istreeMember ht fuel x = some true →
      sdsnew x = rootId ∨ Placed A (sdsnew x) := by
    intro x hx
    by_cases hr : sdsnew x = rootId
    · exact .inl hr
    · exact .inr (h.placed _ hr ((exists_of_istreeMember srv hx).resolve_left hr))
  cases hacc with
  | create => trivial
  | insert hp hu => exact ⟨ne_rootId_of_istreeMember hu, hwhole.2, hwhole.1, hmem hp⟩
  | delete hu => exact ⟨hkept, (hmem hu).resolve_left hkept⟩
  | changeValue => trivial
  | @move dst src srcSt hd hs hpres hst hno =>
    have hroot : sdsnew src ≠ rootId := by
      intro hr
      have hclimb : Climbs rootId (alive (ht.node srv)) (parentId (ht.node srv)) (sdsnew dst) := by
        rw [istreeMember_eq_climb srv] at hd
        exact (climbs_iff_of_climb hd).mp rfl
      have hbelow := h.below_of_climbs hclimb
      have hex := h.root (hcreated hpres)
      rw [sdsnew_sdsnew, ← hr] at hbelow
      rw [← hr] at hex
      exact h.not_below_of_subTree hex hwhole hst hno hbelow
    exact ⟨hroot, (hmem hs).resolve_left hroot, hmem hd⟩

/-- **Moves close no loop where they are accepted.** -/
theorem TreeLinks.noLoop_of_accepts {deps : List (TreeEvent N)}
    (h : TreeLinks A (ht.node srv)) (hacc : Accepts srv ht fuel cmd m) (hmsg : LinkMsg deps m)
    (hwhole : cmd.IdsWhole) (hins : m.insertOf.isSome → NoLoop A (ht.node srv) m) :
    NoLoop A (ht.node srv) m := by
  cases hacc with
  | create => trivial
  | insert => exact hins rfl
  | delete => trivial
  | changeValue => trivial
  | move hd hs _ hst hno =>
    have hex := (exists_of_istreeMember srv hs).resolve_left hmsg.1
    exact fun _ => h.not_below_of_subTree hex hwhole hst hno

end

/-- **Nothing crashes and no loop is closed.** -/
theorem treeLinks_of_reachable (hg : Reachable (rwTree iter) (loopFree iter) g) :
    (∀ e ∈ g.log, LinkMsg e.deps e.msg) ∧ ∀ r, ∃ ht, g.state r = some ht ∧
      TreeLinks (g.applied r) (ht.node (.of iter r)) := by
  refine tree_apply_invariant (J := fun e => LinkMsg e.deps e.msg)
    (P := fun _ A F => TreeLinks A F) ?_ (by simp [OpBased.start]) ?_ ?_ hg
  · exact fun r => ⟨.empty, rfl, treeLinks_rtnNew _⟩
  · intro g g' r fuel cmd m ht hg ihJ hs hok hc hlog happ hacc
    exact hok.linkMsg ((created_of_causal (fun h => h.1) hg).2 r ht hs) hacc hc.2.1 hc.2.2.1
  · intro g g' r e ht ha ihJ hok
    have hcalm := @TreeApplies.calm N iter (loopFree iter) g g' r e ht (fun h => h.1) ha
    have hdeps : ∀ d ∈ e.deps, d ∈ g.applied r := fun d => ha.mem_applied_of_deps fun h => h.1
    have hmsg := ihJ e ha.mem
    have hloop : NoLoop (g.applied r) (ht.node (.of iter r)) e.msg := by
      obtain ⟨ht₀, hs, hnode⟩ := ha.state
      rw [← hnode] at hok ⊢
      -- a delivery is asked about, and so is an insert; the origin's own moves are checked
      rcases ha.source with ⟨i, hc, hi⟩ | ⟨ht₁, fuel, cmd, hc, hs₁, hacc⟩
      · exact hc.2.2.2 e hi ht₀ hs
      · obtain rfl : ht₀ = ht₁ := Option.some.inj (hs.symm.trans hs₁)
        exact hok.noLoop_of_accepts hacc hmsg hc.2.2.1 fun hins => hc.2.2.2 ht₀ hs _ hins hacc
    cases hm : e.msg with
    | create => exact ⟨_, rfl, hok.create hm (by simp [Server.of])⟩
    | insert name parent uid rp t =>
      rw [hm] at hcalm
      rw [← hm]
      exact hok.insert hm hmsg hloop hdeps (hcalm rfl (by simp [TreeMsg.stampsFor]))
        (hcalm rfl (by simp [TreeMsg.stampsFor]))
    | delete uid t =>
      rw [← hm]
      exact hok.delete hm hmsg hdeps
    | changeValue uid name v t =>
      rw [hm] at hcalm
      rw [← hm]
      exact hok.changeValue hm (hcalm rfl (by simp [TreeMsg.stampsFor]))
    | move dst src v rDst rSrc =>
      rw [hm] at hcalm
      rw [← hm]
      exact hok.move hm hmsg hloop hdeps (hcalm rfl (by simp [TreeMsg.stampsFor]))
        (hcalm rfl (by simp [TreeMsg.stampsFor]))

/-- **No loops, and walks that end.** In every run of creates, inserts, deletes, writes and moves
under causal delivery in which the root is not deleted, ids do not go on after a NUL byte, no
message arrives where it hangs a node below itself, and no insert brings a node back below itself:
every replica is up, following parents from any node leads to the root or to a node that is gone,
children sets have no loops among nodes that are there, and `istreeMember` and `subTree` return for
every id. Moves are not restricted where they are issued. Clocks are unbounded here: in the code
they are exact below `INT_MAX` and for at most `100` replicas. -/
theorem rwTree_acyclic (hg : Reachable (rwTree iter) (loopFree iter) g) (r : Fin N) :
    ∃ ht, g.state r = some ht ∧
      (∀ k, ∃ j, ReflTransGen (ParentOf (ht.node (.of iter r))) k j ∧
        (j = rootId ∨ ¬ (ht.node (.of iter r) j).header.Exists)) ∧
      (∀ k, ¬ TransGen (fun p c => (ht.node (.of iter r) p).header.Exists ∧
        (ht.node (.of iter r) c).header.Exists ∧ Listed (ht.node (.of iter r)) p c) k k) ∧
      ∀ id, (∃ n b, istreeMember ht n id = some b) ∧
        ∃ n o, subTree (.of iter r) ht n id = some o := by
  obtain ⟨ht, hs, h⟩ := (treeLinks_of_reachable hg).2 r
  refine ⟨ht, hs, h.ascends, ?_, fun id => ⟨?_, ?_⟩⟩
  · refine Ranked.not_transGen_self (h.ranked.mono ?_)
    rintro p c ⟨-, hex, hl⟩
    exact ⟨hl, hex⟩
  · simp only [istreeMember_eq_climb (.of iter r)]
    refine exists_climb (fun y _ => h.parent_ne_none) (h.acc_above ?_)
    rw [sdsnew_sdsnew]
    exact fun hr => hr
  · exact exists_subTree (h.acc_below _ _)

/-! ### Moving leaves -/

/-- The node with key `x` has no children, and `p` is another one. -/
def Leaf (F : Forest) (x p : Sds) : Prop := (F x).children.elems = [] ∧ p ≠ x

instance (F : Forest) (x p : Sds) : Decidable (Leaf F x p) :=
  inferInstanceAs (Decidable ((F x).children.elems = [] ∧ p ≠ x))

theorem Leaf.not_below {F : Forest} {x p : Sds} (h : Leaf F x p) :
    ¬ ReflTransGen (Edge F) x p := by
  intro hpath
  rcases hpath.cases_head with rfl | ⟨y, ⟨⟨u, hu, -⟩, -⟩, -⟩
  · exact h.2 rfl
  · rw [← SetObj.mem_elems, h.1] at hu
    cases hu

/-- The message inserts or moves a node without children, and not under itself. -/
def LeafMsg (F : Forest) : TreeMsg → Prop
  | .insert _ parent uid _ _ => Leaf F (sdsnew uid) (sdsnew parent)
  | .move dst src _ _ _ => Leaf F (sdsnew src) (sdsnew dst)
  | _ => True

instance (F : Forest) : (m : TreeMsg) → Decidable (LeafMsg F m)
  | .insert _ parent uid _ _ => inferInstanceAs (Decidable (Leaf F (sdsnew uid) (sdsnew parent)))
  | .move dst src _ _ _ => inferInstanceAs (Decidable (Leaf F (sdsnew src) (sdsnew dst)))
  | .create | .delete _ _ | .changeValue _ _ _ _ => inferInstanceAs (Decidable True)

theorem LeafMsg.noLoop {A : List (TreeEvent N)} {F : Forest} {m : TreeMsg}
    (h : LeafMsg F m) : NoLoop A F m := by
  cases m with
  | insert name parent uid rp r =>
    rintro - - p (rfl | ⟨u, hu, hux⟩)
    · exact h.not_below
    · refine Leaf.not_below ⟨h.1, ?_⟩
      rintro rfl
      rw [← SetObj.mem_elems, h.1] at hu
      cases hu
  | move dst src v rDst rSrc => exact fun _ => h.not_below
  | create => trivial
  | delete => trivial
  | changeValue => trivial

/-- The command does not insert a node that has children, nor one under itself. -/
def TreeCmd.InsertsLeaf (F : Forest) : TreeCmd → Prop
  | .insert _ parent uid => Leaf F (sdsnew uid) (sdsnew parent)
  | _ => True

instance (F : Forest) : (cmd : TreeCmd) → Decidable (cmd.InsertsLeaf F)
  | .insert _ parent uid => inferInstanceAs (Decidable (Leaf F (sdsnew uid) (sdsnew parent)))
  | .create | .delete _ | .changeValue _ _ | .move _ _ => inferInstanceAs (Decidable True)

/-- What arrives hangs leaves only, and so do inserts. -/
def leavesHung (iter : Fin N → Iteration) : TreeCond N
  | g, .deliver r i, _ => ∀ e ∈ g.log[i]?, ∀ ht ∈ g.state r, LeafMsg (ht.node (.of iter r)) e.msg
  | g, .client r c, _ => ∀ ht ∈ g.state r, c.cmd.InsertsLeaf (ht.node (.of iter r))

instance (iter : Fin N → Iteration) (g : TreeNet N)
    (a : Act (Fin N) TreeCall) (g' : TreeNet N) :
    Decidable (leavesHung iter g a g') :=
  match a with
  | .deliver r i => inferInstanceAs (Decidable
      (∀ e ∈ g.log[i]?, ∀ ht ∈ g.state r, LeafMsg (ht.node (.of iter r)) e.msg))
  | .client r c => inferInstanceAs (Decidable
      (∀ ht ∈ g.state r, c.cmd.InsertsLeaf (ht.node (.of iter r))))

/-- Causal delivery, the root is kept, ids are whole, and only leaves are hung anywhere but by
moves where they are issued. -/
def leavesOnly (iter : Fin N → Iteration) : TreeCond N :=
  fun g a g' => causal g a g' ∧ rootKept g a g' ∧ idsWhole g a g' ∧ leavesHung iter g a g'

instance (iter : Fin N → Iteration) (g : TreeNet N)
    (a : Act (Fin N) TreeCall) (g' : TreeNet N) :
    Decidable (leavesOnly iter g a g') := inferInstanceAs (Decidable (_ ∧ _ ∧ _ ∧ _))

theorem loopFree_of_leavesOnly {g' : TreeNet N}
    {a : Act (Fin N) TreeCall} (h : leavesOnly iter g a g') : loopFree iter g a g' := by
  refine ⟨h.1, h.2.1, h.2.2.1, ?_⟩
  have hleaf := h.2.2.2
  cases a with
  | deliver r i => exact fun e he ht hs => (hleaf e he ht hs).noLoop
  | client r c =>
    intro ht hs m hins hacc
    have hcmd := hleaf ht hs
    obtain ⟨fuel, cmd⟩ := c
    cases hacc with
    | insert => exact LeafMsg.noLoop hcmd
    | create | delete | changeValue | move => cases hins

end

/-- Replica `0` inserts two nodes, replica `1` moves one of them below the other, and the move is
applied at replica `0`, which then moves both below a third node: no loop is closed. -/
theorem rwTree_acyclic_leaf :
    ∃ g, Reachable (rwTree (inOrder 2)) (loopFree fun _ => .insertion) g ∧
      (∃ e ∈ g.applied 0, e.msg.stampsFor [98] ≠ [] ∧ e.origin = 1) ∧ ∃ ht, g.state 0 = some ht ∧
        (ht.node (.of (inOrder 2) 0) [98]).parent = some [97] ∧
        (ht.node (.of (inOrder 2) 0) [97]).parent = some [99] ∧
        ∃ n b, istreeMember ht n [98] = some b := by
  obtain ⟨g, hg, hmv, hpar⟩ :=
    (rwTree (inOrder 2)).exists_reachable (leavesOnly fun _ => .insertion)
      (fun g => (∃ e ∈ g.applied 0, e.msg.stampsFor [98] ≠ [] ∧ e.origin = 1) ∧
        (g.state 0).any fun ht =>
          let F := ht.node (.of (inOrder 2) 0)
          (F [98]).parent = some [97] ∧ (F [97]).parent = some [99])
      [.client 0 ⟨0, .create⟩, .client 0 ⟨1, .insert [118] rootId [97]⟩,
        .client 0 ⟨1, .insert [118] rootId [98]⟩, .deliver 1 0, .deliver 1 1, .deliver 1 2,
        .client 1 ⟨5, .move [97] [98]⟩, .deliver 0 3, .client 0 ⟨1, .insert [118] rootId [99]⟩,
        .client 0 ⟨5, .move [99] [97]⟩] (by decide)
  have hg' := hg.mono (fun h => loopFree_of_leavesOnly h)
  obtain ⟨ht, hs, -, -, hend⟩ := rwTree_acyclic hg' 0
  rw [hs] at hpar
  obtain ⟨hb, ha⟩ := of_decide_eq_true hpar
  exact ⟨g, hg', hmv, ht, hs, hb, ha, (hend [98]).1⟩

/-! ### Loops -/

/-- The nodes with keys `x` and `y` are there and are each other's children. -/
def Loop (F : Forest) (x y : Sds) : Prop :=
  (F x).header.Exists ∧ (F y).header.Exists ∧ Listed F x y ∧ Listed F y x

theorem istreeMember_eq_none {srv : Server} {ht : TreeHT} {x y : Sds} (hx : NulFree x)
    (hroot : x ≠ rootId ∧ y ≠ rootId) (hax : alive (ht.node srv) x) (hay : alive (ht.node srv) y)
    (hxy : parentId (ht.node srv) x = some y) (hyx : parentId (ht.node srv) y = some x) (n : ℕ) :
    istreeMember ht n x = none := by
  rw [istreeMember_eq_climb srv, sdsnew_of_nulFree hx]
  refine climb_eq_none (P := fun z => z = x ∨ z = y) ?_ (.inl rfl) n
  rintro z (rfl | rfl)
  · exact ⟨hroot.1, hax, y, hxy, .inr rfl⟩
  · exact ⟨hroot.2, hay, x, hyx, .inl rfl⟩

/-- **Concurrent moves make a loop, and so do inserts that bring back a node and ids that go on
after a NUL byte.** First, two replicas move two nodes below each other at the same time. Once both
messages are applied, each node is the other's parent and child, and `istreeMember` does not end.
Second, one replica deletes a node, inserts the child it had under the root, and inserts the node
again under that child; `subTree` does not end. Third, a node called `null`, the parent string of
the root, is inserted under an id that continues the root's after a NUL byte. Fourth, the id of a
child goes on after a NUL byte, and the node is moved below the child under its shorter name. -/
theorem rwTree_moves_loop :
    (∃ g, Reachable (rwTree (inOrder 2))
        (fun g a g' => causal g a g' ∧ rootKept g a g') g ∧
      ∃ ht, g.state 0 = some ht ∧
        Loop (ht.node (.of (inOrder 2) 0)) [97] [98] ∧
        ∀ n, istreeMember ht n [97] = none) ∧
    (∃ g, Reachable (rwTree (inOrder 2))
        (fun g a g' => causal g a g' ∧ rootKept g a g') g ∧
      ∃ ht, g.state 0 = some ht ∧
        Loop (ht.node (.of (inOrder 2) 0)) [97] [98] ∧
        ∀ n, subTree (.of (inOrder 2) 0) ht n [97] = none) ∧
    (∃ g, Reachable (rwTree (inOrder 2))
        (fun g a g' => causal g a g' ∧ rootKept g a g') g ∧
      ∃ ht, g.state 0 = some ht ∧ ∀ n, istreeMember ht n nullId = none) ∧
    ∃ g, Reachable (rwTree (inOrder 2))
        (fun g a g' => causal g a g' ∧ rootKept g a g') g ∧
      ∃ ht, g.state 0 = some ht ∧
        Loop (ht.node (.of (inOrder 2) 0)) [97] [98] ∧
        ∀ n, istreeMember ht n [97] = none := by
  refine ⟨?_, ?_, ?_, ?_⟩
  · obtain ⟨g, hg, hloop⟩ :=
      (rwTree (inOrder 2)).exists_reachable
        (fun g a g' => causal g a g' ∧ rootKept g a g')
        (fun g => (g.state 0).any fun ht =>
          let F := ht.node (.of (inOrder 2) 0)
          (F [97]).header.Exists ∧ (F [98]).header.Exists ∧ (F [97]).parent = some [98] ∧
            (F [98]).parent = some [97] ∧ [98] ∈ (F [97]).children ∧ [97] ∈ (F [98]).children)
        [.client 0 ⟨0, .create⟩, .client 0 ⟨1, .insert [118] rootId [97]⟩,
          .client 0 ⟨1, .insert [118] rootId [98]⟩, .deliver 1 0, .deliver 1 1, .deliver 1 2,
          .client 0 ⟨5, .move [98] [97]⟩, .client 1 ⟨5, .move [97] [98]⟩, .deliver 0 4]
        (by decide)
    obtain ⟨ht, hs, hloop⟩ := (Option.any_eq_true ..).mp hloop
    obtain ⟨ha, hb, hpa, hpb, hca, hcb⟩ := of_decide_eq_true hloop
    exact ⟨g, hg, ht, hs, ⟨ha, hb, ⟨[98], hca, by decide⟩, ⟨[97], hcb, by decide⟩⟩,
      istreeMember_eq_none (y := [98]) (by decide) (by decide) (alive_iff.mpr ha)
        (alive_iff.mpr hb) hpa hpb⟩
  · obtain ⟨g, hg, hloop⟩ :=
      (rwTree (inOrder 2)).exists_reachable
        (fun g a g' => causal g a g' ∧ rootKept g a g')
        (fun g => (g.state 0).any fun ht =>
          let F := ht.node (.of (inOrder 2) 0)
          (F [97]).header.Exists ∧ (F [98]).header.Exists ∧ [98] ∈ (F [97]).children ∧
            [97] ∈ (F [98]).children)
        [.client 0 ⟨0, .create⟩, .client 0 ⟨1, .insert [118] rootId [97]⟩,
          .client 0 ⟨2, .insert [118] [97] [98]⟩, .client 0 ⟨2, .delete [97]⟩,
          .client 0 ⟨2, .insert [118] rootId [98]⟩, .client 0 ⟨2, .insert [118] [98] [97]⟩]
        (by decide)
    obtain ⟨ht, hs, hloop⟩ := (Option.any_eq_true ..).mp hloop
    obtain ⟨ha, hb, hca, hcb⟩ := of_decide_eq_true hloop
    refine ⟨g, hg, ht, hs, ⟨ha, hb, ⟨[98], hca, by decide⟩, ⟨[97], hcb, by decide⟩⟩, fun n => ?_⟩
    rw [subTree_eq_queueWalk]
    refine Option.map_eq_none_iff.mpr (queueWalk_eq_none (P := fun x => x = [97] ∨ x = [98]) ?_
      ⟨[97], by decide, .inl rfl⟩ n)
    rintro x (rfl | rfl)
    · exact ⟨alive_iff.mpr ha, [98], mem_childIds.mpr hca, .inr rfl⟩
    · exact ⟨alive_iff.mpr hb, [97], mem_childIds.mpr hcb, .inl rfl⟩
  · obtain ⟨g, hg, hloop⟩ :=
      (rwTree (inOrder 2)).exists_reachable
        (fun g a g' => causal g a g' ∧ rootKept g a g')
        (fun g => (g.state 0).any fun ht =>
          let F := ht.node (.of (inOrder 2) 0)
          (F rootId).header.Exists ∧ (F nullId).header.Exists ∧ (F rootId).parent = some nullId ∧
            (F nullId).parent = some (rootId ++ [0]))
        [.client 0 ⟨0, .create⟩, .client 0 ⟨1, .insert [118] (rootId ++ [0]) nullId⟩] (by decide)
    obtain ⟨ht, hs, hloop⟩ := (Option.any_eq_true ..).mp hloop
    obtain ⟨hr, hn, hpr, hpn⟩ := of_decide_eq_true hloop
    have hcut : sdsnew (rootId ++ [0]) = rootId := by decide
    exact ⟨g, hg, ht, hs, istreeMember_eq_none (y := rootId ++ [0]) (by decide) (by decide)
      (alive_iff.mpr hn) (alive_iff.mpr (by rwa [hcut])) hpn (by rwa [parentId, hcut])⟩
  · obtain ⟨g, hg, hloop⟩ :=
      (rwTree (inOrder 2)).exists_reachable
        (fun g a g' => causal g a g' ∧ rootKept g a g')
        (fun g => (g.state 0).any fun ht =>
          let F := ht.node (.of (inOrder 2) 0)
          (F [97]).header.Exists ∧ (F [98]).header.Exists ∧ (F [97]).parent = some [98] ∧
            (F [98]).parent = some [97] ∧ [98, 0] ∈ (F [97]).children ∧ [97] ∈ (F [98]).children)
        [.client 0 ⟨0, .create⟩, .client 0 ⟨1, .insert [118] rootId [97]⟩,
          .client 0 ⟨2, .insert [118] [97] [98, 0]⟩, .client 0 ⟨5, .move [98] [97]⟩]
        (by decide)
    obtain ⟨ht, hs, hloop⟩ := (Option.any_eq_true ..).mp hloop
    obtain ⟨ha, hb, hpa, hpb, hca, hcb⟩ := of_decide_eq_true hloop
    exact ⟨g, hg, ht, hs, ⟨ha, hb, ⟨[98, 0], hca, by decide⟩, ⟨[97], hcb, by decide⟩⟩,
      istreeMember_eq_none (y := [98]) (by decide) (by decide) (alive_iff.mpr ha)
        (alive_iff.mpr hb) hpa hpb⟩

end RemoveWin
