import RemoveWin.Tree.Tidy

/-!
# The reference tree

A replica that hears of nobody keeps the tree that the benchmark keeps beside it in `tree_log`.
There, deleting a node erases its subtree. The server only takes the owner off the node: whatever
hung below it stays marked as there, in the table and in children sets, and is out of sight
because a climb from it does not get to the root.

`RefTree` is the tree of `tree_log`, with `insert`, `del` and `changevalue`, and with moves, which
`tree_log` does not have. `Mirrors` relates it to the table of the server. Hidden nodes are those
that are there without being in the reference tree, and what keeps them hidden is that none hangs
under a node of the reference tree. An insert under the id of a node that is gone would bring its
descendants back, so such inserts are left out.
-/

namespace RemoveWin

open Replicated Walk Relation

/-! ### The reference tree -/

/-- A node of the reference tree. -/
structure RefNode where
  /-- Its value. -/
  value : Sds
  /-- The id of its parent. -/
  parent : Sds

/-- The reference tree: the nodes below the root. -/
abbrev RefTree := Sds → Option RefNode

namespace RefTree

variable (T : RefTree)

/-- The id is in the tree. -/
def Present (x : Sds) : Prop := x = rootId ∨ ∃ n, T x = some n

/-- `c` is a child of `p`. -/
def Child (p c : Sds) : Prop := ∃ n, T c = some n ∧ n.parent = p

/-- `y` is in the subtree of `x`. -/
def InSubtree : Sds → Sds → Prop := ReflTransGen T.Child

/-- Whether the tree takes a command. There is one tree, so it is not created again. -/
def Accepts : TreeCmd → Prop
  | .create => False
  | .insert _ parent uid => T.Present parent ∧ ¬ T.Present uid
  | .delete uid => T.Present uid
  | .changeValue uid _ => T.Present uid
  | .move dst src => T.Present dst ∧ T.Present src ∧ ¬ T.InSubtree src dst

open scoped Classical in
/-- The tree after a command that it takes. -/
noncomputable def taken : TreeCmd → RefTree
  | .create => T
  | .insert name parent uid => Function.update T uid (some ⟨name, parent⟩)
  | .delete uid => fun y => if T.InSubtree uid y then none else T y
  | .changeValue uid name => Function.update T uid ((T uid).map fun n => { n with value := name })
  | .move dst src => Function.update T src ((T src).map fun n => { n with parent := dst })

open scoped Classical in
/-- The tree after any command. -/
noncomputable def perform (c : TreeCmd) : RefTree := if T.Accepts c then T.taken c else T

variable {T}

theorem InSubtree.present {x y : Sds} (h : T.InSubtree x y) (hx : T.Present x) : T.Present y := by
  rcases h.cases_tail with rfl | ⟨_, _, n, hn, _⟩
  · exact hx
  · exact .inr ⟨n, hn⟩

end RefTree

/-- The tree that commands lead to. -/
noncomputable def refTree (h : List TreeCmd) : RefTree := h.foldl RefTree.perform fun _ => none

theorem refTree_concat (h : List TreeCmd) (c : TreeCmd) :
    refTree (h ++ [c]) = (refTree h).perform c := by
  rw [refTree, List.foldl_concat, refTree]

theorem refTree_concat_of_accepts {h : List TreeCmd} {c : TreeCmd} (hc : (refTree h).Accepts c) :
    refTree (h ++ [c]) = (refTree h).taken c := (refTree_concat h c).trans (if_pos hc)

/-- The ids that have been in the tree at some time. -/
def Seen (h : List TreeCmd) : Set Sds := {x | ∃ h', h' <+: h ∧ (refTree h').Present x}

theorem seen_nil : Seen [] = {rootId} := by
  ext x
  simp [Seen, RefTree.Present, refTree]

theorem seen_concat (h : List TreeCmd) (c : TreeCmd) :
    Seen (h ++ [c]) = Seen h ∪ {x | (refTree (h ++ [c])).Present x} := by
  ext x
  simp only [Seen, List.prefix_concat_iff, or_and_right, exists_or, exists_eq_left,
    Set.mem_union, Set.mem_ofPred_eq]
  exact or_comm

/-- The commands that are asked for: ids are NUL-free, the root is not deleted, and no id is
inserted that was in the tree and is not any more. -/
def Proper (T : RefTree) (U : Set Sds) : TreeCmd → Prop
  | .create => True
  | .insert _ parent uid => NulFree parent ∧ NulFree uid ∧ (uid ∈ U → T.Present uid)
  | .delete uid => NulFree uid ∧ uid ≠ rootId
  | .changeValue uid _ => NulFree uid
  | .move dst src => NulFree dst ∧ NulFree src

/-- Every command is asked for where it stands. -/
def AllProper (h : List TreeCmd) : Prop :=
  ∀ h' c, h' ++ [c] <+: h → Proper (refTree h') (Seen h') c

theorem AllProper.init {h : List TreeCmd} {c : TreeCmd} (hp : AllProper (h ++ [c])) :
    AllProper h := fun h' c' hpre => hp h' c' (hpre.trans (List.prefix_append h [c]))

theorem AllProper.last {h : List TreeCmd} {c : TreeCmd} (hp : AllProper (h ++ [c])) :
    Proper (refTree h) (Seen h) c := hp h c List.prefix_rfl

theorem allProper_nil : AllProper [] := by
  intro h c hpre
  simp at hpre

theorem AllProper.concat {h : List TreeCmd} {c : TreeCmd} (hp : AllProper h)
    (hc : Proper (refTree h) (Seen h) c) : AllProper (h ++ [c]) := by
  intro h' c' hpre
  rcases List.prefix_concat_iff.mp hpre with heq | hpre
  · obtain ⟨rfl, rfl⟩ := List.append_singleton_inj.mp heq
    exact hc
  · exact hp h' c' hpre

/-! ### The relation -/

/-- **The table mirrors the tree.** `U` are the ids that have been in the tree. -/
structure Mirrors (srv : Server) (T : RefTree) (U : Set Sds) (F : Forest) : Prop where
  /-- The root is there. -/
  root : (F rootId).header.Exists
  rootParent : (F rootId).parent ≠ none
  /-- The nodes of the tree are there, with their parents and values. -/
  here : ∀ {x n}, T x = some n → HangsUnder F n.parent x ∧ (F x).name = some n.value
  parent : ∀ {c}, (F c).header.Exists → c ≠ rootId → ∃ p, HangsUnder F p c
  placed : ∀ {p c}, HangsUnder F p c → NulFree p ∧ NulFree c ∧ (F c).uid = some c
  /-- What hangs under a node of the tree is in the tree. -/
  hidden : ∀ {p c}, HangsUnder F p c → T.Present p → ∃ n, T c = some n
  children : ∀ {p c}, c ∈ (F p).children ↔ HangsUnder F p c
  /-- Nothing hangs below itself. -/
  ranked : Ranked (HangsUnder F)
  /-- Nodes that were never in the tree are as they are made. -/
  fresh : ∀ {x}, x ∉ U → F x = rtnNew srv
  closed : ∀ {x n}, T x = some n → T.Present n.parent
  seen : ∀ {x}, T.Present x → x ∈ U

namespace Mirrors

section

variable {srv : Server} {T : RefTree} {U U' : Set Sds} {F F' : Forest} {x y p c : Sds}

theorem mono (h : Mirrors srv T U F) (hU : U ⊆ U') : Mirrors srv T U' F :=
  { h with fresh := fun hx => h.fresh fun hU' => hx (hU hU'), seen := fun hx => hU (h.seen hx) }

theorem nulFree (h : Mirrors srv T U F) (hx : T.Present x) : NulFree x := by
  rcases hx with rfl | ⟨n, hn⟩
  · decide
  · exact (h.placed (h.here hn).1).2.1

theorem exists_of_present (h : Mirrors srv T U F) (hx : T.Present x) : (F x).header.Exists := by
  rcases hx with rfl | ⟨n, hn⟩
  · exact h.root
  · exact (h.here hn).1.1

theorem hangs_of_child (h : Mirrors srv T U F) (hc : T.Child p c) : HangsUnder F p c := by
  obtain ⟨n, hn, rfl⟩ := hc
  exact (h.here hn).1

theorem child_iff (h : Mirrors srv T U F) (hp : T.Present p) : T.Child p c ↔ HangsUnder F p c := by
  refine ⟨h.hangs_of_child, fun hc => ?_⟩
  obtain ⟨n, hn⟩ := h.hidden hc hp
  exact ⟨n, hn, Option.some.inj ((h.here hn).1.2.2.symm.trans hc.2.2)⟩

theorem inSubtree_iff (h : Mirrors srv T U F) (hx : T.Present x) :
    T.InSubtree x y ↔ ReflTransGen (HangsUnder F) x y := by
  refine ⟨fun hy => ReflTransGen.mono (fun _ _ => h.hangs_of_child) _ _ hy, fun hy => ?_⟩
  induction hy with
  | refl => exact .refl
  | tail _ hbc ih => exact ih.tail ((h.child_iff (ih.present hx)).mpr hbc)

theorem inSubtree_root (h : Mirrors srv T U F) (hx : T.Present x) : T.InSubtree rootId x := by
  induction x using (WellFounded.intro h.ranked.acc_up).induction with
  | _ x ih =>
    rcases hx with rfl | ⟨n, hn⟩
    · exact .refl
    · exact (ih n.parent (h.here hn).1 (h.closed hn)).tail ⟨n, hn, rfl⟩

theorem not_inSubtree_root (h : Mirrors srv T U F) (hx : x ≠ rootId) :
    ¬ T.InSubtree x rootId := by
  intro hr
  rcases hr.cases_tail with heq | ⟨_, _, n, hn, _⟩
  · exact hx heq.symm
  · exact (h.here hn).1.2.1 rfl

/-! ### Walks -/

theorem tidy (h : Mirrors srv T U F) : Tidy Set.univ F where
  root := h.root
  rootParent := h.rootParent
  parent := h.parent
  placed := h.placed
  listed := h.children.mpr
  exact _ := h.children.mp
  ranked := h.ranked
  members _ := Set.mem_univ _

theorem member_iff (h : Mirrors srv T U F) : Member F x ↔ T.Present x := by
  constructor
  · intro hx
    induction hx with
    | refl => exact .inl rfl
    | tail _ hbc ih => exact .inr (h.hidden hbc ih)
  · intro hx
    exact ReflTransGen.mono (fun _ _ => h.hangs_of_child) _ _ (h.inSubtree_root hx)

theorem visits_iff (h : Mirrors srv T U F) (hx : T.Present x) :
    Visits (alive F) (childIds srv F) x y ↔ T.InSubtree x y :=
  (h.tidy.visits_iff (h.member_iff.mpr hx)).trans (h.inSubtree_iff hx).symm

end

section

variable {srv : Server} {T : RefTree} {U : Set Sds} {ht : TreeHT} {x : Sds}

open scoped Classical in
/-- `istreeMember` tells what is in the tree, given time. -/
theorem exists_istreeMember (h : Mirrors srv T U (ht.node srv)) (hx : NulFree x) :
    ∃ n, ∀ m ≥ n, istreeMember ht m x = some (decide (T.Present x)) := by
  simpa only [h.member_iff] using h.tidy.exists_istreeMember hx

/-- `subTree` collects the subtree, given time. -/
theorem exists_subTree (h : Mirrors srv T U (ht.node srv)) (hx : T.Present x) :
    ∃ n o, (∀ m ≥ n, subTree srv ht m x = some o) ∧ ∀ y, y ∈ o ↔ T.InSubtree x y := by
  obtain ⟨n, o, ho, hmem⟩ := h.tidy.exists_subTree (h.member_iff.mpr hx)
  exact ⟨n, o, ho, fun y => (hmem y).trans (h.inSubtree_iff hx).symm⟩

/-- **`RWFTREEMEMBERS` returns.** -/
theorem exists_treeMembers (h : Mirrors srv T U (ht.node srv)) :
    ∃ n, ∀ m ≥ n, ∃ lines, treeMembers srv ht m = some lines := by
  obtain ⟨n, hn⟩ := h.tidy.exists_treeMembers
  exact ⟨n, fun m hm => (hn m hm).imp fun _ => And.left⟩

/-- **`RWFTREEMEMBERS` lists the tree.** -/
theorem lists_iff {n : ℕ} {lines : List TreeLine} (h : Mirrors srv T U (ht.node srv))
    (hl : treeMembers srv ht n = some lines) {v p : Sds} (hx : x ≠ rootId) :
    Lists lines x v p ↔ ∃ w, T x = some ⟨w, p⟩ ∧ sdsnew w = v := by
  rw [RemoveWin.lists_iff hl]
  constructor
  · rintro ⟨y, hy, -, rfl, rfl, rfl⟩
    have hpres := ((h.visits_iff (.inl rfl)).mp hy).present (.inl rfl)
    rw [sdsnew_of_nulFree (h.nulFree hpres)] at hx ⊢
    obtain ⟨⟨w, p⟩, hn⟩ := hpres.resolve_left hx
    obtain ⟨⟨-, -, hp⟩, hname⟩ := h.here hn
    refine ⟨w, ?_, by rw [hname]; rfl⟩
    rw [hn, hp, sdsnewNull_some, sdsnew_of_nulFree (h.nulFree (h.closed hn))]
  · rintro ⟨w, hn, rfl⟩
    have hnx := h.nulFree (.inr ⟨_, hn⟩)
    have hnp := h.nulFree (h.closed hn)
    obtain ⟨⟨-, -, hp⟩, hname⟩ := h.here hn
    refine ⟨x, (h.visits_iff (.inl rfl)).mpr (h.inSubtree_root (.inr ⟨_, hn⟩)), ?_⟩
    rw [sdsnew_of_nulFree hnx, hp, hname, sdsnewNull_some, sdsnew_of_nulFree hnp]
    exact ⟨h.exists_of_present (h.closed hn), rfl, rfl, rfl⟩

end

/-! ### Effects -/

section

variable {srv : Server} {T : RefTree} {U : Set Sds} {F F' : Forest} {x p v : Sds}

theorem of_tidy (htidy : Tidy Set.univ F)
    (here : ∀ {x n}, T x = some n → HangsUnder F n.parent x ∧ (F x).name = some n.value)
    (hidden : ∀ {p c}, HangsUnder F p c → T.Present p → ∃ n, T c = some n)
    (fresh : ∀ {x}, x ∉ U → F x = rtnNew srv) (closed : ∀ {x n}, T x = some n → T.Present n.parent)
    (seen : ∀ {x}, T.Present x → x ∈ U) : Mirrors srv T U F where
  root := htidy.root
  rootParent := htidy.rootParent
  here := here
  parent := htidy.parent
  placed := htidy.placed
  hidden := hidden
  children := ⟨htidy.exact (Set.mem_univ _), htidy.listed⟩
  ranked := htidy.ranked
  fresh := fresh
  closed := closed
  seen := seen

/-- The tree of a table in which only clocks, and values out of sight, have changed. -/
theorem congr (h : Mirrors srv T U F) {T' : RefTree} (hT : ∀ y, T'.Present y ↔ T.Present y)
    (hhere : ∀ {y n}, T' y = some n → HangsUnder F n.parent y ∧ (F' y).name = some n.value)
    (hheader : ∀ j, (F' j).header = (F j).header) (huid : ∀ j, (F' j).uid = (F j).uid)
    (hparent : ∀ j, (F' j).parent = (F j).parent)
    (hchildren : ∀ j, (F' j).children = (F j).children)
    (hfresh : ∀ j, j ∉ U → F' j = F j) : Mirrors srv T' U F' := by
  have hhangs : ∀ a b, HangsUnder F' a b ↔ HangsUnder F a b := by
    intro a b
    rw [HangsUnder, hheader, hparent, HangsUnder]
  have htidy := (h.tidy.congr (fun j => by rw [hheader]) huid hparent hchildren).1
  refine of_tidy htidy (fun hn => ?_) (fun {p c} hc hp => ?_) (fun {y} hy => ?_)
    (fun {y n} hn => ?_) fun {y} hy => h.seen ((hT y).mp hy)
  · rw [hhangs]
    exact hhere hn
  · have hcT := h.hidden ((hhangs p c).mp hc) ((hT p).mp hp)
    exact ((hT c).mpr (.inr hcT)).resolve_left hc.2.1
  · rw [hfresh y hy]
    exact h.fresh hy
  · obtain ⟨n', hn'⟩ := ((hT y).mp (.inr ⟨n, hn⟩)).resolve_left (hhere hn).1.2.1
    rw [hT, ← (h.here hn').1.unique (hhere hn).1]
    exact h.closed hn'

theorem insert (h : Mirrors srv T U F) (hp : T.Present p) (hx : NulFree x) (hU : x ∉ U)
    (hex : (F' x).header.Exists) (hself : (F' x).uid = some x ∧ (F' x).parent = some p ∧
      (F' x).name = some v)
    (hkeep : ∀ j, j ≠ x → (F' j).header = (F j).header ∧ (F' j).uid = (F j).uid ∧
      (F' j).parent = (F j).parent ∧ (F' j).name = (F j).name)
    (hchildren : ∀ j, (F' j).children =
      if j = p then setTypeAdd (F j).children x else (F j).children)
    (hfresh : ∀ j, j ≠ x → j ≠ p → F' j = F j) :
    Mirrors srv (Function.update T x (some ⟨v, p⟩)) (Insert.insert x U) F' := by
  have hnew := h.fresh hU
  have hroot : x ≠ rootId := fun hr => hU (h.seen (.inl hr))
  have hlink : ∀ j, j ≠ x → ((F' j).header.Exists ↔ (F j).header.Exists) ∧
      (F' j).uid = (F j).uid ∧ (F' j).parent = (F j).parent := by
    intro j hj
    obtain ⟨hheader, huid, hparent, -⟩ := hkeep j hj
    exact ⟨by rw [hheader], huid, hparent⟩
  have hmem : ∀ q c, c ∈ (F' q).children ↔ c ∈ (F q).children ∨ (q = p ∧ c = x) := by
    intro q c
    rw [hchildren]
    split
    · next hq => simp [hq, or_comm]
    · next hq => simp [hq]
  -- nothing hangs under the new node, nor does it hang anywhere yet
  have hleaf : ∀ c, ¬ HangsUnder F x c := by
    intro c hc
    rw [← h.children, hnew] at hc
    exact SetObj.notMem_empty c hc
  have hloose : ∀ q, x ∉ (F q).children := by
    intro q hq
    exact not_exists_rtnNew srv (hnew ▸ (h.children.mp hq).1)
  have hno : ¬ ReflTransGen (HangsUnder F) x p := by
    intro hpath
    rcases hpath.cases_head with heq | ⟨c, hc, -⟩
    · exact hU (h.seen (heq ▸ hp))
    · exact hleaf c hc
  have htidy : Tidy Set.univ F' := by
    refine h.tidy.relink (h.member_iff.mpr hp) hx hroot hno ⟨hex, hself.1, hself.2.1⟩ hlink
      (fun q c hc => (hmem q c).trans (or_iff_left fun heq => hc heq.2))
      ((hmem p x).mpr (.inr ⟨rfl, rfl⟩)) (fun q _ hq => ?_) (fun _ _ => .inl trivial)
      fun _ _ => trivial
    exact (((hmem q x).mp hq).resolve_left (hloose q)).1
  have hhangs := hangsUnder_relink hroot hex hself.2.1 fun j hj =>
    ⟨(hlink j hj).1, (hlink j hj).2.2⟩
  have hpres : ∀ y, RefTree.Present (Function.update T x (some ⟨v, p⟩)) y ↔
      T.Present y ∨ y = x := by
    intro y
    by_cases hy : y = x
    · subst hy
      simp [RefTree.Present]
    · simp [RefTree.Present, hy]
  refine of_tidy htidy (fun {y n} hn => ?_) (fun {q c} hc hq => ?_) (fun {y} hy => ?_)
    (fun {y n} hn => ?_) fun {y} hy => ((hpres y).mp hy).elim (fun hy => .inr (h.seen hy)) .inl
  · by_cases hy : y = x
    · subst hy
      obtain rfl : ⟨v, p⟩ = n := by simpa using hn
      exact ⟨(hhangs _ _).mpr (.inr ⟨rfl, rfl⟩), hself.2.2⟩
    · rw [Function.update_of_ne hy] at hn
      rw [(hkeep y hy).2.2.2]
      exact ⟨(hhangs _ _).mpr (.inl ⟨(h.here hn).1, hy⟩), (h.here hn).2⟩
  · by_cases hcx : c = x
    · exact ⟨_, by rw [hcx, Function.update_self]⟩
    · rw [Function.update_of_ne hcx]
      have hqc := (((hhangs q c).mp hc).resolve_right fun heq => hcx heq.2).1
      exact h.hidden hqc (((hpres q).mp hq).resolve_right fun heq => hleaf c (heq ▸ hqc))
  · rw [Set.mem_insert_iff, not_or] at hy
    rw [hfresh y hy.1 fun heq => hy.2 (heq ▸ h.seen hp)]
    exact h.fresh hy.2
  · rw [hpres]
    by_cases hy : y = x
    · subst hy
      obtain rfl : ⟨v, p⟩ = n := by simpa using hn
      exact .inl hp
    · rw [Function.update_of_ne hy] at hn
      exact .inl (h.closed hn)

theorem present_parent (h : Mirrors srv T U F) (hx : T.Present x) (hroot : x ≠ rootId)
    (hpar : (F x).parent = some p) : T.Present p := by
  obtain ⟨n, hn⟩ := hx.resolve_left hroot
  rw [← Option.some.inj ((h.here hn).1.2.2.symm.trans hpar)]
  exact h.closed hn

open scoped Classical in
theorem delete (h : Mirrors srv T U F) (hx : T.Present x) (hroot : x ≠ rootId)
    (hpar : (F x).parent = some p) (hgone : ¬ (F' x).header.Exists)
    (hkeep : ∀ j, j ≠ x → (F' j).header = (F j).header ∧ (F' j).parent = (F j).parent)
    (hsame : ∀ j, (F' j).uid = (F j).uid ∧ (F' j).name = (F j).name)
    (hchildren : ∀ j, (F' j).children =
      if j = p then setTypeRemove (F j).children x else (F j).children)
    (hfresh : ∀ j, j ≠ x → j ≠ p → F' j = F j) :
    Mirrors srv (fun y => if T.InSubtree x y then none else T y) U F' := by
  set T' : RefTree := fun y => if T.InSubtree x y then none else T y with hT'
  have hsome : ∀ y n, T' y = some n ↔ ¬ T.InSubtree x y ∧ T y = some n := by
    intro y n
    simp only [hT']
    split
    · next hy => simp [hy]
    · next hy => simp [hy]
  have hpres : ∀ y, T'.Present y ↔ T.Present y ∧ ¬ T.InSubtree x y := by
    intro y
    by_cases hy : y = rootId
    · subst hy
      simp [RefTree.Present, h.not_inSubtree_root hroot]
    · simp only [RefTree.Present, hy, false_or, hsome]
      rw [exists_and_left, and_comm]
  obtain ⟨htidy, hhangs⟩ := h.tidy.unlink hroot hpar hgone
    (fun j hj => ⟨by rw [(hkeep j hj).1], (hsame j).1, (hkeep j hj).2⟩) fun q c => by
      rw [hchildren]
      by_cases hq : q = p
      · simp [hq, and_comm]
      · simp [hq]
  have hpp := h.present_parent hx hroot hpar
  refine of_tidy htidy (fun {y n} hn => ?_) (fun {q c} hc hq => ?_) (fun {y} hy => ?_)
    (fun {y n} hn => ?_) fun {y} hy => h.seen ((hpres y).mp hy).1
  · obtain ⟨hns, hn⟩ := (hsome y n).mp hn
    rw [hhangs, (hsame y).2]
    refine ⟨⟨(h.here hn).1, ?_⟩, (h.here hn).2⟩
    rintro rfl
    exact hns .refl
  · obtain ⟨hc, hcx⟩ := (hhangs q c).mp hc
    obtain ⟨hq, hns⟩ := (hpres q).mp hq
    obtain ⟨n, hn⟩ := h.hidden hc hq
    refine ⟨n, (hsome c n).mpr ⟨fun hs => ?_, hn⟩⟩
    -- a child of `q` in the subtree of another node is there because `q` is
    rcases hs.cases_tail with heq | ⟨b, hb, hbc⟩
    · exact hcx heq
    · exact hns ((h.hangs_of_child hbc).unique hc ▸ hb)
  · rw [hfresh y (fun heq => hy (heq ▸ h.seen hx)) fun heq => hy (heq ▸ h.seen hpp)]
    exact h.fresh hy
  · obtain ⟨hns, hn⟩ := (hsome y n).mp hn
    exact (hpres _).mpr ⟨h.closed hn, fun hs => hns (hs.tail ⟨_, hn, rfl⟩)⟩

theorem move {d : Sds} (h : Mirrors srv T U F) (hd : T.Present d) (hx : T.Present x)
    (hno : ¬ T.InSubtree x d) (hpar : (F x).parent = some p)
    (hself : (F' x).parent = some d) (hkeep : ∀ j, j ≠ x → (F' j).parent = (F j).parent)
    (hsame : ∀ j, (F' j).header = (F j).header ∧ (F' j).uid = (F j).uid ∧
      (F' j).name = (F j).name)
    (hchildren : ∀ j, (F' j).children =
      let o := if j = p then setTypeRemove (F j).children x else (F j).children
      if j = d then setTypeAdd o x else o)
    (hfresh : ∀ j, j ≠ x → j ≠ p → j ≠ d → F' j = F j) :
    Mirrors srv (Function.update T x ((T x).map fun n => { n with parent := d })) U F' := by
  have hroot : x ≠ rootId := fun hr => hno (hr ▸ h.inSubtree_root hd)
  have hpp := h.present_parent hx hroot hpar
  obtain ⟨nx, hnx⟩ := hx.resolve_left hroot
  have hhere := (h.here hnx).1
  have hplaced := h.placed hhere
  rw [hnx, Option.map_some]
  have hlink : ∀ j, j ≠ x → ((F' j).header.Exists ↔ (F j).header.Exists) ∧
      (F' j).uid = (F j).uid ∧ (F' j).parent = (F j).parent := fun j hj =>
    ⟨by rw [(hsame j).1], (hsame j).2.1, hkeep j hj⟩
  have hex : (F' x).header.Exists := by
    rw [(hsame x).1]
    exact hhere.1
  have hmem := fun q => TreeLinks.mem_relink (hchildren q)
  have htidy : Tidy Set.univ F' := by
    refine h.tidy.relink (h.member_iff.mpr hd) hplaced.2.1 hroot
      (fun hpath => hno ((h.inSubtree_iff hx).mpr hpath))
      ⟨hex, by rw [(hsame x).2.1]; exact hplaced.2.2, hself⟩ hlink (fun q c hc => ?_)
      ((hmem d x).mpr (.inl ⟨rfl, rfl⟩)) (fun q _ hq => ?_) (fun _ _ => .inl trivial)
      fun _ _ => trivial
    · rw [hmem q c, or_iff_right fun heq => hc heq.2, and_iff_left fun _ => hc]
    · -- the node has left the only set that listed it
      rcases (hmem q x).mp hq with ⟨hqd, -⟩ | ⟨hq, hne⟩
      · exact hqd
      · exact absurd rfl (hne (Option.some.inj ((h.children.mp hq).2.2.symm.trans hpar)))
  have hhangs := hangsUnder_relink hroot hex hself fun j hj => ⟨(hlink j hj).1, (hlink j hj).2.2⟩
  have hpres : ∀ y, RefTree.Present (Function.update T x (some { nx with parent := d })) y ↔
      T.Present y := by
    intro y
    by_cases hy : y = x
    · subst hy
      simp [RefTree.Present, hnx]
    · simp [RefTree.Present, hy]
  refine of_tidy htidy (fun {y n} hn => ?_) (fun {q c} hc hq => ?_) (fun {y} hy => ?_)
    (fun {y n} hn => ?_) fun {y} hy => h.seen ((hpres y).mp hy)
  · rw [hhangs, (hsame y).2.2]
    by_cases hy : y = x
    · subst hy
      obtain rfl : { nx with parent := d } = n := by simpa using hn
      exact ⟨.inr ⟨rfl, rfl⟩, (h.here hnx).2⟩
    · rw [Function.update_of_ne hy] at hn
      exact ⟨.inl ⟨(h.here hn).1, hy⟩, (h.here hn).2⟩
  · by_cases hcx : c = x
    · exact ⟨_, by rw [hcx, Function.update_self]⟩
    · rw [Function.update_of_ne hcx]
      have hqc := (((hhangs q c).mp hc).resolve_right fun heq => hcx heq.2).1
      exact h.hidden hqc ((hpres q).mp hq)
  · rw [hfresh y (fun heq => hy (heq ▸ h.seen hx)) (fun heq => hy (heq ▸ h.seen hpp))
      fun heq => hy (heq ▸ h.seen hd)]
    exact h.fresh hy
  · rw [hpres]
    by_cases hy : y = x
    · subst hy
      obtain rfl : { nx with parent := d } = n := by simpa using hn
      exact hd
    · rw [Function.update_of_ne hy] at hn
      exact h.closed hn

end

end Mirrors

end RemoveWin
