import RemoveWin.Lib.Walk
import RemoveWin.Tree.Effects

/-!
# The walks of the tree

`istreeMember` climbs parents and `subTree` walks children, both over what `TreeHT.node` shows.
This file relates them to the walks of `Walk`, and `RWFTREEMEMBERS` to the nodes that are visited
from the root.
-/

namespace RemoveWin

open Walk

variable {srv : Server} {ht : TreeHT}

/-- The nodes a walk goes on from. -/
def alive (F : Sds → Rtn) (id : Sds) : Bool := (F (sdsnew id)).header.Exists

/-- The children of a node in the order the server walks them. -/
def childIds (srv : Server) (F : Sds → Rtn) (id : Sds) : List Sds :=
  srv.iter.order (F (sdsnew id)).children.elems

/-- The parent of a node. -/
def parentId (F : Sds → Rtn) (id : Sds) : Option Sds := (F (sdsnew id)).parent

theorem alive_iff {F : Sds → Rtn} {id : Sds} :
    alive F id = true ↔ (F (sdsnew id)).header.Exists := decide_eq_true_iff

theorem mem_childIds {F : Sds → Rtn} {id c : Sds} :
    c ∈ childIds srv F id ↔ c ∈ (F (sdsnew id)).children := by
  simp [childIds]

/-! ### Climbing -/

theorem istreeMemberLoop_eq_climb (srv : Server) (n : ℕ) (ele : Sds) :
    istreeMemberLoop ht n ele =
      climb rootId (alive (ht.node srv)) (parentId (ht.node srv)) n ele := by
  induction n generalizing ele with
  | zero => simp only [istreeMemberLoop, climb, sdscmp_eq_zero_iff]
  | succ n ih =>
    simp only [istreeMemberLoop, climb, sdscmp_eq_zero_iff, alive_iff, parentId]
    cases hf : ht.find ele with
    | none => simp [TreeHT.node_of_find_eq_none srv hf]
    | some tn =>
      simp only [TreeHT.node_of_find srv hf]
      congr 2
      exact congrArg _ (funext ih)

theorem istreeMember_eq_climb (srv : Server) (n : ℕ) (id : Sds) :
    istreeMember ht n id =
      climb rootId (alive (ht.node srv)) (parentId (ht.node srv)) n (sdsnew id) :=
  istreeMemberLoop_eq_climb srv n (sdsnew id)

theorem istreeMember_mono {n m : ℕ} {id : Sds} {b : Bool} (h : istreeMember ht n id = some b)
    (hnm : n ≤ m) : istreeMember ht m id = some b := by
  rw [istreeMember_eq_climb ⟨0, 0, .insertion⟩] at h ⊢
  exact climb_mono h hnm

theorem exists_of_istreeMember (srv : Server) {n : ℕ} {id : Sds}
    (h : istreeMember ht n id = some true) :
    sdsnew id = rootId ∨ (ht.node srv (sdsnew id)).header.Exists := by
  rw [istreeMember_eq_climb srv] at h
  rcases climbs_iff.mp ((climbs_iff_of_climb h).mp rfl) with hr | ⟨-, hx, -⟩
  · exact .inl hr
  · rw [alive_iff, sdsnew_sdsnew] at hx
    exact .inr hx

theorem ne_rootId_of_istreeMember {n : ℕ} {id : Sds} (h : istreeMember ht n id = some false) :
    sdsnew id ≠ rootId := by
  intro hr
  cases n <;> simp [istreeMember, istreeMemberLoop, hr, sdscmp_eq_zero_iff] at h

/-! ### Walking down -/

theorem subTreeLoop_eq_queueWalk (n : ℕ) (q : List Sds) (acc : SetObj) :
    subTreeLoop srv ht n q acc =
      (queueWalk (alive (ht.node srv)) (childIds srv (ht.node srv)) n q).map
        fun l => l.foldl setTypeAdd acc := by
  induction n generalizing q acc with
  | zero => cases q <;> rfl
  | succ n ih =>
    cases q with
    | nil => rfl
    | cons x q =>
      simp only [subTreeLoop, queueWalk, alive_iff]
      cases hf : ht.find x with
      | none => simp [TreeHT.node_of_find_eq_none srv hf, ih]
      | some tn =>
        simp only [TreeHT.node_of_find srv hf, ih, childIds]
        split
        · rw [Option.map_map]
          rfl
        · rfl

theorem subTree_eq_queueWalk (n : ℕ) (uid : Sds) :
    subTree srv ht n uid =
      (queueWalk (alive (ht.node srv)) (childIds srv (ht.node srv)) n [sdsnew uid]).map
        fun l => l.foldl setTypeAdd .empty :=
  subTreeLoop_eq_queueWalk n _ _

theorem mem_subTree {n : ℕ} {uid x : Sds} {o : SetObj} (h : subTree srv ht n uid = some o) :
    x ∈ o ↔ Visits (alive (ht.node srv)) (childIds srv (ht.node srv)) (sdsnew uid) x := by
  rw [subTree_eq_queueWalk] at h
  obtain ⟨l, hl, rfl⟩ := Option.map_eq_some_iff.mp h
  rw [mem_foldl_setTypeAdd, mem_of_queueWalk hl]
  simp

theorem subTree_mono {n m : ℕ} {uid : Sds} {o : SetObj} (h : subTree srv ht n uid = some o)
    (hnm : n ≤ m) : subTree srv ht m uid = some o := by
  rw [subTree_eq_queueWalk] at h ⊢
  obtain ⟨l, hl, rfl⟩ := Option.map_eq_some_iff.mp h
  rw [queueWalk_mono hl hnm, Option.map_some]

theorem exists_subTree {uid : Sds}
    (h : Acc (Below (alive (ht.node srv)) (childIds srv (ht.node srv))) (sdsnew uid)) :
    ∃ n o, subTree srv ht n uid = some o := by
  obtain ⟨n, l, hl⟩ := exists_queueWalk (q := [sdsnew uid]) (by simpa using h)
  exact ⟨n, _, by rw [subTree_eq_queueWalk, hl, Option.map_some]⟩

/-! ### The reply of `RWFTREEMEMBERS` -/

/-- The line for the node `y`. -/
def lineOf (srv : Server) (F : Sds → Rtn) (y : Sds) : TreeLine where
  uid := sdsnew y
  name := sdsnewNull (F (sdsnew y)).name
  parent := sdsnewNull (F (sdsnew y)).parent
  children := (srv.iter.order (F (sdsnew y)).children.elems).map sdsnew

/-- **What is listed**: what is visited from the root and has a parent that is there, each node
once. -/
theorem exists_map_lineOf {n : ℕ} {lines : List TreeLine} (h : treeMembers srv ht n = some lines) :
    ∃ ys : List Sds, ys.Nodup ∧ lines = ys.map (lineOf srv (ht.node srv)) ∧ ∀ y, y ∈ ys ↔
      Visits (alive (ht.node srv)) (childIds srv (ht.node srv)) rootId y ∧
        (ht.node srv (sdsnewNull (ht.node srv (sdsnew y)).parent)).header.Exists := by
  obtain ⟨tree, htree, rfl⟩ := Option.map_eq_some_iff.mp h
  have hroot : sdsnew rootId = rootId := by decide
  have hvis : ∀ y, y ∈ srv.iter.order tree.elems ↔
      Visits (alive (ht.node srv)) (childIds srv (ht.node srv)) rootId y := by
    intro y
    rw [Iteration.mem_order, SetObj.mem_elems, mem_subTree htree, hroot]
  set parentThere : Sds → Bool := fun y =>
    (ht.node srv (sdsnewNull (ht.node srv (sdsnew y)).parent)).header.Exists with hpt
  refine ⟨(srv.iter.order tree.elems).filter parentThere,
    (srv.iter.nodup_order.mpr tree.nodup).filter _, ?_, fun y => ?_⟩
  · rw [← List.filterMap_eq_filter, ← List.filterMap_eq_map (f := lineOf srv (ht.node srv)),
      List.filterMap_filterMap]
    refine List.filterMap_congr fun y hy => ?_
    have hex := alive_iff.mp ((hvis y).mp hy).end_alive
    cases hf : ht.find y with
    | none =>
      rw [TreeHT.node_of_find_eq_none srv hf] at hex
      exact absurd hex (not_exists_rtnNew srv)
    | some tn =>
      have hnode := TreeHT.node_of_find srv hf
      rw [hnode] at hex
      have hparent : parentThere y =
          decide (ht.node srv (sdsnewNull tn.parent)).header.Exists := by simp only [hpt, hnode]
      cases hfp : ht.nodes (sdsnewNull tn.parent) with
      | none =>
        rw [TreeHT.node, hfp, Option.getD_none, decide_eq_false (not_exists_rtnNew srv)] at hparent
        simp [hfp, Option.guard, hparent]
      | some tnp =>
        rw [TreeHT.node, hfp, Option.getD_some] at hparent
        by_cases hp : tnp.header.Exists <;>
          simp [hfp, Option.guard, hparent, hex, hp, lineOf, hnode]
  · rw [List.mem_filter, hvis, hpt, decide_eq_true_iff]

/-- The reply has a line for the node `x` with value `v` under `p`. -/
def Lists (lines : List TreeLine) (x v p : Sds) : Prop :=
  ∃ l ∈ lines, l.uid = x ∧ l.name = v ∧ l.parent = p

theorem lists_iff {n : ℕ} {lines : List TreeLine} (h : treeMembers srv ht n = some lines)
    (x v p : Sds) :
    Lists lines x v p ↔ ∃ y, Visits (alive (ht.node srv)) (childIds srv (ht.node srv)) rootId y ∧
      (ht.node srv (sdsnewNull (ht.node srv (sdsnew y)).parent)).header.Exists ∧
      sdsnew y = x ∧ sdsnewNull (ht.node srv (sdsnew y)).name = v ∧
      sdsnewNull (ht.node srv (sdsnew y)).parent = p := by
  obtain ⟨ys, -, rfl, hys⟩ := exists_map_lineOf h
  constructor
  · rintro ⟨l, hl, rfl, rfl, rfl⟩
    obtain ⟨y, hy, rfl⟩ := List.mem_map.mp hl
    exact ⟨y, ((hys y).mp hy).1, ((hys y).mp hy).2, rfl, rfl, rfl⟩
  · rintro ⟨y, hy, hp, rfl, rfl, rfl⟩
    exact ⟨_, List.mem_map_of_mem ((hys y).mpr ⟨hy, hp⟩), rfl, rfl, rfl⟩

end RemoveWin
