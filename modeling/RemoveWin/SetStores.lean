import RemoveWin.OrSet.Local
import RemoveWin.PnSet.Local
import RemoveWin.RwSet.Sequential

/-!
# What the store commands leave in their destination

The store commands compute a scratch set from the sources and are then carried out as adds only or
as removes only, against what the destination holds. `SUNIONSTORE` adds what is in the union and
not in the destination, and removes nothing. `SDIFFSTORE` and `SINTERSTORE` remove what is in the
destination and not in the scratch set, and add nothing. So the destination holds the result
afterwards only if it was on the right side of it before.

That is the whole condition up to the ways in which the families lose single adds and removes. The
RWF-Set sends copies that end at the first NUL byte. The OR-Set may draw a tag that is a tombstone.
The PN-Set takes one off a counter that may be greater.

## Main results

* `RemoveWin.StoreOp.leaves_eq_iff` — when adds only, or removes only, give the result
* `RemoveWin.rwSet_storesWhen`, `orSet_storesWhen`, `pnSet_storesWhen` — the condition for each
  family
-/

namespace RemoveWin

open Replicated

/-- The store commands. -/
inductive StoreOp where
  | union
  | inter
  | diff

namespace StoreOp

/-- What is to be stored: the union, the intersection, or the first source without the rest. -/
def result (S : PlainSets) (src : Sds) (srcs : List Sds) : StoreOp → Set Sds
  | union => {x | ∃ k ∈ src :: srcs, x ∈ S k}
  | inter => {x | ∀ k ∈ src :: srcs, x ∈ S k}
  | diff => {x | x ∈ S src ∧ ∀ k ∈ srcs, x ∉ S k}

/-- The command of the RWF-Set. -/
def rw (dst src : Sds) (srcs : List Sds) : StoreOp → RwCmd
  | union => .unionstore dst src srcs
  | inter => .interstore dst src srcs
  | diff => .diffstore dst src srcs

/-- The command of the OR-Set. -/
def or (dst src : Sds) (srcs : List Sds) : StoreOp → OrCmd
  | union => .unionstore dst src srcs
  | inter => .interstore dst src srcs
  | diff => .diffstore dst src srcs

/-- The command of the PN-Set. -/
def pn (dst src : Sds) (srcs : List Sds) : StoreOp → PnCmd
  | union => .unionstore dst src srcs
  | inter => .interstore dst src srcs
  | diff => .diffstore dst src srcs

/-- A destination that holds `A` can come to hold `R`: a union can only grow, the others can only
shrink. -/
def Within (A R : Set Sds) : StoreOp → Prop
  | union => A ⊆ R
  | inter => R ⊆ A
  | diff => R ⊆ A

/-- What is left of a destination that holds `A` if `gain` is added by a union and `lose` removed
by the others. -/
def leaves (A gain lose : Set Sds) : StoreOp → Set Sds
  | union => A ∪ gain
  | inter => A \ lose
  | diff => A \ lose

/-- **Adds only, or removes only, give the result** if the destination is on the right side of it
and they reach everything they have to. -/
theorem leaves_eq_iff (op : StoreOp) {A R gain lose : Set Sds} (hgain : R \ A ⊆ gain → gain ⊆ R)
    (hlose : A \ R ⊆ lose → Disjoint lose R) :
    op.leaves A gain lose = R ↔ op.Within A R ∧ R \ A ⊆ gain ∧ A \ R ⊆ lose := by
  have hremove : A \ lose = R ↔ R ⊆ A ∧ R \ A ⊆ gain ∧ A \ R ⊆ lose := by
    constructor
    · rintro rfl
      refine ⟨Set.sdiff_subset, ?_, ?_⟩
      · rw [Set.sdiff_eq_empty.mpr Set.sdiff_subset]
        exact Set.empty_subset gain
      · rw [sdiff_sdiff_right_self]
        exact Set.inter_subset_right
    · rintro ⟨hsub, -, hall⟩
      refine Set.Subset.antisymm (fun x hx => by_contra fun hR => hx.2 (hall ⟨hx.1, hR⟩)) ?_
      exact fun x hx => ⟨hsub hx, fun hl => Set.disjoint_left.mp (hlose hall) hl hx⟩
  cases op with
  | union =>
    show A ∪ gain = R ↔ A ⊆ R ∧ R \ A ⊆ gain ∧ A \ R ⊆ lose
    constructor
    · rintro rfl
      refine ⟨Set.subset_union_left, ?_, ?_⟩
      · rw [Set.union_sdiff_left]
        exact Set.sdiff_subset
      · rw [Set.sdiff_eq_empty.mpr Set.subset_union_left]
        exact Set.empty_subset lose
    · rintro ⟨hsub, hall, -⟩
      refine Set.Subset.antisymm (Set.union_subset hsub (hgain hall)) fun x hx => ?_
      exact (Classical.em (x ∈ A)).imp id fun hA => hall ⟨hx, hA⟩
  | inter => exact hremove
  | diff => exact hremove

end StoreOp

/-- Members that are sent as truncated copies arrive exactly if they have no NUL bytes. -/
theorem subset_image_sdsnew_iff {X : Set Sds} : X ⊆ sdsnew '' X ↔ ∀ x ∈ X, NulFree x := by
  constructor
  · intro h _ hx
    obtain ⟨y, -, rfl⟩ := h hx
    exact nulFree_sdsnew y
  · exact fun h x hx => ⟨x, hx, sdsnew_of_nulFree (h x hx)⟩

theorem image_sdsnew_subset {X : Set Sds} (h : X ⊆ sdsnew '' X) : sdsnew '' X ⊆ X := by
  rintro _ ⟨x, hx, rfl⟩
  rwa [sdsnew_of_nulFree (subset_image_sdsnew_iff.mp h x hx)]

/-- A part of `X` that has to be all of it. -/
theorem subset_sep_self_iff {X : Set Sds} {p : Sds → Prop} :
    X ⊆ {x ∈ X | p x} ↔ ∀ x ∈ X, p x :=
  ⟨fun h _ hx => (h hx).2, fun h x hx => ⟨hx, h x hx⟩⟩

section

variable (op : StoreOp) {A R : Set Sds} {p : Sds → Prop}

theorem StoreOp.leaves_copies_iff :
    op.leaves A (sdsnew '' (R \ A)) (sdsnew '' (A \ R)) = R ↔
      op.Within A R ∧ (∀ x ∈ R \ A, NulFree x) ∧ ∀ x ∈ A \ R, NulFree x := by
  rw [op.leaves_eq_iff, subset_image_sdsnew_iff, subset_image_sdsnew_iff]
  · exact fun hall => (image_sdsnew_subset hall).trans Set.sdiff_subset
  · exact fun hall => Set.disjoint_left.mpr fun x hx => (image_sdsnew_subset hall hx).2

theorem StoreOp.leaves_some_iff :
    op.leaves A {x ∈ R \ A | p x} (A \ R) = R ↔ op.Within A R ∧ ∀ x ∈ R \ A, p x := by
  rw [op.leaves_eq_iff, subset_sep_self_iff, and_iff_left Set.Subset.rfl]
  · exact fun _ x hx => hx.1.1
  · exact fun _ => Set.disjoint_sdiff_left

end

/-! ### The scratch set -/

theorem Keys.OnlySets.exists_set {ks : Keys} (h : ks.OnlySets) {k : Sds} (hk : ks k ≠ none) :
    ∃ o, ks k = some (.set o) := by
  obtain ⟨obj, hobj⟩ := Option.ne_none_iff_exists'.mp hk
  cases obj with
  | set o => exact ⟨o, hobj⟩
  | other fields => exact absurd hobj (h k fields)

section

variable {ks : Keys} (h : ks.OnlySets) (srv : Server) (src : Sds) (srcs : List Sds)
include h

theorem Keys.OnlySets.mem_scratch_union (x : Sds) :
    x ∈ srv.iter.order (sunionResult srv ks (src :: srcs) .empty).1.elems ↔
      x ∈ StoreOp.union.result ks.sets src srcs := by
  rw [Iteration.mem_order, SetObj.mem_elems, h.mem_sunionResult,
    or_iff_right (SetObj.notMem_empty x)]
  rfl

theorem Keys.OnlySets.mem_scratch_inter (x : Sds) :
    x ∈ (sinterResult srv ks src srcs .empty).1 ↔ x ∈ StoreOp.inter.result ks.sets src srcs := by
  rw [h.mem_sinterResult, ← List.forall_mem_cons (p := fun k => x ∈ ks.visible k)]
  rfl

theorem Keys.OnlySets.mem_scratch_diff : ∃ o replies,
    sdiffResult srv ks src srcs .empty = some (o, replies) ∧
      ∀ x, x ∈ o ↔ x ∈ StoreOp.diff.result ks.sets src srcs := h.mem_sdiffResult srv src srcs

end

theorem Keys.mem_filter_order {ks : Keys} {dst : Sds} {set : SetObj}
    (hset : ks dst = some (.set set)) (srv : Server) {o : SetObj} {R : Set Sds}
    (ho : ∀ x, x ∈ o ↔ x ∈ R) (x : Sds) :
    x ∈ ((srv.iter.order set.elems).filter fun x => !setTypeIsMember o x) ↔
      x ∈ ks.sets dst \ R := by
  rw [List.mem_filter, Iteration.mem_order, SetObj.mem_elems, Bool.not_eq_true', Bool.eq_false_iff,
    Ne, setTypeIsMember_iff, ho, Set.mem_sdiff, Keys.mem_sets, Keys.mem_visible_set hset]

/-! ### The RWF-Set -/

section

variable {srv : Server} {db : RwDb} {L : List RwItem}

theorem RwOk.storeRemoves (h : RwOk srv L db) (hid : 0 ≤ srv.p2pId)
    (hlt : srv.p2pId.toNat < srv.p2pCount) {dst : Sds} {emit : Sds → Reh → Option VC}
    {xs : List Sds} (replies : List Reply) {R : Set Sds}
    (hxs : ∀ x, x ∈ xs ↔ x ∈ db.keys.sets dst \ R)
    (hemit : ∀ x h, ∀ t ∈ emit x h, t = rwStamp false h)
    (hsome : ∀ x h, h.Exists → (emit x h).isSome) :
    (RwDb.after srv (rwsFinish false dst replies .eleNexist
      (entryLoop srv dst sdsnew sdsnew emit xs db))).keys.sets =
        Function.update db.keys.sets dst (db.keys.sets dst \ sdsnew '' (db.keys.sets dst \ R)) := by
  refine Keys.sets_eq_update fun k x => ?_
  rw [mem_visible_after_finish h hid hlt (fun _ _ _ _ => rfl) hemit, if_neg Bool.false_ne_true]
  split
  · next hk =>
    subst hk
    refine and_congr_right fun hvis => not_congr ?_
    have hheader := fun y => hsome y _ ((h.visible k x).mp hvis)
    constructor
    · rintro ⟨-, y, hy, rfl, -⟩
      exact ⟨y, (hxs y).mp hy, rfl⟩
    · rintro ⟨y, hy, rfl⟩
      exact ⟨rfl, y, (hxs y).mpr hy, rfl, hheader y⟩
  · next hk => exact and_iff_left fun h => hk h.1

/-- **The store commands of the RWF-Set** add and remove truncated copies. -/
theorem RwOk.store (h : RwOk srv L db) (hid : 0 ≤ srv.p2pId)
    (hlt : srv.p2pId.toNat < srv.p2pCount) {dst : Sds} (hdst : db.keys dst ≠ none) (op : StoreOp)
    (src : Sds) (srcs : List Sds) : ∃ p, rwsPrepare srv (op.rw dst src srcs) db = some p ∧
      (RwDb.after srv p).keys.sets = Function.update db.keys.sets dst (op.leaves (db.keys.sets dst)
        (sdsnew '' (op.result db.keys.sets src srcs \ db.keys.sets dst))
        (sdsnew '' (db.keys.sets dst \ op.result db.keys.sets src srcs))) := by
  obtain ⟨set, hset⟩ := h.onlySets.exists_set hdst
  cases op with
  | union =>
    simp only [StoreOp.rw, rwsPrepare, rwsunionstorePrepare, Db.view_eq, hset]
    refine ⟨_, rfl, Keys.sets_eq_update fun k x => ?_⟩
    rw [mem_visible_after_finish h hid hlt (fun _ _ _ _ => rfl), if_pos rfl]
    · split
      · next hk =>
        subst hk
        refine or_congr_right ⟨?_, ?_⟩
        · rintro ⟨-, y, hy, rfl, hsome⟩
          refine ⟨y, ⟨(h.onlySets.mem_scratch_union srv src srcs y).mp hy, fun hvis => ?_⟩, rfl⟩
          rw [if_pos (setTypeIsMember_iff.mpr ((Keys.mem_visible_set hset).mp hvis))] at hsome
          cases hsome
        · rintro ⟨y, ⟨hy, hvis⟩, rfl⟩
          refine ⟨rfl, y, (h.onlySets.mem_scratch_union srv src srcs y).mpr hy, rfl, ?_⟩
          rw [if_neg fun hmem =>
            hvis ((Keys.mem_visible_set hset).mpr (setTypeIsMember_iff.mp hmem))]
          rfl
      · next hk => exact or_iff_left fun h => hk h.1
    · intro x h t ht
      simp only [Option.mem_def, Option.ite_none_left_eq_some, Option.some.injEq] at ht
      exact ht.2.symm
  | inter =>
    simp only [StoreOp.rw, rwsPrepare, rwsinterstorePrepare, Db.view_eq, hset]
    refine ⟨_, rfl, ?_⟩
    refine h.storeRemoves hid hlt _ (fun x => ?_) (fun x h t ht => ?_) fun x h hex => ?_
    · -- an empty scratch set has no members either, so the test of its size changes nothing
      rw [← Keys.mem_filter_order hset srv (h.onlySets.mem_scratch_inter srv src srcs),
        List.mem_filter, List.mem_filter]
      refine and_congr_right fun _ => ?_
      simp only [Bool.or_eq_true, decide_eq_true_eq, setTypeSize_eq_zero_iff, Bool.not_eq_true',
        Bool.eq_false_iff, Ne, setTypeIsMember_iff]
      exact or_iff_right_of_imp fun hempty => hempty x
    · simp only [Option.mem_def, Option.ite_none_right_eq_some, Option.some.injEq] at ht
      exact ht.2.symm
    · rw [if_pos hex]
      rfl
  | diff =>
    obtain ⟨o, replies, hdiff, ho⟩ := h.onlySets.mem_scratch_diff srv src srcs
    simp only [StoreOp.rw, rwsPrepare, rwsdiffstorePrepare, Db.view_eq, hset, hdiff]
    refine ⟨_, rfl, ?_⟩
    refine h.storeRemoves hid hlt _ (fun x => ?_) (fun x h t ht => ?_) fun x h hex => rfl
    · exact Keys.mem_filter_order hset srv ho x
    · exact (Option.some.inj ht).symm

end

/-! ### The OR-Set -/

/-- **The store commands of the OR-Set** remove all they have to, and add what they draw a live tag
for. -/
theorem OrSound.store {db : OrDb} (h : OrSound db) (srv : Server) {dst : Sds}
    (hdst : db.keys dst ≠ none) (op : StoreOp) (src : Sds) (srcs : List Sds) :
    ∃ p, orsPrepare srv (op.or dst src srcs) db = some p ∧
      (orAfter p).keys.sets = Function.update db.keys.sets dst (op.leaves (db.keys.sets dst)
        {x ∈ op.result db.keys.sets src srcs \ db.keys.sets dst |
          db.nextTag srv dst x ∉ (db.ore dst x).rset}
        (db.keys.sets dst \ op.result db.keys.sets src srcs)) := by
  obtain ⟨set, hset⟩ := h.onlySets.exists_set hdst
  have hremoves : ∀ {o : SetObj} {R : Set Sds} (replies : List Reply), (∀ x, x ∈ o ↔ x ∈ R) →
      (orAfter (orsstoreRemoves srv dst set o replies db)).keys.sets =
        Function.update db.keys.sets dst (db.keys.sets dst \ (db.keys.sets dst \ R)) := by
    intro o R replies ho
    obtain rfl : {x | x ∈ o} = R := Set.ext ho
    rw [h.storeRemoves srv hset, sdiff_sdiff_right_self]
    rfl
  cases op with
  | union => exact h.unionstore srv dst src srcs
  | inter =>
    simp only [StoreOp.or, orsPrepare, orsinterstorePrepare, Db.view_eq, hset]
    exact ⟨_, rfl, hremoves _ (h.onlySets.mem_scratch_inter srv src srcs)⟩
  | diff =>
    obtain ⟨o, replies, hdiff, ho⟩ := h.onlySets.mem_scratch_diff srv src srcs
    simp only [StoreOp.or, orsPrepare, orsdiffstorePrepare, Db.view_eq, hset, hdiff]
    exact ⟨_, rfl, hremoves _ ho⟩

/-! ### The PN-Set -/

/-- The database after a prepare phase and the effect of what it sends. -/
def pnAfter (p : Prepared PnDb PnMsg) : PnDb := p.msg.elim p.state (pnsEffect · p.state)

/-- **The store commands of the PN-Set** add all they have to, and remove what counts one. -/
theorem PnOk.store {L : List PnItem} {db : PnDb} (h : PnOk L db) (srv : Server) {dst : Sds}
    (hdst : db.keys dst ≠ none) (op : StoreOp) (src : Sds) (srcs : List Sds) :
    ∃ p, pnsPrepare srv (op.pn dst src srcs) db = some p ∧
      (pnAfter p).keys.sets dst = op.leaves (db.keys.sets dst)
        (op.result db.keys.sets src srcs \ db.keys.sets dst)
        {x ∈ db.keys.sets dst \ op.result db.keys.sets src srcs | (db.pne dst x).current ≤ 1} := by
  obtain ⟨set, hset⟩ := h.onlySets.exists_set hdst
  have hremoves : ∀ {o : SetObj} {R : Set Sds}, (∀ x, x ∈ o ↔ x ∈ R) →
      (pnsEffect (.rem dst (pnsstoreRemoves srv set o)) db).keys.sets dst =
        db.keys.sets dst \ {x ∈ db.keys.sets dst \ R | (db.pne dst x).current ≤ 1} := by
    intro o R ho
    ext x
    rw [Keys.mem_sets, h.mem_visible_store srv hset, ho, Set.mem_sdiff, Keys.mem_sets]
    refine and_congr_right fun hvis => ?_
    simp only [Set.mem_ofPred_eq, Set.mem_sdiff, Keys.mem_sets, hvis, true_and, not_and, not_le,
      or_iff_not_imp_left]
  cases op with
  | union =>
    have hnul : ∀ x ∈ srv.iter.order (sunionResult srv db.keys (src :: srcs) .empty).1.elems,
        NulFree x := by
      intro x hx
      obtain ⟨k, -, hk⟩ := (h.onlySets.mem_scratch_union srv src srcs x).mp hx
      exact h.nulFree k x hk
    obtain ⟨p, hp, hmsg⟩ : ∃ p, pnsPrepare srv (.unionstore dst src srcs) db = some p ∧
        p.msg = some (.add dst (((srv.iter.order
          (sunionResult srv db.keys (src :: srcs) .empty).1.elems).filter
            (db.keys.lacks dst)).map fun x => ⟨x, 1 - (db.pne dst x).current⟩)) := by
      rw [← collect_raiseToOne (fun x hx => sdsnew_of_nulFree (hnul x hx)) hnul]
      simp only [pnsPrepare, pnsunionstorePrepare, Db.view_eq, hset]
      exact ⟨_, rfl, rfl⟩
    refine ⟨p, hp, ?_⟩
    ext x
    rw [Keys.mem_sets, pnAfter, hmsg, Option.elim_some,
      h.own_raise (pnsPrepare_spec h hp) hmsg, h.onlySets.mem_scratch_union srv src srcs]
    show _ ↔ x ∈ db.keys.sets dst ∪ (_ \ db.keys.sets dst)
    rw [Set.union_sdiff_self]
    rfl
  | inter =>
    simp only [StoreOp.pn, pnsPrepare, pnsinterstorePrepare, Db.view_eq, hset]
    exact ⟨_, rfl, hremoves (h.onlySets.mem_scratch_inter srv src srcs)⟩
  | diff =>
    obtain ⟨o, replies, hdiff, ho⟩ := h.onlySets.mem_scratch_diff srv src srcs
    simp only [StoreOp.pn, pnsPrepare, pnsdiffstorePrepare, Db.view_eq, hset, hdiff]
    exact ⟨_, rfl, hremoves ho⟩

/-! ### Runs -/

/-- **A family stores the result exactly when a condition holds.** The replica hears of nobody and
has executed any commands of the family; the destination is there, the sources are or are not. -/
def StoresWhen {N : ℕ} {σ Cmd Msg : Type} (S : OpBased (Fin N) σ Cmd Msg) (keys : σ → Keys)
    (cmd : Sds → Sds → List Sds → StoreOp → Cmd)
    (cond : Fin N → σ → Sds → Set Sds → Prop) : Prop :=
  ∀ r cs s, Alone S r cs s → ∀ op dst src srcs, keys s dst ≠ none →
    ∃ s', S.perform r (cmd dst src srcs op) s = some s' ∧
      ((keys s').sets dst = op.result (keys s).sets src srcs ↔
        op.Within ((keys s).sets dst) (op.result (keys s).sets src srcs) ∧
          cond r s dst (op.result (keys s).sets src srcs))

/-- Members to be added or removed have no NUL bytes. -/
def Db.SendsWhole (db : RwDb) (dst : Sds) (R : Set Sds) : Prop :=
  (∀ x ∈ R \ db.keys.sets dst, NulFree x) ∧ ∀ x ∈ db.keys.sets dst \ R, NulFree x

/-- The tags to be drawn for members to be added are not tombstones. -/
def Db.DrawsLive (srv : Server) (db : OrDb) (dst : Sds) (R : Set Sds) : Prop :=
  ∀ x ∈ R \ db.keys.sets dst, db.nextTag srv dst x ∉ (db.ore dst x).rset

/-- Members to be removed count one. -/
def Db.CountsOne (db : PnDb) (dst : Sds) (R : Set Sds) : Prop :=
  ∀ x ∈ db.keys.sets dst \ R, (db.pne dst x).current ≤ 1

section

variable {N : ℕ} (iter : Fin N → Iteration)

theorem rwOk_of_alone {r : Fin N} {cs : List RwCmd} {db : RwDb} (h : Alone (rwSet iter) r cs db) :
    ∃ L, RwOk (.of iter r) L db := by
  obtain ⟨g, hg, rfl, -⟩ := h.exists_reachable (C := anyOrder) fun _ _ _ _ => trivial
  exact ⟨_, rwOk_of_reachable hg r⟩

theorem pnOk_of_alone {r : Fin N} {cs : List PnCmd} {db : PnDb} (h : Alone (pnSet iter) r cs db) :
    ∃ L, PnOk L db := by
  obtain ⟨g, hg, rfl, -⟩ := h.exists_reachable (C := anyOrder) fun _ _ _ _ => trivial
  exact ⟨_, (pnOk_of_reachable hg).2 r⟩

theorem rwSet_storesWhen :
    StoresWhen (rwSet iter) Db.keys StoreOp.rw fun _ db => db.SendsWhole := by
  intro r cs db hrun op dst src srcs hdst
  obtain ⟨L, hok⟩ := rwOk_of_alone iter hrun
  obtain ⟨p, hp, hsets⟩ := hok.store (by simp [Server.of]) (by simp [Server.of]) hdst op src srcs
  refine ⟨_, OpBased.perform_eq (Option.map_eq_some_iff.mpr ⟨p, hp, rfl⟩), ?_⟩
  show (RwDb.after (.of iter r) p).keys.sets dst = _ ↔ _
  rw [hsets, Function.update_self, op.leaves_copies_iff]
  rfl

theorem orSet_storesWhen :
    StoresWhen (orSet iter) Db.keys StoreOp.or fun r => Db.DrawsLive (.of iter r) := by
  intro r cs db hrun op dst src srcs hdst
  obtain ⟨p, hp, hsets⟩ := (orSound_of_alone hrun).store (.of iter r) hdst op src srcs
  refine ⟨_, orSet_perform hp, ?_⟩
  rw [hsets, Function.update_self, op.leaves_some_iff]
  rfl

theorem pnSet_storesWhen :
    StoresWhen (pnSet iter) Db.keys StoreOp.pn fun _ => Db.CountsOne := by
  intro r cs db hrun op dst src srcs hdst
  obtain ⟨L, hok⟩ := pnOk_of_alone iter hrun
  obtain ⟨p, hp, hsets⟩ := hok.store (.of iter r) hdst op src srcs
  refine ⟨_, OpBased.perform_eq (Option.map_eq_some_iff.mpr ⟨p, hp, rfl⟩), ?_⟩
  show (pnAfter p).keys.sets dst = _ ↔ _
  rw [hsets, op.leaves_eq_iff, and_iff_right Set.Subset.rfl, subset_sep_self_iff]
  · rfl
  · exact fun _ => Set.sdiff_subset
  · exact fun _ => Set.disjoint_left.mpr fun x hx => hx.1.2

end

theorem StoreOp.not_within_singletons {S : PlainSets} {src : Sds} {A : Set Sds} {a b : Sds}
    (hab : a ≠ b) (hA : A = {a}) (hB : S src = {b}) (op : StoreOp) :
    ¬ op.Within A (op.result S src []) := by
  have hresult : op.result S src [] = {b} := by
    rw [← hB]
    cases op <;> ext x <;> simp [StoreOp.result]
  rw [hresult, hA]
  cases op <;> simp [StoreOp.Within, hab, hab.symm]

end RemoveWin
