import RemoveWin.Tree.Churn
import RemoveWin.Tree.Placeholders

/-!
# Children as they are listed

`RWFTREEMEMBERS` lists the children of every node from the node's children set. An insert adds to
that set before any check, and only a delete that finds the node's parent takes it out again. A
delete that overtakes the insert of its node finds no parent, and when the insert comes the dead
node stays in its parent's set for good, at this replica and not at others.

If every delete comes after the insert of its node, children sets are what they should be at all
times: the nodes that have been inserted there and not deleted. Then the children that are listed
are the listed nodes with that parent, and replicas that have applied the same messages list the
same children. One id is in the way. The parent of the root is called `null`, so the root is listed
once there is a node of that name, and it is not among that node's children.

Ids are compared up to the first NUL byte throughout, as the server does.

## Main results

* `RemoveWin.kidsOk_of_reachable` — children sets are what they should be
* `RemoveWin.rwTree_children_converge` — replicas list the same children
* `RemoveWin.rwTree_children_diverge` — a delete overtakes an insert
-/

namespace RemoveWin

open Replicated Walk

section

variable {N : ℕ}

/-! ### The discipline -/

/-- The keys of the nodes inserted by a list of events. -/
def insertedKeys (A : List (TreeEvent N)) : List Sds :=
  A.flatMap fun e => (e.msg.insertOf.map fun c => sdsnew c.1).toList

/-- Create, insert, and delete of anything but the root, where no id is inserted twice in the whole
run. -/
def keyedOnce : TreeCond N
  | _, .client _ c, g' => c.cmd.Churn ∧ (insertedKeys g'.log).Nodup
  | _, .deliver _ _, _ => True

instance (g : TreeNet N) (a : Act (Fin N) TreeCall)
    (g' : TreeNet N) : Decidable (keyedOnce g a g') :=
  match a with
  | .client _ c => inferInstanceAs (Decidable (c.cmd.Churn ∧ (insertedKeys g'.log).Nodup))
  | .deliver _ _ => inferInstanceAs (Decidable True)

/-- No node gets the id that stands for the parent of the root. -/
def TreeCmd.NotNull : TreeCmd → Prop
  | .insert _ _ uid => sdsnew uid ≠ nullId
  | _ => True

instance : (cmd : TreeCmd) → Decidable cmd.NotNull
  | .insert _ _ uid => inferInstanceAs (Decidable (sdsnew uid ≠ nullId))
  | .create | .delete _ | .changeValue _ _ | .move _ _ => inferInstanceAs (Decidable True)

/-- The id of the root's parent is not used. -/
def notNull : TreeCond N
  | _, .client _ c, _ => c.cmd.NotNull
  | _, .deliver _ _, _ => True

instance (g : TreeNet N) (a : Act (Fin N) TreeCall)
    (g' : TreeNet N) : Decidable (notNull g a g') :=
  match a with
  | .client _ c => inferInstanceAs (Decidable c.cmd.NotNull)
  | .deliver _ _ => inferInstanceAs (Decidable True)

/-- A delete is applied after the insert of its node. -/
def insertsFirst : TreeCond N :=
  fun g _ g' => ∀ r e k, g'.applied r = g.applied r ++ [e] → e.msg.Deletes k →
    Placed (g.applied r) k

/-- All three. -/
def orderlyChildren : TreeCond N :=
  fun g a g' => keyedOnce g a g' ∧ notNull g a g' ∧ insertsFirst g a g'

/-! ### What events say -/

/-- The node with key `k` has been inserted, with the id, the value and the parent in `c`. -/
def PlacedAs (A : List (TreeEvent N)) (k : Sds) (c : Sds × Sds × Sds) : Prop :=
  ∃ e ∈ A, e.msg.Inserts k c

/-- The node with key `k` has been deleted. -/
def Removed (A : List (TreeEvent N)) (k : Sds) : Prop := ∃ e ∈ A, e.msg.Deletes k

variable {A B log : List (TreeEvent N)} {e : TreeEvent N} {k : Sds}
  {c c' : Sds × Sds × Sds}

theorem placed_iff : Placed A k ↔ ∃ c, PlacedAs A k c := by
  constructor
  · rintro ⟨e, he, x, v, p, hm, rfl⟩
    exact ⟨(x, v, p), e, he, hm, rfl⟩
  · rintro ⟨⟨x, v, p⟩, e, he, hm, hk⟩
    exact ⟨e, he, x, v, p, hm, hk⟩

theorem placedAs_concat : PlacedAs (A ++ [e]) k c ↔ PlacedAs A k c ∨ e.msg.Inserts k c := by
  simp [PlacedAs, or_and_right, exists_or]

theorem removed_concat : Removed (A ++ [e]) k ↔ Removed A k ∨ e.msg.Deletes k := by
  simp [Removed, or_and_right, exists_or]

/-- What is true of a message when it is broadcast, given what its origin had applied. Inserts carry
zero clocks, since nothing they name had been deleted. -/
inductive KeyedMsg (deps : List (TreeEvent N)) : TreeMsg → Prop
  | create : KeyedMsg deps .create
  | insert {name parent uid : Sds} {rp r : VC} (hroot : sdsnew uid ≠ rootId)
      (hnull : sdsnew uid ≠ nullId) (hin : sdsnew parent = rootId ∨ Placed deps (sdsnew parent))
      (hrp : rp.entry = 0) (hr : r.entry = 0) : KeyedMsg deps (.insert name parent uid rp r)
  | delete {uid : Sds} {r : VC} (hroot : sdsnew uid ≠ rootId) (hin : Placed deps (sdsnew uid))
      (hr : 0 < r.entry) : KeyedMsg deps (.delete uid r)

theorem KeyedMsg.of_inserts {m : TreeMsg} (h : KeyedMsg A m) (hm : m.Inserts k c) :
    k ≠ rootId ∧ k ≠ nullId ∧ (sdsnew c.2.2 = rootId ∨ Placed A (sdsnew c.2.2)) := by
  obtain ⟨hins, rfl⟩ := hm
  cases h with
  | insert hroot hnull hin =>
    cases hins
    exact ⟨hroot, hnull, hin⟩
  | create | delete => cases hins

theorem KeyedMsg.of_deletes {m : TreeMsg} (h : KeyedMsg A m) (hm : m.Deletes k) :
    k ≠ rootId ∧ Placed A k := by
  cases h with
  | delete hroot hin =>
    cases hm
    exact ⟨hroot, hin⟩
  | create | insert => cases hm

/-- The log of a run under the discipline. -/
structure KeyedLog (log : List (TreeEvent N)) : Prop where
  msg : ∀ e ∈ log, KeyedMsg e.deps e.msg
  /-- No id is inserted twice. -/
  once : (insertedKeys log).Nodup
  id_lt : ∀ e ∈ log, e.id < log.length
  deps_mem : ∀ e ∈ log, ∀ d ∈ e.deps, d ∈ log ∧ d.id < e.id

theorem mem_insertedKeys : k ∈ insertedKeys A ↔ Placed A k := by
  simp only [insertedKeys, List.mem_flatMap, Option.mem_toList,
    Option.map_eq_some_iff, placed_iff, PlacedAs, TreeMsg.Inserts]
  constructor
  · rintro ⟨e, he, c, hc⟩
    exact ⟨c, e, he, hc⟩
  · rintro ⟨c, e, he, hc⟩
    exact ⟨e, he, c, hc⟩

namespace KeyedLog

theorem unique (h : KeyedLog log) {e' : TreeEvent N} (he : e ∈ log) (he' : e' ∈ log)
    (hm : e.msg.Inserts k c) (hm' : e'.msg.Inserts k c') : e = e' :=
  eq_of_nodup_items h.once he he' (x := k) (by simp [hm.1, hm.2]) (by simp [hm'.1, hm'.2])

theorem placedAs_unique (h : KeyedLog log) (hA : ∀ e ∈ A, e ∈ log) (hc : PlacedAs A k c)
    (hc' : PlacedAs A k c') : c = c' := by
  obtain ⟨e, he, hm⟩ := hc
  obtain ⟨e', he', hm'⟩ := hc'
  obtain rfl := h.unique (hA e he) (hA e' he') hm hm'
  exact Option.some.inj (hm.1.symm.trans hm'.1)

theorem of_placedAs (h : KeyedLog log) (hA : ∀ e ∈ A, e ∈ log) (hc : PlacedAs A k c) :
    k ≠ rootId ∧ k ≠ nullId := by
  obtain ⟨e, he, hm⟩ := hc
  obtain ⟨hroot, hnull, -⟩ := (h.msg e (hA e he)).of_inserts hm
  exact ⟨hroot, hnull⟩

theorem of_placed (h : KeyedLog log) (hA : ∀ e ∈ A, e ∈ log) (hk : Placed A k) :
    k ≠ rootId ∧ k ≠ nullId := by
  obtain ⟨c, hc⟩ := placed_iff.mp hk
  exact h.of_placedAs hA hc

theorem not_removed_rootId (h : KeyedLog log) (hA : ∀ e ∈ A, e ∈ log) : ¬ Removed A rootId := by
  rintro ⟨e, he, hm⟩
  exact ((h.msg e (hA e he)).of_deletes hm).1 rfl

end KeyedLog

/-- Clocks of headers are not negative, and zero as long as the node has not been deleted. -/
theorem header_zero {cur : ℕ → ℤ} (hmsg : ∀ e ∈ A, KeyedMsg e.deps e.msg)
    (hlub : IsLUB (insert 0 (stampEntries A k)) cur) : 0 ≤ cur ∧ (¬ Removed A k → cur = 0) := by
  refine ⟨hlub.1 (Set.mem_insert _ _), fun hno => ?_⟩
  have hzero : insert 0 (stampEntries A k) = {0} := by
    refine Set.eq_singleton_iff_unique_mem.mpr ⟨Set.mem_insert _ _, ?_⟩
    rintro _ (rfl | ⟨e, he, t, ht, rfl⟩)
    · rfl
    · have hk := hmsg e he
      cases hm : e.msg with
      | create | changeValue | move =>
        rw [hm] at hk ht
        cases hk
        try cases ht
      | insert name parent uid rp r =>
        rw [hm] at hk ht
        obtain _ | ⟨-, -, -, hrp, hr⟩ | _ := hk
        simp only [TreeMsg.stampsFor, List.mem_append, List.mem_ite_nil_right,
          List.mem_singleton] at ht
        rcases ht with ⟨-, rfl⟩ | ⟨-, rfl⟩
        · exact hrp
        · exact hr
      | delete uid r =>
        rw [hm] at ht
        simp only [TreeMsg.stampsFor, List.mem_ite_nil_right] at ht
        exact absurd ⟨e, he, by rw [hm, ht.1]; rfl⟩ hno
  rw [hzero] at hlub
  exact (isLUB_singleton.unique hlub).symm

/-! ### The state of a replica -/

/-- **The state of a replica** that applies deletes after inserts. -/
structure KidsOk (A : List (TreeEvent N)) (F : Forest) : Prop where
  there : ∀ k, (F k).header.Exists ↔ (k = rootId ∧ Created A) ∨ (Placed A k ∧ ¬ Removed A k)
  uid : ∀ k c, PlacedAs A k c → (F k).uid = some c.1
  /-- They have the parents they were inserted under, until they are deleted. -/
  parent : ∀ k c, PlacedAs A k c → ¬ Removed A k → (F k).parent = some c.2.2
  rootParent : Created A → (F rootId).parent = some nullId
  /-- Children sets hold what has been inserted there and not deleted. -/
  children : ∀ q y, y ∈ (F q).children ↔
    ∃ v p, PlacedAs A (sdsnew y) (y, v, p) ∧ sdsnew p = q ∧ ¬ Removed A (sdsnew y)
  removed : ∀ k, Removed A k → Placed A k

theorem kidsOk_rtnNew (srv : Server) :
    KidsOk ([] : List (TreeEvent N)) fun _ => rtnNew srv where
  there k := by
    refine iff_of_false (not_exists_rtnNew srv) ?_
    simp [Created, Placed]
  uid k c h := by simp [PlacedAs] at h
  parent k c h := by simp [PlacedAs] at h
  rootParent h := by simp [Created] at h
  children q y := by
    refine iff_of_false (SetObj.notMem_empty y) ?_
    simp [PlacedAs]
  removed k h := by simp [Removed] at h

/-- Nothing depends on anything but what has been inserted, deleted and created. -/
theorem KidsOk.congr {F F' : Forest} (h : KidsOk A F)
    (hplaced : ∀ k c, PlacedAs B k c ↔ PlacedAs A k c) (hremoved : ∀ k, Removed B k ↔ Removed A k)
    (hcreated : Created B ↔ Created A)
    (hex : ∀ k, (F' k).header.Exists ↔ (F k).header.Exists) (huid : ∀ k, (F' k).uid = (F k).uid)
    (hparent : ∀ k, (F' k).parent = (F k).parent)
    (hchildren : ∀ k, (F' k).children = (F k).children) : KidsOk B F' := by
  have hplaced' : ∀ k, Placed B k ↔ Placed A k := fun k => by simp only [placed_iff, hplaced]
  constructor
  · intro k
    rw [hex, h.there, hplaced', hremoved, hcreated]
  · intro k c hc
    rw [huid]
    exact h.uid k c ((hplaced k c).mp hc)
  · intro k c hc hr
    rw [hparent]
    exact h.parent k c ((hplaced k c).mp hc) (hr ∘ (hremoved k).mpr)
  · intro hc
    rw [hparent]
    exact h.rootParent (hcreated.mp hc)
  · intro q y
    simp only [hchildren, h.children, hplaced, hremoved]
  · intro k hr
    exact (hplaced' k).mpr (h.removed k ((hremoved k).mp hr))

theorem KidsOk.of_same {F : Forest} (h : KidsOk A F) (hAB : ∀ e, e ∈ A ↔ e ∈ B) : KidsOk B F :=
  h.congr (fun k c => by simp only [PlacedAs, hAB]) (fun k => by simp only [Removed, hAB])
    (by simp only [Created, hAB]) (fun _ => Iff.rfl) (fun _ => rfl) (fun _ => rfl) fun _ => rfl

variable {srv : Server} {ht : TreeHT}

namespace KidsOk

theorem create (h : KidsOk A (ht.node srv)) (hpid : 0 ≤ srv.p2pId) (hlog : KeyedLog log)
    (hA : ∀ d ∈ A, d ∈ log) (hm : e.msg = .create) :
    KidsOk (A ++ [e]) ((createEffect srv ht).node srv) := by
  have hremoved : ∀ k, Removed (A ++ [e]) k ↔ Removed A k := by
    intro k
    simp [removed_concat, hm, TreeMsg.Deletes, TreeMsg.deleteOf]
  have hplaced : ∀ k c, PlacedAs (A ++ [e]) k c ↔ PlacedAs A k c := by
    intro k c
    simp [placedAs_concat, hm, TreeMsg.Inserts, TreeMsg.insertOf]
  have hplaced' : ∀ k, Placed (A ++ [e]) k ↔ Placed A k := fun k => by
    simp only [placed_iff, hplaced]
  have hcreated : Created (A ++ [e]) := created_concat.mpr (.inr (by rw [hm]; rfl))
  constructor
  · intro k
    rw [hplaced', hremoved]
    by_cases hk : k = rootId
    · subst hk
      rw [node_createEffect_rootId]
      exact iff_of_true hpid (.inl ⟨rfl, hcreated⟩)
    · rw [node_createEffect_of_ne hk, h.there]
      simp [hk]
  · intro k c hc
    rw [hplaced] at hc
    rw [node_createEffect_of_ne (hlog.of_placedAs hA hc).1]
    exact h.uid k c hc
  · intro k c hc hr
    rw [hplaced] at hc
    rw [node_createEffect_of_ne (hlog.of_placedAs hA hc).1]
    exact h.parent k c hc (hr ∘ (hremoved k).mpr)
  · intro _
    rw [node_createEffect_rootId]
  · intro q y
    simp only [children_createEffect, h.children, hplaced, hremoved]
  · intro k hr
    exact (hplaced' k).mpr (h.removed k ((hremoved k).mp hr))

theorem insert {name parent uid : Sds} {rp r : VC} (h : KidsOk A (ht.node srv))
    (hlog : KeyedLog log) (he : e ∈ log) (hm : e.msg = .insert name parent uid rp r)
    (hzero : ∀ k, 0 ≤ (ht.node srv k).header.current.entry ∧
      (¬ Removed A k → (ht.node srv k).header.current.entry = 0))
    (hsize : ∀ k, rp.size = (ht.node srv k).header.current.size ∧
      r.size = (ht.node srv k).header.current.size) (hid : 0 ≤ r.id)
    (hnew : ¬ Placed A (sdsnew uid)) :
    ∃ ht', treeEffect srv ht e.msg = some ht' ∧ KidsOk (A ++ [e]) (ht'.node srv) := by
  have hmsg := hlog.msg e he
  rw [hm] at hmsg
  obtain _ | ⟨hroot, -, -, hrp, hr⟩ | _ := hmsg
  have hcalm : ∀ {t : VC} k, t.size = (ht.node srv k).header.current.size → t.entry = 0 →
      ¬ removeCheck (ht.node srv k).header t := by
    intro t k hs ht
    rw [removeCheck_iff hs, not_not, ht]
    exact (hzero k).1
  obtain ⟨ht', heff, hnode⟩ : ∃ ht', insertEffect srv name parent uid rp r ht = some ht' ∧ _ :=
    insertEffect_of_calm (hcalm _ (hsize _).1 hrp) (hcalm _ (hsize _).2 hr)
  have hlive : ¬ Removed A (sdsnew uid) := fun hrem => hnew (h.removed _ hrem)
  have hremoved : ∀ k, Removed (A ++ [e]) k ↔ Removed A k := by
    intro k
    simp [removed_concat, hm, TreeMsg.Deletes, TreeMsg.deleteOf]
  have hplaced : ∀ k c, PlacedAs (A ++ [e]) k c ↔
      PlacedAs A k c ∨ ((uid, name, parent) = c ∧ sdsnew uid = k) := by
    intro k c
    simp only [placedAs_concat, hm, TreeMsg.Inserts, TreeMsg.insertOf, Option.some.injEq]
    refine or_congr_right (and_congr_right fun hc => ?_)
    rw [← hc]
  have hplaced' : ∀ k, Placed (A ++ [e]) k ↔ Placed A k ∨ sdsnew uid = k := by
    intro k
    simp only [placed_iff, hplaced, exists_or]
    simp
  have hcreated : Created (A ++ [e]) ↔ Created A := by
    simp [created_concat, hm, TreeMsg.isCreate]
  have hold : ∀ {k c}, PlacedAs A k c → k ≠ sdsnew uid := by
    rintro k c hc rfl
    exact hnew (placed_iff.mpr ⟨c, hc⟩)
  refine ⟨ht', by rw [hm]; exact heff, ?_⟩
  constructor
  · intro k
    rw [hnode, hplaced', hremoved, hcreated]
    dsimp only
    split
    · next hk =>
      subst hk
      rw [Reh.exists_ins (hsize _).2 hid, hr, (hzero _).2 hlive]
      simp [hlive]
    · next hk =>
      rw [h.there]
      simp [Ne.symm hk]
  · intro k c hc
    rw [hnode]
    dsimp only
    rcases (hplaced k c).mp hc with hc | ⟨rfl, rfl⟩
    · rw [if_neg (hold hc)]
      exact h.uid k c hc
    · rw [if_pos rfl]
  · intro k c hc hr
    rw [hnode]
    dsimp only
    rcases (hplaced k c).mp hc with hc | ⟨rfl, rfl⟩
    · rw [if_neg (hold hc)]
      exact h.parent k c hc (hr ∘ (hremoved k).mpr)
    · rw [if_pos rfl]
  · intro hc
    rw [hnode]
    dsimp only
    rw [if_neg hroot.symm]
    exact h.rootParent (hcreated.mp hc)
  · intro q y
    rw [hnode, mem_ite_setTypeAdd, h.children]
    simp only [hplaced, hremoved, Prod.mk.injEq]
    constructor
    · rintro (⟨v, p, hc, hp, hr⟩ | ⟨rfl, rfl⟩)
      · exact ⟨v, p, .inl hc, hp, hr⟩
      · exact ⟨name, parent, .inr ⟨⟨rfl, rfl, rfl⟩, rfl⟩, rfl, hlive⟩
    · rintro ⟨v, p, hc | ⟨⟨rfl, rfl, rfl⟩, -⟩, hp, hr⟩
      · exact .inl ⟨v, p, hc, hp, hr⟩
      · exact .inr ⟨hp.symm, rfl⟩
  · intro k hr
    exact (hplaced' k).mpr (.inl (h.removed k ((hremoved k).mp hr)))

theorem delete {uid : Sds} {r : VC} (h : KidsOk A (ht.node srv)) (hlog : KeyedLog log)
    (hA : ∀ d ∈ A, d ∈ log) (he : e ∈ log) (hm : e.msg = .delete uid r)
    (hzero : ∀ k, ¬ Removed A k → (ht.node srv k).header.current.entry = 0)
    (hsize : ∀ k, r.size = (ht.node srv k).header.current.size)
    (hplace : Placed A (sdsnew uid)) :
    ∃ ht', treeEffect srv ht e.msg = some ht' ∧ KidsOk (A ++ [e]) (ht'.node srv) := by
  have hmsg := hlog.msg e he
  rw [hm] at hmsg
  obtain _ | _ | ⟨hroot, -, hr⟩ := hmsg
  have hremoved : ∀ k, Removed (A ++ [e]) k ↔ Removed A k ∨ sdsnew uid = k := by
    intro k
    simp [removed_concat, hm, TreeMsg.Deletes, TreeMsg.deleteOf]
  have hplaced : ∀ k c, PlacedAs (A ++ [e]) k c ↔ PlacedAs A k c := by
    intro k c
    simp [placedAs_concat, hm, TreeMsg.Inserts, TreeMsg.insertOf]
  have hplaced' : ∀ k, Placed (A ++ [e]) k ↔ Placed A k := fun k => by
    simp only [placed_iff, hplaced]
  have hcreated : Created (A ++ [e]) ↔ Created A := by
    simp [created_concat, hm, TreeMsg.isCreate]
  obtain ⟨c, hc⟩ := placed_iff.mp hplace
  have huid := h.uid _ c hc
  have hckey : sdsnew c.1 = sdsnew uid := by
    obtain ⟨d, -, hd⟩ := hc
    exact hd.2
  generalize hk : sdsnew uid = k at *
  have hcreate : (ht.create srv k).node srv = ht.node srv := TreeHT.node_create
  rw [← hcreate] at h hzero hsize huid
  obtain ⟨ht', heff⟩ : ∃ ht', tRemFunc srv (ht.create srv k) k r = some ht' :=
    exists_tRemFunc fun hnone => by rw [huid] at hnone; cases hnone
  refine ⟨ht', by rw [hm, ← heff, treeEffect, deleteEffect, hk], ?_⟩
  by_cases hrc : removeCheck ((ht.create srv k).node srv k).header r
  · have hgone := (gone_tRemFunc hrc heff).1
    have hne : ∀ j, j ≠ k → (ht'.node srv j).header = ((ht.create srv k).node srv j).header ∧
        (ht'.node srv j).parent = ((ht.create srv k).node srv j).parent :=
      fun j hj => tRemFunc_of_ne heff hj
    have hchildren : ∀ q y, y ∈ (ht'.node srv q).children ↔
        y ∈ ((ht.create srv k).node srv q).children ∧ sdsnew y ≠ k := by
      intro q y
      rw [mem_children_tRemFunc hrc heff, huid]
      refine and_congr_right fun hy => not_congr ⟨fun hyc => ?_, fun hyk => ?_⟩
      · rw [← Option.some.inj hyc.2, hckey]
      · -- wherever the node was a child, its parent field has led there
        obtain ⟨v, p, hplc, hp, hr⟩ := (h.children q y).mp hy
        rw [hyk] at hplc hr
        rw [h.parent k _ hplc hr, sdsnewNull_some, hp, ← hlog.placedAs_unique hA hplc hc]
        exact ⟨rfl, rfl⟩
    constructor
    · intro j
      rw [hplaced', hremoved, hcreated]
      by_cases hj : j = k
      · subst hj
        exact iff_of_false hgone (by simp [hroot])
      · rw [(hne j hj).1, h.there]
        simp [Ne.symm hj]
    · intro j d hd
      rw [(frame_tRemFunc heff j).1]
      exact h.uid j d ((hplaced j d).mp hd)
    · intro j d hd hr
      rw [hremoved, not_or] at hr
      rw [(hne j (Ne.symm hr.2)).2]
      exact h.parent j d ((hplaced j d).mp hd) hr.1
    · intro hcr
      rw [(hne rootId hroot.symm).2]
      exact h.rootParent (hcreated.mp hcr)
    · intro q y
      rw [hchildren, h.children]
      simp only [hplaced, hremoved, not_or]
      constructor
      · rintro ⟨⟨v, p, hy, hp, hr⟩, hyk⟩
        exact ⟨v, p, hy, hp, hr, Ne.symm hyk⟩
      · rintro ⟨v, p, hy, hp, hr, hyk⟩
        exact ⟨⟨v, p, hy, hp, hr⟩, Ne.symm hyk⟩
    · intro j hr
      rw [hplaced']
      rcases (hremoved j).mp hr with hr | rfl
      · exact h.removed j hr
      · exact hplace
  · -- the node had been deleted before, and nothing changes
    have hrk : Removed A k := by
      by_contra hrk
      rw [removeCheck_iff (hsize k), not_not, hzero k hrk] at hrc
      exact hr.not_ge hrc
    rw [tRemFunc_of_calm hrc] at heff
    cases heff
    refine h.congr hplaced (fun j => ?_) hcreated (fun _ => Iff.rfl) (fun _ => rfl) (fun _ => rfl)
      fun _ => rfl
    rw [hremoved]
    exact ⟨fun hj => hj.elim id fun hkj => hkj ▸ hrk, .inl⟩

theorem keyedMsg {fuel : ℕ} {cmd : TreeCmd} {m : TreeMsg} (h : KidsOk A (ht.node srv))
    (hlog : KeyedLog log) (hA : ∀ e ∈ A, e ∈ log) (hcmd : cmd.Churn)
    (hnew : ∀ v p x, cmd = .insert v p x → sdsnew x ≠ nullId ∧ ¬ Placed log (sdsnew x))
    (hzero : ∀ k, ¬ Removed A k → (ht.node srv k).header.current.entry = 0)
    (hshape : ∀ k, RtnShape srv (ht.node srv k)) (hid : srv.p2pId.toNat < srv.p2pCount)
    (hacc : Accepts srv ht fuel cmd m) : KeyedMsg A m := by
  -- a member is the root or has been inserted, and has not been deleted
  have hmember : ∀ {x}, istreeMember ht fuel x = some true →
      (sdsnew x = rootId ∨ Placed A (sdsnew x)) ∧ ¬ Removed A (sdsnew x) := by
    intro x hx
    by_cases hroot : sdsnew x = rootId
    · rw [hroot]
      exact ⟨.inl rfl, hlog.not_removed_rootId hA⟩
    · have hex := (exists_of_istreeMember srv hx).resolve_left hroot
      obtain ⟨hpl, hr⟩ := ((h.there _).mp hex).resolve_left fun hc => hroot hc.1
      exact ⟨.inr hpl, hr⟩
  cases hacc with
  | create => exact .create
  | insert hp hu =>
    obtain ⟨hnull, hfresh⟩ := hnew _ _ _ rfl
    obtain ⟨hin, hlive⟩ := hmember hp
    refine .insert (ne_rootId_of_istreeMember hu) hnull hin (hzero _ hlive) (hzero _ fun hr => ?_)
    exact hfresh ((h.removed _ hr).mono hA)
  | @delete uid hu =>
    obtain ⟨hin, hlive⟩ := hmember hu
    refine .delete hcmd (hin.resolve_left hcmd) ?_
    have hkept := (hshape (sdsnew uid)).current
    rw [entry_nowVC (by rwa [hkept.id, hkept.size]), hzero _ hlive]
    refine Pi.lt_def.mpr ⟨?_, srv.p2pId.toNat, ?_⟩
    · simp [hkept.id]
    · simp [hkept.id]
  | changeValue | move => exact hcmd.elim

end KidsOk

end

/-! ### Runs -/

section

variable {N : ℕ} {iter : Fin N → Iteration} {g : TreeNet N}

theorem KeyedLog.of_reachable (hg : Reachable (rwTree iter) orderlyChildren g)
    (hmsg : ∀ e ∈ g.log, KeyedMsg e.deps e.msg) : KeyedLog g.log where
  msg := hmsg
  once := by
    refine hg.invariant (P := fun g => (insertedKeys g.log).Nodup) ?_ ?_
    · exact List.nodup_nil
    intro g g' a _ ih hc hs
    obtain ⟨r, c, s, rfl, -, rfl⟩ | ⟨r, c, s, m, rfl, -, rfl⟩ | ⟨r, i, e, rfl, -, -, rfl⟩ :=
      OpBased.step_cases _ hs
    · exact ih
    · exact hc.1.2
    · exact ih
  id_lt _ he := (Reachable.wellFormed hg).id_lt he
  deps_mem _ he _ hd := (Reachable.wellFormed hg).deps_mem he hd

/-- **Nothing crashes, and the invariant holds** at every moment of a run. -/
theorem kidsOk_of_reachable (hg : Reachable (rwTree iter) orderlyChildren g) :
    KeyedLog g.log ∧ ∀ r, ∃ ht, g.state r = some ht ∧
      KidsOk (g.applied r) (ht.node (.of iter r)) := by
  have hinv := tree_apply_invariant (J := fun e => KeyedMsg e.deps e.msg)
    (P := fun _ A F => KidsOk A F) ?_ (by simp [OpBased.start]) ?_ ?_ hg
  · exact ⟨.of_reachable hg hinv.1, hinv.2⟩
  · exact fun r => ⟨.empty, rfl, kidsOk_rtnNew _⟩
  · intro g g' r fuel cmd m ht hg ihJ hs hok hc hlog _ hacc
    have w := Reachable.wellFormed hg
    have hzero := fun k => (header_zero (fun e he => ihJ e (w.applied_mem he))
      (isLUB_current_of_reachable hg r hs k)).2
    refine hok.keyedMsg (.of_reachable hg ihJ) (fun e => w.applied_mem) hc.1.1 ?_ hzero
      (treeShape_of_reachable hg r hs) (by simp [Server.of]) hacc
    rintro v p x rfl
    refine ⟨hc.2.1, fun hin => ?_⟩
    -- the new event would be the second insert of this id
    cases hacc
    have hnodup := hc.1.2
    rw [hlog, insertedKeys, List.flatMap_append] at hnodup
    exact (List.nodup_append.mp hnodup).2.2 _ (mem_insertedKeys.mpr hin) _
      (by simp [Net.event, TreeMsg.insertOf]) rfl
  · intro g g' r e ht ha ihJ hok
    have w := Reachable.wellFormed ha.after
    have hlog : KeyedLog g'.log := .of_reachable ha.after ihJ
    have hA : ∀ d ∈ g.applied r, d ∈ g'.log := fun _ => w.mem_log_of_applied ha.applied
    have hzero := fun k => header_zero (fun d hd => ihJ d (hA d hd)) (ha.isLUB_current k)
    have hkept := treeClock_of_reachable ha.after e ha.mem
    have hsize : ∀ t ∈ e.msg.clocks, ∀ k,
        t.size = (ht.node (.of iter r) k).header.current.size := fun t htm k =>
      (hkept t htm).size.trans (ha.shape k).current.size.symm
    cases hm : e.msg with
    | create => exact ⟨_, rfl, hok.create (by simp [Server.of]) hlog hA hm⟩
    | insert v p x rp t =>
      rw [hm] at hkept hsize
      rw [← hm]
      have ht := hkept t (by simp [TreeMsg.clocks])
      refine hok.insert hlog ha.mem hm hzero (fun k => ⟨hsize rp (by simp [TreeMsg.clocks]) k,
        hsize t (by simp [TreeMsg.clocks]) k⟩) (by rw [ht.id]; simp [Server.of]) ?_
      intro hpl
      obtain ⟨c, e', he', hm'⟩ := placed_iff.mp hpl
      have hins : e.msg.Inserts (sdsnew x) (x, v, p) := by
        rw [hm]
        exact ⟨rfl, rfl⟩
      obtain rfl := hlog.unique (hA e' he') ha.mem hm' hins
      exact w.notMem_of_applied ha.applied he'
    | delete x t =>
      rw [hm] at hsize
      rw [← hm]
      obtain ⟨a, hcond⟩ := ha.cond
      exact hok.delete hlog hA ha.mem hm (fun k => (hzero k).2)
        (fun k => hsize t (by simp [TreeMsg.clocks]) k)
        (hcond.2.2 r e _ ha.applied (by rw [hm]; rfl))
    | changeValue => exact absurd (ihJ e ha.mem) (by rw [hm]; rintro ⟨⟩)
    | move => exact absurd (ihJ e ha.mem) (by rw [hm]; rintro ⟨⟩)

theorem orderlyChildren_of_causal {C : TreeCond N}
    (hC : ∀ {g a g'}, C g a g' → causal g a g' ∧ keyedOnce g a g' ∧ notNull g a g')
    (hg : Reachable (rwTree iter) C g) : Reachable (rwTree iter) orderlyChildren g := by
  refine Steps.strengthen ?_ hg
  intro g a g' _ hg' hc
  refine ⟨(hC hc).2.1, (hC hc).2.2, fun r e k happ hd => ?_⟩
  have w := Reachable.wellFormed hg'
  have he : e ∈ g'.log := w.applied_mem (r := r) (by simp [happ])
  have hroot : k ≠ rootId := by
    have hlog : ∀ e ∈ g'.log, ∀ k, e.msg.Deletes k → k ≠ rootId := by
      refine tree_log_invariant (by simp [OpBased.start]) ?_ hg'
      intro g g' r fuel cmd m ht _ _ hc _ _ hacc k hd
      have hcmd := (hC hc).2.1.1
      cases hacc with
      | delete => exact Option.some.inj hd ▸ hcmd
      | create | insert | changeValue | move => cases hd
    exact hlog e he k hd
  have hmade : Made e.deps k := by
    refine made_of_names hg' e he k ?_ hroot
    cases hm : e.msg with
    | delete uid t =>
      rw [hm] at hd
      exact List.mem_singleton.mpr (Option.some.inj hd).symm
    | _ =>
      rw [hm] at hd
      cases hd
  have hcausal := Reachable.causalList (fun h => (hC h).1) hg' r
  rw [happ] at hcausal
  exact (hmade.resolve_right fun h => hroot h.1).mono fun d hd => hcausal.last hd

/-! ### What is listed -/

section

variable {srv : Server} {A log : List (TreeEvent N)} {F F' : Forest} {x y : Sds}

namespace KidsOk

theorem of_visits (h : KidsOk A F) (hv : Visits (alive F) (childIds srv F) rootId y) :
    y = rootId ∨ ∃ v p, PlacedAs A (sdsnew y) (y, v, p) ∧ ¬ Removed A (sdsnew y) := by
  rcases hv.eq_or_mem_next with rfl | ⟨q, -, hq⟩
  · exact .inl rfl
  · obtain ⟨v, p, hy, -, hr⟩ := (h.children _ y).mp (mem_childIds.mp hq)
    exact .inr ⟨v, p, hy, hr⟩

theorem sdsnew_inj (h : KidsOk A F) (hlog : KeyedLog log) (hA : ∀ e ∈ A, e ∈ log)
    (hx : Visits (alive F) (childIds srv F) rootId x)
    (hy : Visits (alive F) (childIds srv F) rootId y) (hxy : sdsnew x = sdsnew y) : x = y := by
  have hroot : sdsnew rootId = rootId := by decide
  rcases h.of_visits hx with rfl | ⟨v, p, hpx, -⟩ <;>
    rcases h.of_visits hy with rfl | ⟨w, q, hpy, -⟩
  · rfl
  · exact absurd (hxy.symm.trans hroot) (hlog.of_placedAs hA hpy).1
  · exact absurd (hxy.trans hroot) (hlog.of_placedAs hA hpx).1
  · rw [hxy] at hpx
    exact congrArg Prod.fst (hlog.placedAs_unique hA hpx hpy)

theorem sdsnew_inj_children (h : KidsOk A F) (hlog : KeyedLog log) (hA : ∀ e ∈ A, e ∈ log) {q : Sds}
    (hx : x ∈ (F q).children) (hy : y ∈ (F q).children) (hxy : sdsnew x = sdsnew y) : x = y := by
  obtain ⟨v, p, hpx, -⟩ := (h.children q x).mp hx
  obtain ⟨w, p', hpy, -⟩ := (h.children q y).mp hy
  rw [hxy] at hpx
  exact congrArg Prod.fst (hlog.placedAs_unique hA hpx hpy)

theorem listed_iff (h : KidsOk A F) (hlog : KeyedLog log) (hA : ∀ e ∈ A, e ∈ log)
    (hv : Visits (alive F) (childIds srv F) rootId y) :
    (F (sdsnewNull (F (sdsnew y)).parent)).header.Exists ↔ y ≠ rootId := by
  have hroot : sdsnew rootId = rootId := by decide
  rcases hv.eq_or_mem_next with rfl | ⟨q, hq, hy⟩
  · have hex := alive_iff.mp hv.end_alive
    rw [hroot] at hex ⊢
    have hcr : Created A := by
      rcases (h.there rootId).mp hex with ⟨-, hc⟩ | ⟨hpl, -⟩
      · exact hc
      · exact absurd rfl (hlog.of_placed hA hpl).1
    have hnull : sdsnew nullId = nullId := by decide
    rw [h.rootParent hcr, sdsnewNull_some, hnull, h.there]
    refine iff_of_false ?_ (fun hne => hne rfl)
    rintro (⟨heq, -⟩ | ⟨hpl, -⟩)
    · exact absurd heq (by decide)
    · exact (hlog.of_placed hA hpl).2 rfl
  · obtain ⟨v, p, hpl, hp, hr⟩ := (h.children _ y).mp (mem_childIds.mp hy)
    rw [h.parent _ _ hpl hr, sdsnewNull_some, hp]
    refine iff_of_true (alive_iff.mp hq) ?_
    rintro rfl
    exact (hlog.of_placedAs hA hpl).1 hroot

/-- **The children that are listed are the listed nodes with that parent.** -/
theorem children_perm (h : KidsOk A F) (hlog : KeyedLog log) (hA : ∀ e ∈ A, e ∈ log)
    {ys : List Sds} (hnodup : ys.Nodup) (hys : ∀ y, y ∈ ys ↔
      Visits (alive F) (childIds srv F) rootId y ∧
        (F (sdsnewNull (F (sdsnew y)).parent)).header.Exists) (hy : y ∈ ys) :
    (lineOf srv F y).children.Perm
      (((ys.map (lineOf srv F)).filter fun l => l.parent = (lineOf srv F y).uid).map
        TreeLine.uid) := by
  have hleft : (lineOf srv F y).children.Nodup := by
    refine List.Nodup.map_on ?_ (srv.iter.nodup_order.mpr (F (sdsnew y)).children.nodup)
    intro c hc c' hc' heq
    exact h.sdsnew_inj_children hlog hA (srv.iter.mem_order.mp hc) (srv.iter.mem_order.mp hc') heq
  have hright : (((ys.map (lineOf srv F)).filter fun l => l.parent = (lineOf srv F y).uid).map
      TreeLine.uid).Nodup := by
    refine List.Nodup.sublist (List.filter_sublist.map _) ?_
    rw [List.map_map]
    exact List.Nodup.map_on (fun c hc c' hc' heq =>
      h.sdsnew_inj hlog hA ((hys c).mp hc).1 ((hys c').mp hc').1 heq) hnodup
  refine (List.perm_ext_iff_of_nodup hleft hright).mpr fun z => ?_
  have hvisit := ((hys y).mp hy).1
  simp only [lineOf, List.mem_map, Iteration.mem_order, SetObj.mem_elems, List.mem_filter]
  constructor
  · rintro ⟨c, hc, rfl⟩
    obtain ⟨v, p, hpl, hp, hr⟩ := (h.children _ c).mp hc
    have hex : alive F c :=
      alive_iff.mpr ((h.there _).mpr (.inr ⟨placed_iff.mpr ⟨_, hpl⟩, hr⟩))
    have hvc := hvisit.tail (mem_childIds.mpr hc) hex
    have hne : c ≠ rootId := by
      rintro rfl
      exact (hlog.of_placedAs hA hpl).1 (by decide)
    have hparent : (lineOf srv F c).parent = sdsnew y := by
      rw [lineOf, h.parent _ _ hpl hr, sdsnewNull_some, hp]
    exact ⟨lineOf srv F c, ⟨⟨c, (hys c).mpr ⟨hvc, (h.listed_iff hlog hA hvc).mpr hne⟩, rfl⟩,
      decide_eq_true hparent⟩, rfl⟩
  · rintro ⟨_, ⟨⟨c, hc, rfl⟩, hpar⟩, rfl⟩
    obtain ⟨hvc, hex⟩ := (hys c).mp hc
    have hne := (h.listed_iff hlog hA hvc).mp hex
    obtain ⟨v, p, hpl, hr⟩ := (h.of_visits hvc).resolve_left hne
    refine ⟨c, (h.children _ c).mpr ⟨v, p, hpl, ?_, hr⟩, rfl⟩
    have hparent : sdsnewNull (F (sdsnew c)).parent = sdsnew y := of_decide_eq_true hpar
    rwa [h.parent _ _ hpl hr, sdsnewNull_some] at hparent

theorem visits_congr (srv' : Server) (h : KidsOk A F) (h' : KidsOk A F')
    (hv : Visits (alive F) (childIds srv F) rootId y) :
    Visits (alive F') (childIds srv' F') rootId y := by
  refine hv.mono (fun z hz => ?_) fun q z _ hz => ?_
  · rw [alive_iff, h'.there, ← h.there]
    exact alive_iff.mp hz
  · rw [mem_childIds, h'.children, ← h.children]
    exact mem_childIds.mp hz

/-- Walks from an inserted node end, since a child is inserted later than its parent. -/
theorem acc_of_inserts (h : KidsOk A F) (hlog : KeyedLog log) (hA : ∀ e ∈ A, e ∈ log)
    {e : TreeEvent N} {c : Sds × Sds × Sds} (he : e ∈ log)
    (hm : e.msg.Inserts (sdsnew x) c) : Acc (Below (alive F) (childIds srv F)) x := by
  induction hn : log.length - e.id using Nat.strong_induction_on generalizing e x c with
  | _ n ih =>
    refine Acc.intro x ?_
    rintro z ⟨-, hz⟩
    obtain ⟨v, p, ⟨ez, hez, hmz⟩, hp, -⟩ := (h.children _ z).mp (mem_childIds.mp hz)
    have hezl := hA ez hez
    obtain ⟨-, -, hin⟩ := (hlog.msg ez hezl).of_inserts hmz
    have hroot := ((hlog.msg e he).of_inserts hm).1
    rw [show sdsnew (z, v, p).2.2 = sdsnew x from hp] at hin
    obtain ⟨c', e', he', hm'⟩ := placed_iff.mp (hin.resolve_left hroot)
    obtain ⟨hel', hlt⟩ := hlog.deps_mem ez hezl e' he'
    obtain rfl := hlog.unique he hel' hm hm'
    have hez_lt := hlog.id_lt ez hezl
    exact ih (log.length - ez.id) (by omega) hezl hmz rfl

theorem acc_rootId (h : KidsOk A F) (hlog : KeyedLog log) (hA : ∀ e ∈ A, e ∈ log) :
    Acc (Below (alive F) (childIds srv F)) rootId := by
  refine Acc.intro rootId ?_
  rintro z ⟨-, hz⟩
  obtain ⟨v, p, ⟨ez, hez, hmz⟩, -⟩ := (h.children _ z).mp (mem_childIds.mp hz)
  exact h.acc_of_inserts hlog hA (hA ez hez) hmz

end KidsOk

end

/-- **Replicas list the same children**, in every run of create, insert and delete in which no id is
inserted twice, the root is not deleted, no node is called `null`, and each delete is applied after
the insert of its node. Once everything is delivered every replica is up, `RWFTREEMEMBERS` returns,
and the children that are listed for a node are the listed nodes with that parent, at every replica
the same. Clocks are unbounded here: in the code they are exact below `INT_MAX` and for at most
`100` replicas. -/
theorem rwTree_children_converge (hg : Reachable (rwTree iter) orderlyChildren g)
    (hd : Delivered g) (r : Fin N) : ∃ ht, g.state r = some ht ∧
      (∃ n, ∀ m ≥ n, ∃ lines, treeMembers (.of iter r) ht m = some lines) ∧
      ∀ n lines, treeMembers (.of iter r) ht n = some lines → ∀ l ∈ lines,
        l.children.Perm ((lines.filter fun l' => l'.parent = l.uid).map TreeLine.uid) ∧
        ∀ r' ht' n' lines', g.state r' = some ht' →
          treeMembers (.of iter r') ht' n' = some lines' →
            ∃ l' ∈ lines', l'.uid = l.uid ∧ l'.children.Perm l.children := by
  have w := Reachable.wellFormed hg
  obtain ⟨hlog, hok⟩ := kidsOk_of_reachable hg
  have hA : ∀ r, ∀ e ∈ g.applied r, e ∈ g.log := fun r e => w.applied_mem
  obtain ⟨ht, hs, h⟩ := hok r
  refine ⟨ht, hs, ?_, fun n lines hl l hline => ?_⟩
  · have hroot : sdsnew rootId = rootId := by decide
    obtain ⟨n, o, ho⟩ := exists_subTree (hroot ▸ h.acc_rootId hlog (hA r))
    exact ⟨n, fun m hm => ⟨_, by rw [treeMembers, subTree_mono ho hm, Option.map_some]⟩⟩
  obtain ⟨ys, hnodup, rfl, hys⟩ := exists_map_lineOf hl
  obtain ⟨y, hy, rfl⟩ := List.mem_map.mp hline
  refine ⟨h.children_perm hlog (hA r) hnodup hys hy, fun r' ht' n' lines' hs' hl' => ?_⟩
  obtain ⟨_, hs₁, h'⟩ := hok r'
  obtain rfl := Option.some.inj (hs'.symm.trans hs₁)
  replace h' := h'.of_same fun e => ⟨fun he => hd r e (hA r' e he), fun he => hd r' e (hA r e he)⟩
  obtain ⟨ys', -, rfl, hys'⟩ := exists_map_lineOf hl'
  obtain ⟨hv, hex⟩ := (hys y).mp hy
  have hv' := h.visits_congr (.of iter r') h' hv
  have hex' := (h'.listed_iff hlog (hA r) hv').mpr ((h.listed_iff hlog (hA r) hv).mp hex)
  refine ⟨_, List.mem_map_of_mem ((hys' y).mpr ⟨hv', hex'⟩), rfl, List.Perm.map _ ?_⟩
  refine ((Iteration.perm _ _).trans ?_).trans (Iteration.perm _ _).symm
  refine (List.perm_ext_iff_of_nodup (SetObj.nodup _) (SetObj.nodup _)).mpr fun z => ?_
  rw [SetObj.mem_elems, SetObj.mem_elems, h'.children, h.children]

end

/-- The reply has a line for the node `x` with the children `cs`. -/
def ListsChildren (lines : List TreeLine) (x : Sds) (cs : List Sds) : Prop :=
  ∃ l ∈ lines, l.uid = x ∧ l.children = cs

instance (lines : List TreeLine) (x : Sds) (cs : List Sds) : Decidable (ListsChildren lines x cs) :=
  inferInstanceAs (Decidable (∃ l ∈ lines, _ ∧ _))

/-- A child of a node is deleted, and another replica has the same single child left. -/
theorem rwTree_children_converge_delete :
    ∃ g, Reachable (rwTree (inOrder 2)) orderlyChildren g ∧ Delivered g ∧
      ∃ ht ht' n lines l, g.state 0 = some ht ∧ g.state 1 = some ht' ∧
        treeMembers (.of (inOrder 2) 0) ht n = some lines ∧ l ∈ lines ∧
        l.uid = [112] ∧ l.children = [[121]] ∧
        ∀ n' lines', treeMembers (.of (inOrder 2) 1) ht' n' = some lines' →
          ∃ l' ∈ lines', l'.uid = [112] ∧ l'.children.Perm [[121]] := by
  obtain ⟨g, hg, hids, ht, hs, lines, hl, l, hline, huid, hch⟩ :=
    (rwTree (inOrder 2)).exists_reachable
      (fun g a g' => causal g a g' ∧ keyedOnce g a g' ∧ notNull g a g')
      (fun g => (∀ r, ∀ i < g.log.length, i ∈ g.appliedIds r) ∧ ∃ ht ∈ g.state 0,
        ∃ lines ∈ treeMembers (.of (inOrder 2) 0) ht 3,
          ∃ l ∈ lines, l.uid = [112] ∧ l.children = [[121]])
      [.client 0 ⟨0, .create⟩, .client 0 ⟨1, .insert [118] rootId [112]⟩,
        .client 0 ⟨2, .insert [118] [112] [120]⟩, .client 0 ⟨2, .insert [118] [112] [121]⟩,
        .deliver 1 0, .deliver 1 1, .deliver 1 2, .deliver 1 3, .client 1 ⟨3, .delete [120]⟩,
        .deliver 0 4] (by decide)
  have hord := orderlyChildren_of_causal (fun h => h) hg
  have hd : Delivered g := (Reachable.wellFormed hg).delivered_of_ids hids
  obtain ⟨_, hs₀, -, hlists⟩ := rwTree_children_converge hord hd 0
  obtain rfl := Option.some.inj (hs.symm.trans hs₀)
  obtain ⟨ht', hs₁, -⟩ := rwTree_children_converge hord hd 1
  refine ⟨g, hord, hd, ht, ht', 3, lines, l, hs, hs₁, hl, hline, huid, hch, ?_⟩
  intro n' lines' hl'
  obtain ⟨-, hsame⟩ := hlists 3 lines hl l hline
  rw [huid, hch] at hsame
  exact hsame 1 ht' n' lines' hs₁ hl'

/-- **A delete overtakes an insert, and a node called `null`.** First, replica `0` inserts a node
and replica `1`, which has it, deletes it. Replica `2` hears of the delete before the insert, and
lists the node among the children of its parent ever after. Second, there is a node called `null`,
so the root is listed with that parent, and is not among its children. -/
theorem rwTree_children_diverge :
    (∃ g, Reachable (rwTree (inOrder 3))
        (fun g a g' => fifo g a g' ∧ keyedOnce g a g') g ∧ Delivered g ∧
      ∃ ht ht' lines lines', g.state 0 = some ht ∧ g.state 2 = some ht' ∧
        treeMembers (.of (inOrder 3) 0) ht 3 = some lines ∧
        treeMembers (.of (inOrder 3) 2) ht' 3 = some lines' ∧
        ListsChildren lines [112] [] ∧ ListsChildren lines' [112] [[120]] ∧
        ∀ l ∈ lines', l.uid ≠ [120]) ∧
    ∃ g, Reachable (rwTree (inOrder 1))
        (fun g a g' => fifo g a g' ∧ keyedOnce g a g') g ∧ Delivered g ∧
      ∃ ht lines, g.state 0 = some ht ∧
        treeMembers (.of (inOrder 1) 0) ht 2 = some lines ∧
        ListsChildren lines nullId [] ∧
        ∃ l ∈ lines, l.uid = rootId ∧ l.parent = nullId := by
  constructor
  · obtain ⟨g, hg, hids, ⟨ht, hs, lines, hl, h⟩, ht', hs', lines', hl', h'⟩ :=
      (rwTree (inOrder 3)).exists_reachable
        (fun g a g' => fifo g a g' ∧ keyedOnce g a g')
        (fun g => (∀ r, ∀ i < g.log.length, i ∈ g.appliedIds r) ∧
          (∃ ht ∈ g.state 0, ∃ lines ∈ treeMembers (.of (inOrder 3) 0) ht 3,
            ListsChildren lines [112] []) ∧
          ∃ ht ∈ g.state 2, ∃ lines ∈ treeMembers (.of (inOrder 3) 2) ht 3,
            ListsChildren lines [112] [[120]] ∧ ∀ l ∈ lines, l.uid ≠ [120])
        [.client 0 ⟨0, .create⟩, .client 0 ⟨1, .insert [118] rootId [112]⟩, .deliver 2 0,
          .deliver 2 1, .client 0 ⟨2, .insert [118] [112] [120]⟩, .deliver 1 0, .deliver 1 1,
          .deliver 1 2, .client 1 ⟨3, .delete [120]⟩, .deliver 2 3, .deliver 2 2, .deliver 0 3]
        (by decide)
    exact ⟨g, hg, (Reachable.wellFormed hg).delivered_of_ids hids, ht, ht', lines, lines', hs, hs',
      hl, hl', h, h'⟩
  · obtain ⟨g, hg, hids, ht, hs, lines, hl, h⟩ :=
      (rwTree (inOrder 1)).exists_reachable
        (fun g a g' => fifo g a g' ∧ keyedOnce g a g')
        (fun g => (∀ r, ∀ i < g.log.length, i ∈ g.appliedIds r) ∧ ∃ ht ∈ g.state 0,
          ∃ lines ∈ treeMembers (.of (inOrder 1) 0) ht 2,
          ListsChildren lines nullId [] ∧
          ∃ l ∈ lines, l.uid = rootId ∧ l.parent = nullId)
        [.client 0 ⟨0, .create⟩, .client 0 ⟨1, .insert [118] rootId nullId⟩] (by decide)
    exact ⟨g, hg, (Reachable.wellFormed hg).delivered_of_ids hids, ht, lines, hs, hl, h⟩

end RemoveWin
