import RemoveWin.Tree.Clocks
import RemoveWin.Tree.Walks

/-!
# The tree under inserts and deletes, in any order

The benchmark gives every node an id of its own, inserts it once and may delete it, at several
replicas at the same time. Its messages may arrive in any order: a delete before the insert it
undoes, a child before its parent, either of them before the tree itself. This file shows what
`RWFTREEMEMBERS` lists at any moment of such a run: the nodes whose insert has been applied and
whose deletes have not, and whose ancestors are all of that kind.

One node must not have children. The parent of a removed node is set to `none`, so a second delete
of a node that has not been inserted here looks for it among the children of the node of that name.
If there are any, a `NULL` id is searched in the set and the server dies; an empty set is not
searched, so a node called `none` does no harm by itself.
Values, on the other hand, may be anything, but only the part before the first NUL byte is listed.
-/

namespace RemoveWin

open Replicated Walk

/-! ### What events say -/

section

variable {N : ℕ}

/-- The node `x` has been inserted with value `v` under `p`. -/
def InsertedAs (A : List (TreeEvent N)) (x v p : Sds) : Prop :=
  ∃ e ∈ A, e.msg.insertOf = some (x, v, p)

/-- The node `x` has been inserted. -/
def Inserted (A : List (TreeEvent N)) (x : Sds) : Prop := ∃ v p, InsertedAs A x v p

/-- The node `x` has been deleted. -/
def Deleted (A : List (TreeEvent N)) (x : Sds) : Prop :=
  ∃ e ∈ A, e.msg.deleteOf = some x

/-- The tree has been created. -/
def Created (A : List (TreeEvent N)) : Prop := ∃ e ∈ A, e.msg.isCreate

/-- The node `x` and all its ancestors below the root have been inserted and not deleted. -/
inductive Grown (A : List (TreeEvent N)) : Sds → Prop
  | root {x v : Sds} (hx : InsertedAs A x v rootId) (hd : ¬ Deleted A x) : Grown A x
  | child {x v p : Sds} (hx : InsertedAs A x v p) (hd : ¬ Deleted A x) (hp : Grown A p) :
      Grown A x

variable {A B : List (TreeEvent N)} {e : TreeEvent N} {x v p : Sds}

theorem insertedAs_concat :
    InsertedAs (A ++ [e]) x v p ↔ InsertedAs A x v p ∨ e.msg.insertOf = some (x, v, p) := by
  simp [InsertedAs, or_and_right, exists_or]

theorem deleted_concat : Deleted (A ++ [e]) x ↔ Deleted A x ∨ e.msg.deleteOf = some x := by
  simp [Deleted, or_and_right, exists_or]

theorem created_concat : Created (A ++ [e]) ↔ Created A ∨ e.msg.isCreate = true := by
  simp [Created, or_and_right, exists_or]

theorem Inserted.mono (hAB : ∀ e ∈ A, e ∈ B) (h : Inserted A x) : Inserted B x := by
  obtain ⟨v, p, e, he, hm⟩ := h
  exact ⟨v, p, e, hAB e he, hm⟩

theorem insertedAs_congr (hAB : ∀ e, e ∈ A ↔ e ∈ B) :
    InsertedAs A x v p ↔ InsertedAs B x v p := by simp only [InsertedAs, hAB]

theorem deleted_congr (hAB : ∀ e, e ∈ A ↔ e ∈ B) : Deleted A x ↔ Deleted B x := by
  simp only [Deleted, hAB]

theorem Grown.congr (hAB : ∀ e, e ∈ A ↔ e ∈ B) (h : Grown A x) : Grown B x := by
  induction h with
  | root hx hd => exact .root ((insertedAs_congr hAB).mp hx) (hd ∘ (deleted_congr hAB).mpr)
  | child hx hd _ ih =>
    exact .child ((insertedAs_congr hAB).mp hx) (hd ∘ (deleted_congr hAB).mpr) ih

/-! ### The discipline -/

/-- The ids inserted by a list of events. -/
def insertedIds (A : List (TreeEvent N)) : List Sds :=
  A.filterMap fun e => e.msg.insertOf.map Prod.fst

/-- A command of the benchmark's structural part: ids have no NUL bytes, new ones are not empty,
and the root is not deleted. -/
def TreeCmd.Plain : TreeCmd → Prop
  | .create => True
  | .insert _ parent uid => NulFree parent ∧ NulFree uid ∧ uid ≠ []
  | .delete uid => NulFree uid ∧ uid ≠ rootId
  | .changeValue _ _ | .move _ _ => False

instance : (cmd : TreeCmd) → Decidable cmd.Plain
  | .create => inferInstanceAs (Decidable True)
  | .insert _ parent uid => inferInstanceAs (Decidable (NulFree parent ∧ NulFree uid ∧ uid ≠ []))
  | .delete uid => inferInstanceAs (Decidable (NulFree uid ∧ uid ≠ rootId))
  | .changeValue _ _ | .move _ _ => inferInstanceAs (Decidable False)

/-- Creates, inserts and deletes, where the tree is created once and no id is inserted twice in
the whole run. -/
def onceEach : TreeCond N
  | _, .client _ c, g' => c.cmd.Plain ∧ (insertedIds g'.log).Nodup ∧
      (g'.log.filter fun e => e.msg.isCreate).length ≤ 1
  | _, .deliver _ _, _ => True

/-- Nothing is inserted under the id that stands for the parent of removed nodes. -/
def TreeCmd.NotNone : TreeCmd → Prop
  | .insert _ parent _ => parent ≠ noneId
  | _ => True

instance : (cmd : TreeCmd) → Decidable cmd.NotNone
  | .insert _ parent _ => inferInstanceAs (Decidable (parent ≠ noneId))
  | .create | .delete _ | .changeValue _ _ | .move _ _ => inferInstanceAs (Decidable True)

/-- Clients give no children to the node that removed nodes name as their parent. -/
def notNone : TreeCond N
  | _, .client _ c, _ => c.cmd.NotNone
  | _, .deliver _ _, _ => True

instance (g : TreeNet N) (a : Act (Fin N) TreeCall)
    (g' : TreeNet N) : Decidable (onceEach g a g') :=
  match a with
  | .client _ c => inferInstanceAs (Decidable (c.cmd.Plain ∧ (insertedIds g'.log).Nodup ∧
      (g'.log.filter fun e => e.msg.isCreate).length ≤ 1))
  | .deliver _ _ => inferInstanceAs (Decidable True)

instance (g : TreeNet N) (a : Act (Fin N) TreeCall)
    (g' : TreeNet N) : Decidable (notNone g a g') :=
  match a with
  | .client _ c => inferInstanceAs (Decidable c.cmd.NotNone)
  | .deliver _ _ => inferInstanceAs (Decidable True)

/-- What is true of a message of the discipline when it is broadcast, given what its origin had
applied. Inserts carry zero clocks, since nothing they name had been deleted. -/
inductive PlainMsg (deps : List (TreeEvent N)) : TreeMsg → Prop
  | create : PlainMsg deps .create
  | insert {name parent uid : Sds} {rp r : VC} (huid : NulFree uid) (hnil : uid ≠ [])
      (hnone : parent ≠ noneId) (hroot : uid ≠ rootId) (hparent : NulFree parent)
      (hin : parent = rootId ∨ Inserted deps parent) (hrp : rp.entry = 0) (hr : r.entry = 0) :
      PlainMsg deps (.insert name parent uid rp r)
  | delete {uid : Sds} {r : VC} (huid : NulFree uid) (hroot : uid ≠ rootId)
      (hin : Inserted deps uid) (hr : 0 < r.entry) : PlainMsg deps (.delete uid r)

theorem PlainMsg.of_insertOf {m : TreeMsg} (h : PlainMsg A m) (hm : m.insertOf = some (x, v, p)) :
    NulFree x ∧ x ≠ [] ∧ p ≠ noneId ∧ x ≠ rootId ∧ NulFree p ∧ (p = rootId ∨ Inserted A p) := by
  cases h with
  | insert huid hnil hnone hroot hparent hin =>
    obtain ⟨rfl, rfl, rfl⟩ := by simpa [TreeMsg.insertOf] using hm
    exact ⟨huid, hnil, hnone, hroot, hparent, hin⟩
  | create => cases hm
  | delete => cases hm

theorem PlainMsg.of_deleteOf {m : TreeMsg} (h : PlainMsg A m) (hm : m.deleteOf = some x) :
    x ≠ rootId ∧ Inserted A x := by
  cases h with
  | delete _ hroot hin =>
    obtain rfl := by simpa [TreeMsg.deleteOf] using hm
    exact ⟨hroot, hin⟩
  | create => cases hm
  | insert => cases hm

/-! ### A log of such messages -/

/-- The log of a run under the discipline. -/
structure PlainLog (log : List (TreeEvent N)) : Prop where
  msg : ∀ e ∈ log, PlainMsg e.deps e.msg
  /-- No id is inserted twice. -/
  once : (insertedIds log).Nodup
  id_lt : ∀ e ∈ log, e.id < log.length
  deps_mem : ∀ e ∈ log, ∀ d ∈ e.deps, d ∈ log ∧ d.id < e.id

namespace PlainLog

variable {log : List (TreeEvent N)}

theorem unique (h : PlainLog log) {e e' : TreeEvent N} {v' p' : Sds} (he : e ∈ log)
    (he' : e' ∈ log) (hm : e.msg.insertOf = some (x, v, p))
    (hm' : e'.msg.insertOf = some (x, v', p')) : e = e' := by
  have honce := h.once
  rw [insertedIds, List.filterMap_eq_flatMap_toList] at honce
  exact eq_of_nodup_items honce he he' (x := x) (by simp [hm]) (by simp [hm'])

theorem insertedAs_unique (h : PlainLog log) (hA : ∀ e ∈ A, e ∈ log) (hB : ∀ e ∈ B, e ∈ log)
    {v' p' : Sds} (hx : InsertedAs A x v p) (hx' : InsertedAs B x v' p') : v = v' ∧ p = p' := by
  obtain ⟨e, he, hm⟩ := hx
  obtain ⟨e', he', hm'⟩ := hx'
  obtain rfl := h.unique (hA e he) (hB e' he') hm hm'
  simpa using hm.symm.trans hm'

theorem of_insertedAs (h : PlainLog log) (hA : ∀ e ∈ A, e ∈ log) (hx : InsertedAs A x v p) :
    NulFree x ∧ x ≠ [] ∧ p ≠ noneId ∧ x ≠ rootId ∧ NulFree p ∧ (p = rootId ∨ Inserted log p) := by
  obtain ⟨e, he, hm⟩ := hx
  obtain ⟨h1, h2, h3, h4, h5, h6⟩ := (h.msg e (hA e he)).of_insertOf hm
  exact ⟨h1, h2, h3, h4, h5, h6.imp_right (Inserted.mono fun d hd =>
    (h.deps_mem e (hA e he) d hd).1)⟩

theorem not_deleted_rootId (h : PlainLog log) (hA : ∀ e ∈ A, e ∈ log) : ¬ Deleted A rootId := by
  rintro ⟨e, he, hm⟩
  exact ((h.msg e (hA e he)).of_deleteOf hm).1 rfl

theorem parent_ne (h : PlainLog log) (hA : ∀ e ∈ A, e ∈ log) (hx : InsertedAs A x v p) :
    p ≠ [] ∧ p ≠ noneId := by
  obtain ⟨-, -, hnone, -, -, hp⟩ := h.of_insertedAs hA hx
  refine ⟨?_, hnone⟩
  rcases hp with rfl | ⟨w, q, hp⟩
  · decide
  · exact (h.of_insertedAs (fun _ => id) hp).2.1

end PlainLog

/-! ### The state of a replica -/

/-- **The state of a replica**, from the events it has applied. Nothing is said about the
children sets of parents that are not there: dead children stay behind in them, and live children
wait in them for their parent. -/
structure TreeOk (srv : Server) (A : List (TreeEvent N)) (F : Forest) : Prop where
  shape : ∀ k, RtnShape srv (F k)
  unwritten : ∀ k, checkInitVC (F k).vectorClock
  live : ∀ k, ¬ Deleted A k → (F k).header.current.entry = 0
  dead : ∀ k, Deleted A k → ¬ (F k).header.Exists ∧ 0 < (F k).header.current.entry
  blank : ∀ k, k ≠ rootId → ¬ Inserted A k → (F k).uid = none ∧ ¬ (F k).header.Exists ∧
    ((F k).parent = none ∨ (F k).parent = some noneId) ∧ (F k).name = none
  written : ∀ x v p, InsertedAs A x v p → (F x).uid = some x ∧ (F x).name = some v
  /-- If it has not been deleted, it is there and hangs under its parent. -/
  linked : ∀ x v p, InsertedAs A x v p → ¬ Deleted A x →
    (F x).header.Exists ∧ (F x).parent = some p ∧ x ∈ (F p).children
  children : ∀ k c, c ∈ (F k).children → ∃ v, InsertedAs A c v k
  /-- The root is there once the tree is. -/
  root : Created A → (F rootId).header.Exists
  rootParent : Created A → (F rootId).parent = some nullId
  rootName : (Created A → (F rootId).name = some treeRoot) ∧
    (¬ Created A → (F rootId).name = none)

variable {srv : Server} {log : List (TreeEvent N)} {ht : TreeHT}

theorem treeOk_rtnNew (srv : Server) : TreeOk srv ([] : List (TreeEvent N))
    fun _ => rtnNew srv where
  shape _ := rtnShape_rtnNew srv
  unwritten _ := by simp [checkInitVC, rtnNew]
  live _ _ := entry_lNewVC srv
  dead _ h := by simp [Deleted] at h
  blank _ _ _ := ⟨rfl, not_exists_rtnNew srv, .inl rfl, rfl⟩
  written _ _ _ h := by simp [InsertedAs] at h
  linked _ _ _ h := by simp [InsertedAs] at h
  children _ c h := absurd h (SetObj.notMem_empty c)
  root h := by simp [Created] at h
  rootParent h := by simp [Created] at h
  rootName := ⟨fun h => by simp [Created] at h, fun _ => rfl⟩

namespace TreeOk

theorem inserted_of_exists {F : Forest} (h : TreeOk srv A F) {k : Sds} (hk : k ≠ rootId)
    (hex : (F k).header.Exists) : Inserted A k := by
  by_contra hin
  exact (h.blank k hk hin).2.1 hex

theorem not_deleted_of_exists {F : Forest} (h : TreeOk srv A F) {k : Sds}
    (hex : (F k).header.Exists) : ¬ Deleted A k := fun hd => (h.dead k hd).1 hex

theorem calm {F : Forest} (h : TreeOk srv A F) {t : VC} (hs : t.size = srv.p2pCount)
    (ht : t.entry = 0) (k : Sds) : ¬ removeCheck (F k).header t := by
  rw [removeCheck_iff (hs.trans (h.shape k).current.size.symm), not_not, ht]
  by_cases hd : Deleted A k
  · exact (h.dead k hd).2.le
  · exact (h.live k hd).ge

theorem create (h : TreeOk srv A (ht.node srv)) (hpid : 0 ≤ srv.p2pId) (hlog : PlainLog log)
    (hA : ∀ d ∈ A, d ∈ log) (hm : e.msg = .create) :
    TreeOk srv (A ++ [e]) ((createEffect srv ht).node srv) := by
  have hdel : ∀ k, Deleted (A ++ [e]) k ↔ Deleted A k := by
    intro k
    simp [deleted_concat, hm, TreeMsg.deleteOf]
  have hins : ∀ x v p, InsertedAs (A ++ [e]) x v p ↔ InsertedAs A x v p := by
    intro x v p
    simp [insertedAs_concat, hm, TreeMsg.insertOf]
  have hinserted : ∀ k, Inserted (A ++ [e]) k ↔ Inserted A k := by
    intro k
    simp only [Inserted, hins]
  have hcur : ∀ k, ((createEffect srv ht).node srv k).header.current =
      (ht.node srv k).header.current := by
    intro k
    by_cases hk : k = rootId
    · rw [hk, node_createEffect_rootId]
    · rw [node_createEffect_of_ne hk]
  constructor
  · intro k
    exact (frame_createEffect k).shape (h.shape k)
  · intro k
    rw [(frame_createEffect k).vectorClock]
    exact h.unwritten k
  · intro k hd
    rw [hcur]
    exact h.live k (hd ∘ (hdel k).mpr)
  · intro k hd
    rw [hdel] at hd
    have hk : k ≠ rootId := fun hk => hlog.not_deleted_rootId hA (hk ▸ hd)
    rw [node_createEffect_of_ne hk]
    exact h.dead k hd
  · intro k hk hin
    rw [node_createEffect_of_ne hk]
    exact h.blank k hk (hin ∘ (hinserted k).mpr)
  · intro x v p hx
    rw [hins] at hx
    rw [node_createEffect_of_ne (hlog.of_insertedAs hA hx).2.2.2.1]
    exact h.written x v p hx
  · intro x v p hx hd
    rw [hins] at hx
    rw [node_createEffect_of_ne (hlog.of_insertedAs hA hx).2.2.2.1, children_createEffect]
    exact h.linked x v p hx (hd ∘ (hdel x).mpr)
  · intro k c hc
    rw [children_createEffect] at hc
    obtain ⟨v, hv⟩ := h.children k c hc
    exact ⟨v, (hins _ _ _).mpr hv⟩
  · intro _
    rw [node_createEffect_rootId]
    exact hpid
  · intro _
    rw [node_createEffect_rootId]
  · rw [node_createEffect_rootId]
    exact ⟨fun _ => rfl, fun hc => absurd (created_concat.mpr (.inr (by rw [hm]; rfl))) hc⟩

theorem exists_ins {F : Forest} (h : TreeOk srv A F) {r : VC} (hs : r.size = srv.p2pCount)
    (hr : r.entry = 0) (hid : 0 ≤ r.id) {x : Sds} (hex : ¬ (F x).header.Exists) :
    ((F x).header.ins r).Exists ↔ ¬ Deleted A x := by
  have hcheck : insertCheck (F x).header r = true ↔ ¬ Deleted A x := by
    rw [insertCheck_iff (hs.trans (h.shape x).current.size.symm), hr]
    have hlt : (F x).header.pid < r.id := lt_of_lt_of_le (not_le.mp hex) hid
    constructor
    · rintro ⟨hcur, -⟩ hd
      exact (h.dead x hd).2.ne hcur
    · exact fun hd => ⟨(h.live x hd).symm, hlt⟩
  rw [← hcheck, Reh.ins]
  split
  · next hi => exact ⟨fun _ => hi, fun _ => hid⟩
  · next hi => exact ⟨fun he => absurd he hex, fun he => absurd he hi⟩

theorem insert (h : TreeOk srv A (ht.node srv)) (hlog : PlainLog log) (he : e ∈ log) {rp r : VC}
    (hm : e.msg = .insert v p x rp r) (hsp : rp.size = srv.p2pCount)
    (hs : r.size = srv.p2pCount) (hid : 0 ≤ r.id) (hnew : ¬ Inserted A x) :
    ∃ ht', treeEffect srv ht e.msg = some ht' ∧ TreeOk srv (A ++ [e]) (ht'.node srv) := by
  have hmsg := hlog.msg e he
  rw [hm] at hmsg
  obtain _ | ⟨huid, -, -, hroot, hparent, -, hrp, hr⟩ | _ := hmsg
  have hkx : sdsnew x = x := sdsnew_of_nulFree huid
  have hkp : sdsnew p = p := sdsnew_of_nulFree hparent
  obtain ⟨ht', heff, hnode⟩ : ∃ ht', insertEffect srv v p x rp r ht = some ht' ∧ _ :=
    insertEffect_of_calm (h.calm hsp hrp (sdsnew p)) (h.calm hs hr (sdsnew x))
  rw [hkx, hkp] at hnode
  have hdel : ∀ k, Deleted (A ++ [e]) k ↔ Deleted A k := by
    intro k
    simp [deleted_concat, hm, TreeMsg.deleteOf]
  have hins : ∀ x' v' p', InsertedAs (A ++ [e]) x' v' p' ↔
      InsertedAs A x' v' p' ∨ (x = x' ∧ v = v' ∧ p = p') := by
    intro x' v' p'
    simp [insertedAs_concat, hm, TreeMsg.insertOf]
  have hold : ∀ {y v' p'}, InsertedAs A y v' p' → y ≠ x := by
    rintro y v' p' hy rfl
    exact hnew ⟨v', p', hy⟩
  have hblank := h.blank x hroot hnew
  refine ⟨ht', by rw [hm]; exact heff, ?_⟩
  constructor
  · intro k
    exact (frame_insertEffect heff k).shape (h.shape k)
  · intro k
    rw [hnode]
    exact h.unwritten k
  · intro k hd
    rw [hnode]
    have hlive := h.live k (hd ∘ (hdel k).mpr)
    dsimp only
    split
    · rw [Reh.current_ins]
      exact hlive
    · exact hlive
  · intro k hd
    rw [hdel] at hd
    rw [hnode]
    obtain ⟨hdex, hpos⟩ := h.dead k hd
    dsimp only
    split
    · next hk =>
      subst hk
      rw [Reh.current_ins]
      refine ⟨?_, hpos⟩
      rw [h.exists_ins hs hr hid hdex, not_not]
      exact hd
    · exact ⟨hdex, hpos⟩
  · intro k hk hin
    have hkx' : k ≠ x := by
      rintro rfl
      exact hin ⟨v, p, (hins _ _ _).mpr (.inr ⟨rfl, rfl, rfl⟩)⟩
    rw [hnode]
    simp only [hkx', if_false]
    refine h.blank k hk ?_
    rintro ⟨v', p', hi⟩
    exact hin ⟨v', p', (hins _ _ _).mpr (.inl hi)⟩
  · intro x' v' p' hx'
    rw [hnode]
    rcases (hins _ _ _).mp hx' with hx' | ⟨rfl, rfl, rfl⟩
    · simp only [hold hx', if_false, false_and]
      exact h.written x' v' p' hx'
    · simp [h.unwritten x]
  · intro x' v' p' hx' hd
    rw [hdel] at hd
    rw [hnode, hnode]
    rcases (hins _ _ _).mp hx' with hx' | ⟨rfl, rfl, rfl⟩
    · simp only [hold hx', if_false]
      obtain ⟨hex, hpar, hch⟩ := h.linked x' v' p' hx' hd
      exact ⟨hex, hpar, mem_ite_setTypeAdd.mpr (.inl hch)⟩
    · dsimp only
      rw [if_pos rfl, if_pos rfl, if_pos rfl]
      exact ⟨(h.exists_ins hs hr hid hblank.2.1).mpr hd, rfl, mem_setTypeAdd.mpr (.inl rfl)⟩
  · intro k c hc
    rw [hnode, mem_ite_setTypeAdd] at hc
    rcases hc with hc | ⟨rfl, rfl⟩
    · obtain ⟨v', hv'⟩ := h.children k c hc
      exact ⟨v', (hins _ _ _).mpr (.inl hv')⟩
    · exact ⟨v, (hins _ _ _).mpr (.inr ⟨rfl, rfl, rfl⟩)⟩
  · intro hc
    rw [hnode]
    simp only [hroot.symm, if_false]
    exact h.root (by simpa [created_concat, hm, TreeMsg.isCreate] using hc)
  · intro hc
    rw [hnode]
    simp only [hroot.symm, if_false]
    exact h.rootParent (by simpa [created_concat, hm, TreeMsg.isCreate] using hc)
  · rw [hnode]
    simp only [hroot.symm, if_false, false_and]
    simpa [created_concat, hm, TreeMsg.isCreate] using h.rootName

/-- The parent of a node without an id has no children, so removing that node does not crash. -/
theorem children_of_uid_none {F : Forest} (h : TreeOk srv A F) (hlog : PlainLog log)
    (hA : ∀ d ∈ A, d ∈ log) (hroot : x ≠ rootId) (hu : (F x).uid = none) :
    (F (sdsnewNull (F x).parent)).children.elems = [] := by
  have hnew : ¬ Inserted A x := by
    rintro ⟨v, p, hx⟩
    rw [(h.written x v p hx).1] at hu
    cases hu
  refine List.eq_nil_iff_forall_not_mem.mpr fun c hc => ?_
  obtain ⟨v, hv⟩ := h.children _ c hc
  obtain ⟨hnil, hnone⟩ := hlog.parent_ne hA hv
  rcases (h.blank x hroot hnew).2.2.1 with hp | hp
  · rw [hp] at hnil
    exact hnil rfl
  · rw [hp] at hnone
    exact hnone (by decide)

theorem deleted_of_calm {F : Forest} (h : TreeOk srv A F) {r : VC} (hs : r.size = srv.p2pCount)
    (hr : 0 < r.entry) (hc : ¬ removeCheck (F x).header r) : Deleted A x := by
  by_contra hd
  rw [removeCheck_iff (hs.trans (h.shape x).current.size.symm), not_not, h.live x hd] at hc
  exact hr.not_ge hc

/-- Nothing depends on anything but what has been inserted, deleted and created. -/
theorem congr {F : Forest} (h : TreeOk srv A F) (hdel : ∀ k, Deleted B k ↔ Deleted A k)
    (hins : ∀ x v p, InsertedAs B x v p ↔ InsertedAs A x v p) (hcre : Created B ↔ Created A) :
    TreeOk srv B F where
  shape := h.shape
  unwritten := h.unwritten
  live k hd := h.live k (hd ∘ (hdel k).mpr)
  dead k hd := h.dead k ((hdel k).mp hd)
  blank k hk hin := by
    refine h.blank k hk ?_
    rintro ⟨v, p, hi⟩
    exact hin ⟨v, p, (hins k v p).mpr hi⟩
  written x v p hx := h.written x v p ((hins x v p).mp hx)
  linked x v p hx hd := h.linked x v p ((hins x v p).mp hx) (hd ∘ (hdel x).mpr)
  children k c hc := (h.children k c hc).imp fun v => (hins c v k).mpr
  root hc := h.root (hcre.mp hc)
  rootParent hc := h.rootParent (hcre.mp hc)
  rootName := by rw [hcre]; exact h.rootName

theorem remove {ht' : TreeHT} (h : TreeOk srv A (ht.node srv)) (hroot : x ≠ rootId) {r : VC}
    (hs : r.size = srv.p2pCount) (hr : 0 < r.entry)
    (hrc : removeCheck (ht.node srv x).header r) (heff : tRemFunc srv ht x r = some ht')
    (hdel : ∀ k, Deleted B k ↔ Deleted A k ∨ x = k)
    (hins : ∀ x v p, InsertedAs B x v p ↔ InsertedAs A x v p) (hcre : Created B ↔ Created A) :
    TreeOk srv B (ht'.node srv) := by
  have hold : ∀ k, ¬ Deleted B k → k ≠ x ∧ ¬ Deleted A k := by
    intro k hd
    rw [hdel, not_or] at hd
    exact ⟨Ne.symm hd.2, hd.1⟩
  -- the only id that leaves a children set is that of the node
  have huid : (ht.node srv x).uid = none ∨ (ht.node srv x).uid = some x := by
    by_cases hin : Inserted A x
    · obtain ⟨v, p, hx⟩ := hin
      exact .inr (h.written x v p hx).1
    · exact .inl (h.blank x hroot hin).1
  have hch : ∀ k c, c ≠ x → c ∈ (ht.node srv k).children → c ∈ (ht'.node srv k).children := by
    intro k c hcx hc
    refine (mem_children_tRemFunc hrc heff k c).mpr ⟨hc, fun hu => ?_⟩
    rcases huid with hnone | hsome
    · exact absurd (hnone.symm.trans hu.2) (by simp)
    · exact hcx (Option.some.inj (hu.2.symm.trans hsome))
  have hne : ∀ k, k ≠ x → (ht'.node srv k).header = (ht.node srv k).header ∧
      (ht'.node srv k).parent = (ht.node srv k).parent := fun k hk => tRemFunc_of_ne heff hk
  have hself : (ht'.node srv x).header = rehRmvFunc (ht.node srv x).header r := by
    rw [header_tRemFunc heff, if_pos rfl, Reh.rmv, if_pos hrc]
  obtain ⟨hgone, hnoparent⟩ := gone_tRemFunc hrc heff
  have hfr := frame_tRemFunc heff
  constructor
  · intro k
    obtain ⟨-, -, hv, hmv⟩ := hfr k
    refine ⟨?_, hv ▸ (h.shape k).vectorClock, hmv ▸ (h.shape k).moveVC⟩
    by_cases hk : k = x
    · subst hk
      rw [hself]
      exact (h.shape k).current.updateVC r
    · rw [(hne k hk).1]
      exact (h.shape k).current
  · intro k
    rw [(hfr k).2.2.1]
    exact h.unwritten k
  · intro k hd
    obtain ⟨hk, hd⟩ := hold k hd
    rw [(hne k hk).1]
    exact h.live k hd
  · intro k hd
    by_cases hk : k = x
    · subst hk
      refine ⟨hgone, ?_⟩
      rw [hself, rehRmvFunc, entry_updateVC ((h.shape k).current.size.trans hs.symm)]
      exact hr.trans_le le_sup_right
    · rw [(hne k hk).1]
      exact h.dead k (((hdel k).mp hd).resolve_right (Ne.symm hk))
  · intro k hkr hin
    rw [(hfr k).1]
    have hin' : ¬ Inserted A k := by
      rintro ⟨v, p, hi⟩
      exact hin ⟨v, p, (hins k v p).mpr hi⟩
    obtain ⟨hu, hex, hp, hn⟩ := h.blank k hkr hin'
    rw [(hfr k).2.1]
    by_cases hk : k = x
    · subst hk
      exact ⟨hu, hgone, .inr hnoparent, hn⟩
    · rw [(hne k hk).1, (hne k hk).2]
      exact ⟨hu, hex, hp, hn⟩
  · intro y v p hy
    rw [(hfr y).1, (hfr y).2.1]
    exact h.written y v p ((hins y v p).mp hy)
  · intro y v p hy hd
    obtain ⟨hk, hd⟩ := hold y hd
    obtain ⟨hex, hp, hc⟩ := h.linked y v p ((hins y v p).mp hy) hd
    rw [(hne y hk).1, (hne y hk).2]
    exact ⟨hex, hp, hch p y hk hc⟩
  · intro k c hc
    have hc := ((mem_children_tRemFunc hrc heff k c).mp hc).1
    exact (h.children k c hc).imp fun v => (hins c v k).mpr
  · intro hc
    rw [(hne rootId hroot.symm).1]
    exact h.root (hcre.mp hc)
  · intro hc
    rw [(hne rootId hroot.symm).2]
    exact h.rootParent (hcre.mp hc)
  · rw [(hfr rootId).2.1, hcre]
    exact h.rootName

theorem delete (h : TreeOk srv A (ht.node srv)) (hlog : PlainLog log) (hA : ∀ d ∈ A, d ∈ log)
    (he : e ∈ log) {r : VC} (hm : e.msg = .delete x r) (hs : r.size = srv.p2pCount) :
    ∃ ht', treeEffect srv ht e.msg = some ht' ∧ TreeOk srv (A ++ [e]) (ht'.node srv) := by
  have hmsg := hlog.msg e he
  rw [hm] at hmsg
  obtain _ | _ | ⟨huid, hroot, -, hr⟩ := hmsg
  have hdel : ∀ k, Deleted (A ++ [e]) k ↔ Deleted A k ∨ x = k := by
    intro k
    simp [deleted_concat, hm, TreeMsg.deleteOf]
  have hins : ∀ x' v' p', InsertedAs (A ++ [e]) x' v' p' ↔ InsertedAs A x' v' p' := by
    intro x' v' p'
    simp [insertedAs_concat, hm, TreeMsg.insertOf]
  have hcre : Created (A ++ [e]) ↔ Created A := by
    simp [created_concat, hm, TreeMsg.isCreate]
  have hcreate : (ht.create srv x).node srv = ht.node srv := TreeHT.node_create
  rw [← hcreate] at h
  obtain ⟨ht', heff⟩ := exists_tRemFunc (t := r) (h.children_of_uid_none hlog hA hroot)
  refine ⟨ht', by rw [hm, ← heff, treeEffect, deleteEffect, sdsnew_of_nulFree huid], ?_⟩
  by_cases hrc : removeCheck ((ht.create srv x).node srv x).header r
  · exact h.remove hroot hs hr hrc heff hdel hins hcre
  · -- the node had been deleted before, and nothing changes
    have hdx : Deleted A x := h.deleted_of_calm hs hr hrc
    rw [tRemFunc_of_calm hrc] at heff
    cases heff
    refine h.congr (fun k => ?_) hins hcre
    rw [hdel]
    exact ⟨fun hk => hk.elim id fun hxk => hxk ▸ hdx, .inl⟩

end TreeOk

end

/-! ### Runs -/

section

variable {N : ℕ}

/-- The discipline of the benchmark, with no inserts under the node that removed nodes have for a
parent. -/
def structural : TreeCond N :=
  fun g a g' => onceEach g a g' ∧ notNone g a g'

instance (g : TreeNet N) (a : Act (Fin N) TreeCall)
    (g' : TreeNet N) : Decidable (structural g a g') :=
  inferInstanceAs (Decidable (_ ∧ _))

variable {iter : Fin N → Iteration} {g : TreeNet N}

theorem nodup_insertedIds_of_reachable (hg : Reachable (rwTree iter) structural g) :
    (insertedIds g.log).Nodup := by
  refine hg.invariant (P := fun g => (insertedIds g.log).Nodup) ?_ ?_
  · exact List.nodup_nil
  intro g g' a _ ih hc hs
  obtain ⟨r, c, s, rfl, -, rfl⟩ | ⟨r, c, s, m, rfl, -, rfl⟩ | ⟨r, i, e, rfl, -, -, rfl⟩ :=
    OpBased.step_cases _ hs
  · exact ih
  · exact hc.1.2.1
  · exact ih

theorem mem_insertedIds {A : List (TreeEvent N)} {x : Sds} :
    x ∈ insertedIds A ↔ Inserted A x := by
  constructor
  · intro h
    obtain ⟨e, he, hm⟩ := List.mem_filterMap.mp h
    obtain ⟨⟨_, v, p⟩, hins, rfl⟩ := Option.map_eq_some_iff.mp hm
    exact ⟨v, p, e, he, hins⟩
  · rintro ⟨v, p, e, he, hm⟩
    exact List.mem_filterMap.mpr ⟨e, he, by rw [hm]; rfl⟩

theorem PlainLog.of_reachable (hg : Reachable (rwTree iter) structural g)
    (hmsg : ∀ e ∈ g.log, PlainMsg e.deps e.msg) : PlainLog g.log where
  msg := hmsg
  once := nodup_insertedIds_of_reachable hg
  id_lt _ he := (Reachable.wellFormed hg).id_lt he
  deps_mem _ he _ hd := (Reachable.wellFormed hg).deps_mem he hd

theorem TreeOk.plainMsg {srv : Server} {A log : List (TreeEvent N)} {ht : TreeHT}
    {fuel : ℕ} {cmd : TreeCmd} {m : TreeMsg} (h : TreeOk srv A (ht.node srv)) (hlog : PlainLog log)
    (hA : ∀ e ∈ A, e ∈ log) (hcmd : cmd.Plain)
    (hnew : ∀ v p x, cmd = .insert v p x → p ≠ noneId ∧ ¬ Inserted log x)
    (hacc : Accepts srv ht fuel cmd m) (hid : srv.p2pId.toNat < srv.p2pCount) : PlainMsg A m := by
  cases hacc with
  | create => exact .create
  | @insert name parent uid hp hu =>
    obtain ⟨hparent, huid, hnil⟩ := hcmd
    obtain ⟨hnone, hfresh⟩ := hnew _ _ _ rfl
    have hroot := ne_rootId_of_istreeMember hu
    have hmem := exists_of_istreeMember srv hp
    rw [sdsnew_of_nulFree huid] at hroot ⊢
    rw [sdsnew_of_nulFree hparent] at hmem ⊢
    have hlive : ¬ Deleted A parent := by
      rcases hmem with rfl | hex
      · exact hlog.not_deleted_rootId hA
      · exact h.not_deleted_of_exists hex
    -- a deleted node has been inserted before, and this one never was
    have hlive' : ¬ Deleted A uid := by
      rintro ⟨e, he, hm⟩
      refine hfresh (Inserted.mono (fun d hd => (hlog.deps_mem e (hA e he) d hd).1) ?_)
      exact ((hlog.msg e (hA e he)).of_deleteOf hm).2
    refine .insert huid hnil hnone hroot hparent ?_ (h.live _ hlive) (h.live _ hlive')
    rcases eq_or_ne parent rootId with hpr | hpr
    · exact .inl hpr
    · exact .inr (h.inserted_of_exists hpr (hmem.resolve_left hpr))
  | @delete uid hu =>
    obtain ⟨huid, hroot⟩ := hcmd
    have hmem := exists_of_istreeMember srv hu
    rw [sdsnew_of_nulFree huid] at hmem ⊢
    have hex := hmem.resolve_left hroot
    have hkept := (h.shape uid).current
    refine .delete huid hroot (h.inserted_of_exists hroot hex) ?_
    rw [entry_nowVC (by rwa [hkept.id, hkept.size]), h.live _ (h.not_deleted_of_exists hex)]
    refine Pi.lt_def.mpr ⟨?_, srv.p2pId.toNat, ?_⟩
    · simp [hkept.id]
    · simp [hkept.id]
  | changeValue => exact hcmd.elim
  | move => exact hcmd.elim

/-- **Nothing crashes, and the invariant holds** at every moment of a run, whatever the order of
delivery. -/
theorem treeOk_of_reachable (hg : Reachable (rwTree iter) structural g) :
    PlainLog g.log ∧ ∀ r, ∃ ht, g.state r = some ht ∧
      TreeOk (.of iter r) (g.applied r) (ht.node (.of iter r)) := by
  have hinv := tree_apply_invariant (J := fun e => PlainMsg e.deps e.msg)
    (P := fun r A F => TreeOk (.of iter r) A F) ?_ (by simp [OpBased.start]) ?_ ?_ hg
  · exact ⟨.of_reachable hg hinv.1, hinv.2⟩
  · exact fun r => ⟨.empty, rfl, treeOk_rtnNew _⟩
  · intro g g' r fuel cmd m ht hg ihJ _ hok hc hlog _ hacc
    refine hok.plainMsg (.of_reachable hg ihJ) (fun e => (Reachable.wellFormed hg).applied_mem)
      hc.1.1 ?_ hacc (by simp [Server.of])
    rintro v p x rfl
    refine ⟨hc.2, fun hin => ?_⟩
    -- the new event would be the second insert of this id
    cases hacc
    have hnodup := hc.1.2.1
    rw [hlog, insertedIds, List.filterMap_append] at hnodup
    exact (List.nodup_append.mp hnodup).2.2 x (mem_insertedIds.mpr hin) x
      (by simp [Net.event, TreeMsg.insertOf]) rfl
  · intro g g' r e ht ha ihJ hok
    have w := Reachable.wellFormed ha.after
    have hlog : PlainLog g'.log := .of_reachable ha.after ihJ
    have hA : ∀ d ∈ g.applied r, d ∈ g'.log := fun _ => w.mem_log_of_applied ha.applied
    have hkept := treeClock_of_reachable ha.after e ha.mem
    cases hm : e.msg with
    | create =>
      exact ⟨_, rfl, hok.create (by simp [Server.of]) hlog hA hm⟩
    | insert v p x rp t =>
      rw [hm] at hkept
      rw [← hm]
      have hrp := hkept rp (by simp [TreeMsg.clocks])
      have ht := hkept t (by simp [TreeMsg.clocks])
      refine hok.insert hlog ha.mem hm hrp.size ht.size (by rw [ht.id]; simp [Server.of]) ?_
      rintro ⟨v', p', e', he', hm'⟩
      obtain rfl := hlog.unique (hA e' he') ha.mem hm' (by rw [hm]; rfl)
      exact w.notMem_of_applied ha.applied he'
    | delete x t =>
      rw [hm] at hkept
      rw [← hm]
      exact hok.delete hlog hA ha.mem hm (hkept t (by simp [TreeMsg.clocks])).size
    | changeValue => exact absurd (ihJ e ha.mem) (by rw [hm]; rintro ⟨⟩)
    | move => exact absurd (ihJ e ha.mem) (by rw [hm]; rintro ⟨⟩)

/-! ### What is listed -/

section

variable {srv : Server} {A log : List (TreeEvent N)} {F : Forest} {x v p : Sds}

theorem Grown.inserted (h : Grown A x) : Inserted A x := by
  rcases h with ⟨hx, -⟩ | ⟨hx, -, -⟩
  · exact ⟨_, _, hx⟩
  · exact ⟨_, _, hx⟩

theorem Grown.not_deleted (h : Grown A x) : ¬ Deleted A x := by
  rcases h with ⟨-, hd⟩ | ⟨-, hd, -⟩ <;> exact hd

namespace TreeOk

theorem exists_of_grown (h : TreeOk srv A F) (hx : Grown A x) : (F x).header.Exists := by
  obtain ⟨v, p, hins⟩ := hx.inserted
  exact (h.linked x v p hins hx.not_deleted).1

theorem grown_of_visits (h : TreeOk srv A F) (hlog : PlainLog log) (hA : ∀ e ∈ A, e ∈ log)
    {y : Sds} (hv : Visits (alive F) (childIds srv F) y x) (hy : y = rootId ∨ Grown A y) :
    x = rootId ∨ Grown A x := by
  induction hv with
  | here _ => exact hy
  | @step y z x _ hz hvis ih =>
    refine ih (.inr ?_)
    have hky : sdsnew y = y := by
      rcases hy with rfl | hy
      · decide
      · obtain ⟨v, p, hins⟩ := hy.inserted
        exact sdsnew_of_nulFree (hlog.of_insertedAs hA hins).1
    rw [mem_childIds, hky] at hz
    obtain ⟨v, hins⟩ := h.children y z hz
    have hal : alive F z := (visits_iff.mp hvis).1
    rw [alive_iff, sdsnew_of_nulFree (hlog.of_insertedAs hA hins).1] at hal
    rcases hy with rfl | hy
    · exact .root hins (h.not_deleted_of_exists hal)
    · exact .child hins (h.not_deleted_of_exists hal) hy

theorem visits_of_grown (h : TreeOk srv A F) (hlog : PlainLog log) (hA : ∀ e ∈ A, e ∈ log)
    (hroot : (F rootId).header.Exists) (hx : Grown A x) :
    Visits (alive F) (childIds srv F) rootId x := by
  have hal : ∀ {y}, Grown A y → alive F y := by
    intro y hy
    obtain ⟨v, p, hins⟩ := hy.inserted
    rw [alive_iff, sdsnew_of_nulFree (hlog.of_insertedAs hA hins).1]
    exact h.exists_of_grown hy
  have hchild : ∀ {y v q}, InsertedAs A y v q → ¬ Deleted A y → y ∈ childIds srv F q := by
    intro y v q hins hd
    rw [mem_childIds, sdsnew_of_nulFree (hlog.of_insertedAs hA hins).2.2.2.2.1]
    exact (h.linked y v q hins hd).2.2
  induction hx with
  | root hins hd => exact .step (alive_iff.mpr hroot) (hchild hins hd) (.here (hal (.root hins hd)))
  | child hins hd hp ih => exact ih.tail (hchild hins hd) (hal (.child hins hd hp))

/-- Walks from an inserted node end, since a child is inserted later than its parent. -/
theorem acc_of_insertOf (h : TreeOk srv A F) (hlog : PlainLog log) (hA : ∀ e ∈ A, e ∈ log)
    {e : TreeEvent N} (he : e ∈ log) (hm : e.msg.insertOf = some (x, v, p)) :
    Acc (Below (alive F) (childIds srv F)) x := by
  induction hn : log.length - e.id using Nat.strong_induction_on generalizing e x v p with
  | _ n ih =>
    obtain ⟨hx, -, -, hroot, -⟩ := hlog.of_insertedAs (A := log) (fun _ => id) ⟨e, he, hm⟩
    refine Acc.intro x ?_
    rintro z ⟨-, hz⟩
    rw [mem_childIds, sdsnew_of_nulFree hx] at hz
    obtain ⟨w, ez, hez, hmz⟩ := h.children x z hz
    have hezl := hA ez hez
    obtain ⟨-, -, -, -, -, hin⟩ := (hlog.msg ez hezl).of_insertOf hmz
    obtain ⟨v', p', e', he', hm'⟩ := hin.resolve_left hroot
    obtain ⟨hel', hlt⟩ := hlog.deps_mem ez hezl e' he'
    obtain rfl := hlog.unique he hel' hm hm'
    have hez_lt := hlog.id_lt ez hezl
    exact ih (log.length - ez.id) (by omega) hezl hmz rfl

theorem acc_rootId (h : TreeOk srv A F) (hlog : PlainLog log) (hA : ∀ e ∈ A, e ∈ log) :
    Acc (Below (alive F) (childIds srv F)) rootId := by
  refine Acc.intro rootId ?_
  rintro z ⟨-, hz⟩
  rw [mem_childIds] at hz
  obtain ⟨w, ez, hez, hmz⟩ := h.children _ z hz
  exact h.acc_of_insertOf hlog hA (hA ez hez) hmz

/-- **What is listed**, at a replica that has applied the create. -/
theorem lists_iff_grown {ht : TreeHT} (h : TreeOk srv A (ht.node srv)) (hlog : PlainLog log)
    (hA : ∀ e ∈ A, e ∈ log) (hc : Created A) {n : ℕ} {lines : List TreeLine}
    (hlines : treeMembers srv ht n = some lines) (hx : x ≠ rootId) :
    Lists lines x v p ↔ ∃ w, v = sdsnew w ∧ InsertedAs A x w p ∧ Grown A x := by
  rw [lists_iff hlines]
  constructor
  · rintro ⟨y, hvis, -, rfl, rfl, rfl⟩
    have hy : y ≠ rootId := fun hy => hx (by rw [hy]; decide)
    have hgrown := (h.grown_of_visits hlog hA hvis (.inl rfl)).resolve_left hy
    obtain ⟨w, q, hins⟩ := hgrown.inserted
    obtain ⟨hky, -, -, -, hkq, -⟩ := hlog.of_insertedAs hA hins
    rw [sdsnew_of_nulFree hky, (h.written y w q hins).2,
      (h.linked y w q hins hgrown.not_deleted).2.1, sdsnewNull_some, sdsnewNull_some,
      sdsnew_of_nulFree hkq]
    exact ⟨w, rfl, hins, hgrown⟩
  · rintro ⟨w, rfl, hins, hgrown⟩
    obtain ⟨hkx, -, -, -, hkp, -⟩ := hlog.of_insertedAs hA hins
    refine ⟨x, h.visits_of_grown hlog hA (h.root hc) hgrown, ?_⟩
    rw [sdsnew_of_nulFree hkx, (h.written x w p hins).2,
      (h.linked x w p hins hgrown.not_deleted).2.1, sdsnewNull_some, sdsnewNull_some,
      sdsnew_of_nulFree hkp]
    refine ⟨?_, rfl, rfl, rfl⟩
    rcases hgrown with ⟨hins', -⟩ | ⟨hins', -, hp⟩
    · obtain ⟨-, rfl⟩ := hlog.insertedAs_unique hA hA hins hins'
      exact h.root hc
    · obtain ⟨-, rfl⟩ := hlog.insertedAs_unique hA hA hins hins'
      exact h.exists_of_grown hp

end TreeOk

end

/-- **The tree under inserts and deletes.** In every run of the benchmark's discipline that inserts
nothing under `none`, whatever the order of delivery: a replica that has applied the create is up,
`RWFTREEMEMBERS` returns there, and apart from the root it lists exactly the nodes that were
inserted and not deleted, together with all their ancestors, each with the value it was inserted
with, up to the first NUL byte, and the parent it was inserted under. Replicas that have applied the
same messages list the same. Clocks are unbounded here: in the code they are exact below `INT_MAX`
and for at most `100` replicas. -/
theorem rwTree_structure (hg : Reachable (rwTree iter) structural g) :
    (∀ r, Created (g.applied r) → ∃ ht, g.state r = some ht ∧
      (∃ n lines, treeMembers (.of iter r) ht n = some lines) ∧
      ∀ n lines, treeMembers (.of iter r) ht n = some lines → ∀ x v p, x ≠ rootId →
        (Lists lines x v p ↔
          ∃ w, v = sdsnew w ∧ InsertedAs (g.applied r) x w p ∧ Grown (g.applied r) x)) ∧
    ∀ r r', Created (g.applied r) → (∀ i, i ∈ g.appliedIds r ↔ i ∈ g.appliedIds r') →
      ∀ ht ht', g.state r = some ht → g.state r' = some ht' → ∀ n n' lines lines',
        treeMembers (.of iter r) ht n = some lines →
        treeMembers (.of iter r') ht' n' = some lines' →
          ∀ x v p, x ≠ rootId → (Lists lines x v p ↔ Lists lines' x v p) := by
  have w := Reachable.wellFormed hg
  obtain ⟨hlog, hok⟩ := treeOk_of_reachable hg
  have hA : ∀ r, ∀ e ∈ g.applied r, e ∈ g.log := fun r e => w.applied_mem
  refine ⟨fun r hc => ?_, fun r r' hc hids ht ht' hs hs' n n' lines lines' hl hl' x v p hx => ?_⟩
  · obtain ⟨ht, hs, h⟩ := hok r
    refine ⟨ht, hs, ?_, fun n lines hl x v p hx => h.lists_iff_grown hlog (hA r) hc hl hx⟩
    have hroot : sdsnew rootId = rootId := by decide
    obtain ⟨n, o, ho⟩ := exists_subTree (hroot ▸ h.acc_rootId hlog (hA r))
    exact ⟨n, _, by rw [treeMembers, ho, Option.map_some]⟩
  · have happ : ∀ e, e ∈ g.applied r ↔ e ∈ g.applied r' := w.mem_applied_congr hids
    have hc' : Created (g.applied r') := by
      obtain ⟨e, he, hm⟩ := hc
      exact ⟨e, (happ e).mp he, hm⟩
    obtain ⟨_, hs₁, h⟩ := hok r
    obtain ⟨_, hs₁', h'⟩ := hok r'
    obtain rfl := Option.some.inj (hs.symm.trans hs₁)
    obtain rfl := Option.some.inj (hs'.symm.trans hs₁')
    rw [h.lists_iff_grown hlog (hA r) hc hl hx, h'.lists_iff_grown hlog (hA r') hc' hl' hx]
    refine exists_congr fun u => and_congr_right fun _ => and_congr (insertedAs_congr happ) ?_
    exact ⟨fun h => h.congr happ, fun h => h.congr fun e => (happ e).symm⟩

end

/-- A child arrives before its parent and both before the tree, and one of two nodes is deleted
before it is known: the other one is listed, and so is a node called `none`. -/
theorem rwTree_structure_reversed :
    ∃ g, Reachable (rwTree (inOrder 2)) structural g ∧
      (∃ e ∈ g.log, e.msg.deleteOf = some [121]) ∧ ∃ ht, g.state 1 = some ht ∧
        ∃ n lines, treeMembers (.of (inOrder 2) 1) ht n = some lines ∧
          Lists lines [120] [118] rootId ∧ Lists lines noneId [118] rootId ∧
          ∀ v p, ¬ Lists lines [121] v p := by
  obtain ⟨g, hg, hc, hins, hdel⟩ :=
    (rwTree (inOrder 2)).exists_reachable structural
      (fun g => (∃ e ∈ g.applied 1, e.msg.isCreate) ∧
        (g.applied 1).filterMap (fun e => e.msg.insertOf) =
          [(noneId, [118], rootId), ([121], [119], [120]), ([120], [118], rootId)] ∧
        (g.applied 1).filterMap (fun e => e.msg.deleteOf) = [[121]])
      [.client 0 ⟨0, .create⟩, .client 0 ⟨1, .insert [118] rootId [120]⟩,
        .client 0 ⟨2, .insert [119] [120] [121]⟩, .client 0 ⟨2, .delete [121]⟩,
        .client 0 ⟨1, .insert [118] rootId noneId⟩, .deliver 1 4, .deliver 1 3, .deliver 1 2,
        .deliver 1 1, .deliver 1 0] (by decide)
  have hinserted : ∀ {x v p}, InsertedAs (g.applied 1) x v p ↔
      (x, v, p) ∈ [(noneId, [118], rootId), ([121], [119], [120]), ([120], [118], rootId)] :=
    fun {x v p} => by rw [← hins, List.mem_filterMap, InsertedAs]
  have hdeleted : ∀ {x}, Deleted (g.applied 1) x ↔ x ∈ [[121]] :=
    fun {x} => by rw [← hdel, List.mem_filterMap, Deleted]
  obtain ⟨ht, hs, ⟨n, lines, hl⟩, hiff⟩ := (rwTree_structure hg).1 1 hc
  have hlists : ∀ {x}, x ≠ rootId → InsertedAs (g.applied 1) x [118] rootId →
      ¬ Deleted (g.applied 1) x → Lists lines x [118] rootId := fun hroot hx hd =>
    (hiff n lines hl _ _ _ hroot).mpr ⟨[118], by decide, hx, .root hx hd⟩
  refine ⟨g, hg, ?_, ht, hs, n, lines, hl, ?_, ?_, fun v p hlist => ?_⟩
  · obtain ⟨e, he, hm⟩ := hdeleted.mpr (List.mem_singleton_self [121])
    exact ⟨e, (Reachable.wellFormed hg).applied_mem he, hm⟩
  · exact hlists (by decide) (hinserted.mpr (by decide)) (hdeleted.not.mpr (by decide))
  · exact hlists (by decide) (hinserted.mpr (by decide)) (hdeleted.not.mpr (by decide))
  · obtain ⟨-, -, -, hgrown⟩ := (hiff n lines hl _ _ _ (by decide)).mp hlist
    exact hgrown.not_deleted (hdeleted.mpr (by decide))

/-- **Children of `none`, and values with NUL bytes.** First, replica `2` has the tree and a node
called `none` with a child. Two replicas delete another node at the same time, and the second
delete to reach replica `2`, which has not seen that node's insert, finds a parent called `none`
with children and an id that is `NULL`. Second, a value with a NUL byte is listed up to it. -/
theorem rwTree_none_crashes :
    (∃ g, Reachable (rwTree (inOrder 3)) onceEach g ∧
      Created (g.applied 2) ∧ Grown (g.applied 2) noneId ∧ g.state 2 = none) ∧
    ∃ g, Reachable (rwTree (inOrder 3)) onceEach g ∧ Created (g.applied 0) ∧
      InsertedAs (g.applied 0) [120] [118, 0, 119] rootId ∧ Grown (g.applied 0) [120] ∧
      ∃ ht n lines, g.state 0 = some ht ∧
        treeMembers (.of (inOrder 3) 0) ht n = some lines ∧
          ¬ Lists lines [120] [118, 0, 119] rootId := by
  constructor
  · obtain ⟨g, hg, hc, hx, hd, hs⟩ :=
      (rwTree (inOrder 3)).exists_reachable onceEach
        (fun g => (∃ e ∈ g.applied 2, e.msg.isCreate) ∧
          (∃ e ∈ g.applied 2, e.msg.insertOf = some (noneId, [118], rootId)) ∧
          (¬ ∃ e ∈ g.applied 2, e.msg.deleteOf = some noneId) ∧ (g.state 2).isNone)
        [.client 0 ⟨0, .create⟩, .deliver 1 0, .deliver 2 0,
          .client 0 ⟨1, .insert [118] rootId noneId⟩, .client 0 ⟨2, .insert [118] noneId [121]⟩,
          .client 0 ⟨1, .insert [118] rootId [120]⟩, .deliver 1 3, .client 0 ⟨1, .delete [120]⟩,
          .client 1 ⟨1, .delete [120]⟩, .deliver 2 1, .deliver 2 2, .deliver 2 4, .deliver 2 5]
        (by decide)
    exact ⟨g, hg, hc, .root hx hd, Option.isNone_iff_eq_none.mp hs⟩
  · obtain ⟨g, hg, hc, hx, hd, hs⟩ :=
      (rwTree (inOrder 3)).exists_reachable onceEach
        (fun g => (∃ e ∈ g.applied 0, e.msg.isCreate) ∧
          (∃ e ∈ g.applied 0, e.msg.insertOf = some ([120], [118, 0, 119], rootId)) ∧
          (¬ ∃ e ∈ g.applied 0, e.msg.deleteOf = some [120]) ∧
          (g.state 0).any fun ht =>
            (treeMembers (.of (inOrder 3) 0) ht 2).any fun lines =>
              lines.all fun l => l.name ≠ [118, 0, 119])
        [.client 0 ⟨0, .create⟩, .client 0 ⟨1, .insert [118, 0, 119] rootId [120]⟩] (by decide)
    obtain ⟨ht, hht, hs⟩ := (Option.any_eq_true ..).mp hs
    obtain ⟨lines, hlines, hall⟩ := (Option.any_eq_true ..).mp hs
    refine ⟨g, hg, hc, hx, .root hx hd, ht, 2, lines, hht, hlines, ?_⟩
    rintro ⟨l, hl, -, hname, -⟩
    exact of_decide_eq_true (List.all_eq_true.mp hall l hl) hname

end RemoveWin
