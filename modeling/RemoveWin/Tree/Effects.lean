import RemoveWin.Tree.Model

/-!
# What the tree effects do

Everything the tree commands read goes through `TreeHT.node`, so this file says what each effect
does to that function. Two kinds of statements are needed. What an effect does to headers is the
same whatever its clocks are (`treeEffect_frame`). What it does to the rest is stated for *calm*
messages: those whose clocks know no remove that the node does not, so that `tRemFunc` does
nothing. A delete is never calm at a replica that has not seen it, and its effect is
`node_tRemFunc`.

## Main results

* `RemoveWin.node_tRemFunc`, `exists_tRemFunc` — a remove, and when it does not crash
* `RemoveWin.treeEffect_frame` — headers, ids and clocks, for any message
* `RemoveWin.insertEffect_of_calm`, `changeValueEffect_of_calm`, `moveEffect_of_calm`
-/

namespace RemoveWin

variable {srv : Server} {ht ht' : TreeHT} {k j : Sds} {t : VC}

namespace TreeHT

@[simp] theorem node_empty (srv : Server) (k : Sds) : empty.node srv k = rtnNew srv := rfl

theorem node_modify (f : Rtn → Rtn) :
    (ht.modify srv k f).node srv j = if j = k then f (ht.node srv k) else ht.node srv j := by
  by_cases h : j = k
  · subst h
    simp [node, modify]
  · simp [node, modify, h]

@[simp] theorem node_modify_self (f : Rtn → Rtn) :
    (ht.modify srv k f).node srv k = f (ht.node srv k) := by
  rw [node_modify, if_pos rfl]

theorem node_modify_of_ne (f : Rtn → Rtn) (h : j ≠ k) :
    (ht.modify srv k f).node srv j = ht.node srv j := by
  rw [node_modify, if_neg h]

/-- Creating a node is not visible through `node`. -/
@[simp] theorem node_create : (ht.create srv k).node srv = ht.node srv := by
  funext j
  rw [create, node_modify]
  split
  · next h => rw [h]
  · rfl

theorem node_of_find (srv : Server) {id : Sds} {tn : Rtn} (h : ht.find id = some tn) :
    ht.node srv (sdsnew id) = tn := by
  rw [find] at h
  rw [node, h, Option.getD_some]

theorem node_of_find_eq_none (srv : Server) {id : Sds} (h : ht.find id = none) :
    ht.node srv (sdsnew id) = rtnNew srv := by
  rw [find] at h
  rw [node, h, Option.getD_none]

end TreeHT

@[simp] theorem not_exists_rtnNew (srv : Server) : ¬ (rtnNew srv).header.Exists := by
  simp [rtnNew, rehInit, Reh.Exists]

/-! ### Removing -/

/-- The children that are left when `setTypeRemoveNull` returns. -/
def removeUid (o : SetObj) (uid : Option Sds) : SetObj := uid.elim o (setTypeRemove o)

theorem mem_removeUid {o : SetObj} {uid : Option Sds} {c : Sds} :
    c ∈ removeUid o uid ↔ c ∈ o ∧ uid ≠ some c := by
  cases uid with
  | none => simp [removeUid]
  | some u => simp [removeUid, and_comm, eq_comm]

theorem unlink_eq_some_iff {p s : Sds} : unlink srv p s ht = some ht' ↔
    ((ht.node srv s).uid = none → (ht.node srv p).children.elems = []) ∧
      ht' = ht.modify srv p fun tn => { tn with
        children := removeUid (ht.node srv p).children (ht.node srv s).uid } := by
  rw [unlink]
  cases (ht.node srv s).uid with
  | none => simp [setTypeRemoveNull, removeUid, eq_comm (a := ht')]
  | some u => simp [setTypeRemoveNull, removeUid, eq_comm (a := ht')]

theorem link_eq_some_iff {d s : Sds} : link srv d s ht = some ht' ↔
    ∃ u, (ht.node srv s).uid = some u ∧
      ht' = (ht.modify srv d fun tn => { tn with
        children := setTypeAdd (ht.node srv d).children u }).modify srv s fun tn =>
          { tn with parent := some d } := by
  rw [link]
  cases (ht.node srv s).uid with
  | none => simp [setTypeAddNull]
  | some u => simp [setTypeAddNull, eq_comm (a := ht')]

theorem node_unlink {p s : Sds} (h : unlink srv p s ht = some ht') (j : Sds) :
    ht'.node srv j =
      { ht.node srv j with
        children := if j = p then removeUid (ht.node srv j).children (ht.node srv s).uid
          else (ht.node srv j).children } := by
  obtain ⟨-, rfl⟩ := unlink_eq_some_iff.mp h
  rw [TreeHT.node_modify]
  split
  · next hj => rw [hj]
  · rfl

theorem tRemFunc_of_calm (h : ¬ removeCheck (ht.node srv k).header t) :
    tRemFunc srv ht k t = some ht := by
  rw [tRemFunc, if_neg h]

/-- **A remove.** The node loses its owner and its parent, and its parent's children lose it. -/
theorem node_tRemFunc (hr : removeCheck (ht.node srv k).header t)
    (h : tRemFunc srv ht k t = some ht') (j : Sds) :
    ht'.node srv j =
      { ht.node srv j with
        header := if j = k then rehRmvFunc (ht.node srv j).header t else (ht.node srv j).header
        parent := if j = k then some noneId else (ht.node srv j).parent
        children := if j = sdsnewNull (ht.node srv k).parent then
          removeUid (ht.node srv j).children (ht.node srv k).uid
          else (ht.node srv j).children } := by
  rw [tRemFunc, if_pos hr] at h
  obtain ⟨ht₁, h₁, rfl⟩ := Option.map_eq_some_iff.mp h
  obtain ⟨-, rfl⟩ := unlink_eq_some_iff.mp h₁
  simp only [TreeHT.node_modify, TreeHT.node_create]
  by_cases hjk : j = k <;> by_cases hjp : j = sdsnewNull (ht.node srv k).parent <;>
    by_cases hpk : sdsnewNull (ht.node srv k).parent = k <;> simp_all

/-- When a remove does not crash: the node has an id, or its parent has no children. -/
theorem exists_tRemFunc (h : (ht.node srv k).uid = none →
      (ht.node srv (sdsnewNull (ht.node srv k).parent)).children.elems = []) :
    ∃ ht', tRemFunc srv ht k t = some ht' := by
  rw [tRemFunc]
  split
  · have hnode : ∀ (f : Rtn → Rtn) (j : Sds), (f (ht.node srv k)).children =
        (ht.node srv k).children → ((ht.create srv (sdsnewNull (ht.node srv k).parent)).modify srv k
          f |>.node srv j).children = (ht.node srv j).children := by
      intro f j hf
      rw [TreeHT.node_modify, TreeHT.node_create]
      split
      · next hj => rw [hf, hj]
      · rfl
    refine ⟨_, Option.map_eq_some_iff.mpr ⟨_, unlink_eq_some_iff.mpr ⟨?_, rfl⟩, rfl⟩⟩
    intro hu
    rw [TreeHT.node_modify_self, TreeHT.node_create] at hu
    rw [hnode _ _ rfl]
    exact h hu
  · exact ⟨ht, rfl⟩

theorem header_tRemFunc (h : tRemFunc srv ht k t = some ht') (j : Sds) :
    (ht'.node srv j).header =
      if j = k then (ht.node srv j).header.rmv t else (ht.node srv j).header := by
  by_cases hr : removeCheck (ht.node srv k).header t
  · rw [node_tRemFunc hr h]
    dsimp only
    split
    · next hjk => rw [hjk, Reh.rmv, if_pos hr]
    · rfl
  · rw [tRemFunc_of_calm hr] at h
    cases h
    split
    · next hjk => rw [hjk, Reh.rmv, if_neg hr]
    · rfl

theorem frame_tRemFunc (h : tRemFunc srv ht k t = some ht') (j : Sds) :
    (ht'.node srv j).uid = (ht.node srv j).uid ∧ (ht'.node srv j).name = (ht.node srv j).name ∧
      (ht'.node srv j).vectorClock = (ht.node srv j).vectorClock ∧
      (ht'.node srv j).moveVC = (ht.node srv j).moveVC := by
  by_cases hr : removeCheck (ht.node srv k).header t
  · rw [node_tRemFunc hr h]
    exact ⟨rfl, rfl, rfl, rfl⟩
  · rw [tRemFunc_of_calm hr] at h
    cases h
    exact ⟨rfl, rfl, rfl, rfl⟩

theorem gone_tRemFunc (hr : removeCheck (ht.node srv k).header t)
    (h : tRemFunc srv ht k t = some ht') :
    ¬ (ht'.node srv k).header.Exists ∧ (ht'.node srv k).parent = some noneId := by
  rw [node_tRemFunc hr h]
  dsimp only
  rw [if_pos rfl, if_pos rfl]
  exact ⟨not_le.mpr (show (-1 : ℤ) < 0 by decide), rfl⟩

theorem tRemFunc_of_ne (h : tRemFunc srv ht k t = some ht') {j : Sds} (hj : j ≠ k) :
    (ht'.node srv j).header = (ht.node srv j).header ∧
      (ht'.node srv j).parent = (ht.node srv j).parent := by
  refine ⟨by rw [header_tRemFunc h, if_neg hj], ?_⟩
  by_cases hr : removeCheck (ht.node srv k).header t
  · rw [node_tRemFunc hr h]
    exact if_neg hj
  · rw [tRemFunc_of_calm hr] at h
    rw [Option.some.inj h]

theorem mem_children_tRemFunc (hr : removeCheck (ht.node srv k).header t)
    (h : tRemFunc srv ht k t = some ht') (q c : Sds) :
    c ∈ (ht'.node srv q).children ↔ c ∈ (ht.node srv q).children ∧
      ¬ (q = sdsnewNull (ht.node srv k).parent ∧ (ht.node srv k).uid = some c) := by
  rw [node_tRemFunc hr h]
  dsimp only
  split
  · next hq => rw [mem_removeUid, and_iff_right hq]
  · next hq => rw [and_iff_left fun hqc => hq hqc.1]

theorem node_unlinkFound {p s : Sds} (h : unlinkFound srv p s ht = some ht') (j : Sds) :
    ht'.node srv j =
      { ht.node srv j with
        children := if j = p then removeUid (ht.node srv j).children (ht.node srv s).uid
          else (ht.node srv j).children } := by
  rw [unlinkFound] at h
  split at h
  · exact node_unlink h j
  · next hn =>
    cases h
    split
    · next hj =>
      have hfresh : ht.node srv j = rtnNew srv := by
        rw [hj, TreeHT.node, Option.not_isSome_iff_eq_none.mp hn, Option.getD_none]
      have hrem : removeUid (rtnNew srv).children (ht.node srv s).uid = (rtnNew srv).children := by
        cases (ht.node srv s).uid <;> simp [removeUid, rtnNew, setTypeRemove, SetObj.empty]
      rw [hfresh, hrem]
    · rfl

theorem exists_unlinkFound (p : Sds) {s u : Sds} (hu : (ht.node srv s).uid = some u) :
    ∃ ht', unlinkFound srv p s ht = some ht' := by
  rw [unlinkFound]
  split
  · exact ⟨_, unlink_eq_some_iff.mpr ⟨fun hn => absurd hn (by simp [hu]), rfl⟩⟩
  · exact ⟨ht, rfl⟩

theorem node_createIf {create : Bool} {p : Sds} :
    (if create then ht.create srv p else ht).node srv = ht.node srv := by
  cases create <;> simp

/-- **Hanging a node elsewhere.** Its old parent's children lose it and the new parent's get it,
which may be the same node. -/
theorem node_reparent {create : Bool} {dst s : Sds} (h : reparent srv create dst s ht = some ht') :
    ∃ u, (ht.node srv s).uid = some u ∧ ∀ j, ht'.node srv j =
      { ht.node srv j with
        parent := if j = s then some (sdsnew dst) else (ht.node srv j).parent
        children :=
          let c := if j = sdsnewNull (ht.node srv s).parent then
            setTypeRemove (ht.node srv j).children u else (ht.node srv j).children
          if j = sdsnew dst then setTypeAdd c u else c } := by
  obtain ⟨ht₁, h₁, h₂⟩ := Option.bind_eq_some_iff.mp h
  obtain ⟨u, hu, rfl⟩ := link_eq_some_iff.mp h₂
  have hun := node_unlinkFound h₁
  rw [node_createIf] at hun
  have huid : (ht.node srv s).uid = some u := by rw [← hu, hun]
  refine ⟨u, huid, fun j => ?_⟩
  generalize sdsnewNull (ht.node srv s).parent = p at hun ⊢
  rw [huid] at hun
  simp only [TreeHT.node_modify, hun, removeUid, Option.elim_some]
  generalize sdsnew dst = d
  rcases eq_or_ne j d with rfl | hjd <;> rcases eq_or_ne j s with rfl | hjs
  · simp
  · simp [hjs]
  · simp [hjd]
  · simp [hjs, hjd]

theorem exists_reparent (create : Bool) (dst : Sds) {s u : Sds}
    (hu : (ht.node srv s).uid = some u) : ∃ ht', reparent srv create dst s ht = some ht' := by
  have hu' : ((if create then ht.create srv (sdsnewNull (ht.node srv s).parent) else ht).node srv
      s).uid = some u := by rwa [node_createIf]
  obtain ⟨ht₁, h₁⟩ := exists_unlinkFound (sdsnewNull (ht.node srv s).parent) hu'
  refine ⟨_, Option.bind_eq_some_iff.mpr ⟨ht₁, h₁, link_eq_some_iff.mpr ⟨u, ?_, rfl⟩⟩⟩
  rw [node_unlinkFound h₁, node_createIf, hu]

/-! ### The steps of the effects -/

theorem node_insertWrite {name parent uid : Sds} (j : Sds) :
    (insertWrite srv name parent uid ht).node srv j =
      { ht.node srv j with
        uid := if j = sdsnew uid then some uid else (ht.node srv j).uid
        parent := if j = sdsnew uid then some parent else (ht.node srv j).parent
        name := if j = sdsnew uid ∧ checkInitVC (ht.node srv j).vectorClock then some name
          else (ht.node srv j).name
        children := if j = sdsnew parent then setTypeAdd (ht.node srv j).children uid
          else (ht.node srv j).children } := by
  simp only [insertWrite, TreeHT.node_modify, TreeHT.node_create]
  generalize sdsnew uid = k
  generalize sdsnew parent = p
  rcases eq_or_ne j p with rfl | hjp <;> rcases eq_or_ne j k with rfl | hjk
  · simp
  · simp [hjk]
  · simp [hjp]
  · simp [hjp, hjk]

theorem node_insertOwn {r : VC} (j : Sds) :
    (insertOwn srv k r ht).node srv j =
      { ht.node srv j with
        header := if j = k then (ht.node srv j).header.ins r else (ht.node srv j).header } := by
  rw [insertOwn]
  split
  · next hi =>
    rw [TreeHT.node_modify]
    split
    · next hj => subst hj; rw [Reh.ins, if_pos hi]
    · rfl
  · next hi =>
    split
    · next hj => subst hj; rw [Reh.ins, if_neg hi]
    · rfl

/-- Whether a write takes place. -/
def WritesName (n : Rtn) (vcChangeval r : VC) : Prop :=
  updateCheck n.header r ∧
    (currentCompare n.vectorClock vcChangeval < 0 ∨ causallyReady n.vectorClock vcChangeval)

instance (n : Rtn) (v r : VC) : Decidable (WritesName n v r) :=
  inferInstanceAs (Decidable (_ ∧ (_ ∨ _)))

theorem node_changeName {name : Sds} {v r : VC} (j : Sds) :
    (changeName srv k name v r ht).node srv j =
      { ht.node srv j with
        name := if j = k ∧ WritesName (ht.node srv j) v r then some name
          else (ht.node srv j).name } := by
  rcases eq_or_ne j k with rfl | hjk
  · simp only [changeName, WritesName, true_and]
    by_cases hu : updateCheck (ht.node srv j).header r
    · by_cases hc : currentCompare (ht.node srv j).vectorClock v < 0
      · simp [hu, hc]
      · by_cases hr : causallyReady (ht.node srv j).vectorClock v <;> simp [hu, hc, hr]
    · simp [hu]
  · simp only [changeName, hjk, false_and, if_false]
    split_ifs <;> simp [TreeHT.node_modify, hjk]

/-! ### What any message does to headers, ids and clocks -/

namespace TreeMsg

/-- What a message does to the header of the node with key `j`. -/
def onHeader (srv : Server) (j : Sds) (h : Reh) : TreeMsg → Reh
  | .create => if j = rootId then { h with pid := srv.p2pId } else h
  | .insert _ parent uid rp r =>
    let h := if j = sdsnew parent then h.rmv rp else h
    if j = sdsnew uid then (h.rmv r).ins r else h
  | .delete uid r => if j = sdsnew uid then h.rmv r else h
  | .changeValue uid _ _ r => if j = sdsnew uid then h.rmv r else h
  | .move dst src _ rDst rSrc =>
    let h := if j = sdsnew dst then h.rmv rDst else h
    if j = sdsnew src then h.rmv rSrc else h

/-- What a message does to the id of a node. -/
def onUid (j : Sds) (u : Option Sds) : TreeMsg → Option Sds
  | .create => if j = rootId then some rootId else u
  | .insert _ _ uid _ _ => if j = sdsnew uid then some uid else u
  | _ => u

/-- What a message does to the clock of a node's value. -/
def onVectorClock (j : Sds) (c : VC) : TreeMsg → VC
  | .changeValue uid _ vcChangeval _ => if j = sdsnew uid then updateVC c vcChangeval else c
  | _ => c

/-- What a message does to the clock of a node's moves. -/
def onMoveVC (j : Sds) (c : VC) : TreeMsg → VC
  | .move _ src moveVC _ _ => if j = sdsnew src then updateVC c moveVC else c
  | _ => c

/-- The fields of a node that depend on a message alone. -/
structure Frame (srv : Server) (m : TreeMsg) (j : Sds) (n n' : Rtn) : Prop where
  header : n'.header = m.onHeader srv j n.header
  uid : n'.uid = m.onUid j n.uid
  vectorClock : n'.vectorClock = m.onVectorClock j n.vectorClock
  moveVC : n'.moveVC = m.onMoveVC j n.moveVC

end TreeMsg

theorem node_createEffect_of_ne {j : Sds} (hj : j ≠ rootId) :
    (createEffect srv ht).node srv j = ht.node srv j := TreeHT.node_modify_of_ne _ hj

theorem node_createEffect_rootId : (createEffect srv ht).node srv rootId =
    { ht.node srv rootId with
      header := { (ht.node srv rootId).header with pid := srv.p2pId }
      uid := some rootId
      name := some treeRoot
      parent := some nullId } := TreeHT.node_modify_self _

theorem children_createEffect (j : Sds) :
    ((createEffect srv ht).node srv j).children = (ht.node srv j).children := by
  by_cases hj : j = rootId
  · rw [hj, node_createEffect_rootId]
  · rw [node_createEffect_of_ne hj]

theorem frame_createEffect (j : Sds) :
    TreeMsg.create.Frame srv j (ht.node srv j) ((createEffect srv ht).node srv j) := by
  rw [createEffect, TreeHT.node_modify]
  split
  · next hj => subst hj; constructor <;> simp [TreeMsg.onHeader, TreeMsg.onUid,
      TreeMsg.onVectorClock, TreeMsg.onMoveVC]
  · next hj => constructor <;> simp [TreeMsg.onHeader, TreeMsg.onUid, TreeMsg.onVectorClock,
      TreeMsg.onMoveVC, hj]

theorem frame_insertEffect {name parent uid : Sds} {rp r : VC}
    (h : insertEffect srv name parent uid rp r ht = some ht') (j : Sds) :
    (TreeMsg.insert name parent uid rp r).Frame srv j (ht.node srv j) (ht'.node srv j) := by
  obtain ⟨ht₁, h₁, h⟩ := Option.bind_eq_some_iff.mp h
  obtain ⟨ht₂, h₂, h⟩ := Option.bind_eq_some_iff.mp h
  cases h
  obtain ⟨hu₁, -, hv₁, hm₁⟩ := frame_tRemFunc h₁ j
  obtain ⟨hu₂, -, hv₂, hm₂⟩ := frame_tRemFunc h₂ j
  have hh : (ht₂.node srv j).header = if j = sdsnew uid then (ht₁.node srv j).header.rmv r
      else (ht₁.node srv j).header := header_tRemFunc h₂ j
  rw [header_tRemFunc h₁, node_insertWrite] at hh
  rw [node_insertWrite] at hu₁ hv₁ hm₁
  constructor
  · rw [node_insertOwn]
    simp only [TreeMsg.onHeader, hh]
    split <;> rfl
  · rw [node_insertOwn, hu₂, hu₁]
    rfl
  · rw [node_insertOwn, hv₂, hv₁]
    rfl
  · rw [node_insertOwn, hm₂, hm₁]
    rfl

theorem frame_deleteEffect {uid : Sds} {r : VC} (h : deleteEffect srv uid r ht = some ht')
    (j : Sds) : (TreeMsg.delete uid r).Frame srv j (ht.node srv j) (ht'.node srv j) := by
  obtain ⟨hu, -, hv, hm⟩ := frame_tRemFunc h j
  have hh := header_tRemFunc h j
  rw [TreeHT.node_create] at hu hv hm hh
  exact ⟨hh, hu, hv, hm⟩

theorem frame_changeValueEffect {uid name : Sds} {v r : VC}
    (h : changeValueEffect srv uid name v r ht = some ht') (j : Sds) :
    (TreeMsg.changeValue uid name v r).Frame srv j (ht.node srv j) (ht'.node srv j) := by
  obtain ⟨ht₁, h₁, h⟩ := Option.bind_eq_some_iff.mp h
  cases h
  obtain ⟨hu, -, hv, hm⟩ := frame_tRemFunc h₁ j
  have hh := header_tRemFunc h₁ j
  rw [TreeHT.node_create] at hu hv hm hh
  rw [TreeHT.node_modify]
  split
  · next hj =>
    subst hj
    rw [node_changeName]
    refine ⟨hh, hu, ?_, hm⟩
    simp only [TreeMsg.onVectorClock, if_true, hv]
  · next hj =>
    rw [node_changeName]
    refine ⟨hh, hu, ?_, hm⟩
    simp only [TreeMsg.onVectorClock, if_neg hj, hv]

theorem frame_moveLink {dst s : Sds} {v r : VC} (h : moveLink srv dst s v r ht = some ht')
    (j : Sds) : (ht'.node srv j).header = (ht.node srv j).header ∧
      (ht'.node srv j).uid = (ht.node srv j).uid ∧
      (ht'.node srv j).vectorClock = (ht.node srv j).vectorClock ∧
      (ht'.node srv j).moveVC = (ht.node srv j).moveVC := by
  have hre : ∀ {create : Bool}, reparent srv create dst s ht = some ht' →
      (ht'.node srv j).header = (ht.node srv j).header ∧
      (ht'.node srv j).uid = (ht.node srv j).uid ∧
      (ht'.node srv j).vectorClock = (ht.node srv j).vectorClock ∧
      (ht'.node srv j).moveVC = (ht.node srv j).moveVC := by
    intro create h
    obtain ⟨u, -, hnode⟩ := node_reparent h
    rw [hnode]
    exact ⟨rfl, rfl, rfl, rfl⟩
  simp only [moveLink] at h
  split_ifs at h
  · exact hre h
  · cases h
    exact ⟨rfl, rfl, rfl, rfl⟩
  · exact hre h
  · cases h
    exact ⟨rfl, rfl, rfl, rfl⟩
  · cases h
    exact ⟨rfl, rfl, rfl, rfl⟩

theorem frame_moveEffect {dst src : Sds} {v rDst rSrc : VC}
    (h : moveEffect srv dst src v rDst rSrc ht = some ht') (j : Sds) :
    (TreeMsg.move dst src v rDst rSrc).Frame srv j (ht.node srv j) (ht'.node srv j) := by
  obtain ⟨ht₁, h₁, h⟩ := Option.bind_eq_some_iff.mp h
  obtain ⟨ht₂, h₂, h⟩ := Option.bind_eq_some_iff.mp h
  obtain ⟨ht₃, h₃, h⟩ := Option.bind_eq_some_iff.mp h
  cases h
  obtain ⟨hu₁, -, hv₁, hm₁⟩ := frame_tRemFunc h₁ j
  obtain ⟨hu₂, -, hv₂, hm₂⟩ := frame_tRemFunc h₂ j
  obtain ⟨hh₃, hu₃, hv₃, hm₃⟩ := frame_moveLink h₃ j
  rw [header_tRemFunc h₂, header_tRemFunc h₁] at hh₃
  simp only [TreeHT.node_create] at hu₁ hv₁ hm₁ hh₃
  have hu := hu₃.trans (hu₂.trans hu₁)
  have hv := hv₃.trans (hv₂.trans hv₁)
  have hm := hm₃.trans (hm₂.trans hm₁)
  rw [TreeHT.node_modify]
  split
  · next hj =>
    subst hj
    exact ⟨hh₃, hu, hv, by simp only [TreeMsg.onMoveVC, if_true, hm]⟩
  · next hj => exact ⟨hh₃, hu, hv, by simp only [TreeMsg.onMoveVC, if_neg hj, hm]⟩

/-- **Headers, ids and clocks**, for any message. -/
theorem treeEffect_frame {m : TreeMsg} (h : treeEffect srv ht m = some ht') (j : Sds) :
    m.Frame srv j (ht.node srv j) (ht'.node srv j) := by
  cases m with
  | create =>
    cases h
    exact frame_createEffect j
  | insert => exact frame_insertEffect h j
  | delete => exact frame_deleteEffect h j
  | changeValue => exact frame_changeValueEffect h j
  | move => exact frame_moveEffect h j

/-! ### Calm messages -/

theorem mem_ite_setTypeAdd {o : SetObj} {x y : Sds} {b : Prop} [Decidable b] :
    y ∈ (if b then setTypeAdd o x else o) ↔ y ∈ o ∨ (b ∧ y = x) := by
  split
  · next hb => rw [mem_setTypeAdd, and_iff_right hb, or_comm]
  · next hb => rw [or_iff_left fun h => hb h.1]

theorem insertEffect_of_calm {name parent uid : Sds} {rp r : VC}
    (hp : ¬ removeCheck (ht.node srv (sdsnew parent)).header rp)
    (hk : ¬ removeCheck (ht.node srv (sdsnew uid)).header r) :
    ∃ ht', insertEffect srv name parent uid rp r ht = some ht' ∧ ∀ j, ht'.node srv j =
      { ht.node srv j with
        header := if j = sdsnew uid then (ht.node srv j).header.ins r else (ht.node srv j).header
        uid := if j = sdsnew uid then some uid else (ht.node srv j).uid
        parent := if j = sdsnew uid then some parent else (ht.node srv j).parent
        name := if j = sdsnew uid ∧ checkInitVC (ht.node srv j).vectorClock then some name
          else (ht.node srv j).name
        children := if j = sdsnew parent then setTypeAdd (ht.node srv j).children uid
          else (ht.node srv j).children } := by
  refine ⟨insertOwn srv (sdsnew uid) r (insertWrite srv name parent uid ht), ?_, fun j => ?_⟩
  · have hp' : ¬ removeCheck ((insertWrite srv name parent uid ht).node srv (sdsnew parent)).header
        rp := by rwa [node_insertWrite]
    have hk' : ¬ removeCheck ((insertWrite srv name parent uid ht).node srv (sdsnew uid)).header
        r := by rwa [node_insertWrite]
    rw [insertEffect, tRemFunc_of_calm hp', Option.bind_eq_bind, Option.bind_some,
      tRemFunc_of_calm hk']
    rfl
  · rw [node_insertOwn, node_insertWrite]

theorem changeValueEffect_of_calm {uid name : Sds} {v r : VC}
    (hk : ¬ removeCheck (ht.node srv (sdsnew uid)).header r) :
    ∃ ht', changeValueEffect srv uid name v r ht = some ht' ∧ ∀ j, ht'.node srv j =
      { ht.node srv j with
        vectorClock := if j = sdsnew uid then updateVC (ht.node srv j).vectorClock v
          else (ht.node srv j).vectorClock
        name := if j = sdsnew uid ∧ WritesName (ht.node srv j) v r then some name
          else (ht.node srv j).name } := by
  have hk' : ¬ removeCheck ((ht.create srv (sdsnew uid)).node srv (sdsnew uid)).header r := by
    rwa [TreeHT.node_create]
  refine ⟨_, by rw [changeValueEffect, tRemFunc_of_calm hk']; rfl, fun j => ?_⟩
  rw [TreeHT.node_modify]
  simp only [node_changeName, TreeHT.node_create]
  split
  · next hj => subst hj; simp
  · next hj => simp [hj]

/-- Whether a move takes place. -/
def Moves (n : Rtn) (dst : Sds) (v r : VC) : Prop :=
  updateCheck n.header r ∧
    if checkCurrency n.moveVC v then dst < sdsnewNull n.parent else causallyReady n.moveVC v

instance (n : Rtn) (dst : Sds) (v r : VC) : Decidable (Moves n dst v r) :=
  inferInstanceAs (Decidable (_ ∧ ite _ _ _))

theorem moveLink_cases (srv : Server) (ht : TreeHT) (dst s : Sds) (v r : VC) :
    (Moves (ht.node srv s) dst v r ∧
      ∃ create, moveLink srv dst s v r ht = reparent srv create dst s ht) ∨
    (¬ Moves (ht.node srv s) dst v r ∧ moveLink srv dst s v r ht = some ht) := by
  have hcmp := sdscmp_pos_iff (sdsnewNull (ht.node srv s).parent) dst
  simp only [moveLink, Moves]
  by_cases hu : updateCheck (ht.node srv s).header r
  · rw [if_pos hu]
    by_cases hc : checkCurrency (ht.node srv s).moveVC v
    · rw [if_pos hc, if_pos hc]
      by_cases hs : dst < sdsnewNull (ht.node srv s).parent
      · rw [if_pos (hcmp.mpr hs)]
        exact .inl ⟨⟨hu, hs⟩, false, rfl⟩
      · rw [if_neg (fun h => hs (hcmp.mp h))]
        exact .inr ⟨fun h => hs h.2, rfl⟩
    · rw [if_neg hc, if_neg hc]
      by_cases hr : causallyReady (ht.node srv s).moveVC v
      · rw [if_pos hr]
        exact .inl ⟨⟨hu, hr⟩, true, rfl⟩
      · rw [if_neg hr]
        exact .inr ⟨fun h => hr h.2, rfl⟩
  · rw [if_neg hu]
    exact .inr ⟨fun h => hu h.1, rfl⟩

theorem moveEffect_of_calm {dst src u : Sds} {v rDst rSrc : VC}
    (hd : ¬ removeCheck (ht.node srv (sdsnew dst)).header rDst)
    (hs : ¬ removeCheck (ht.node srv (sdsnew src)).header rSrc)
    (hu : (ht.node srv (sdsnew src)).uid = some u) :
    ∃ ht', moveEffect srv dst src v rDst rSrc ht = some ht' ∧ ∀ j, ht'.node srv j =
      { ht.node srv j with
        moveVC := if j = sdsnew src then updateVC (ht.node srv j).moveVC v
          else (ht.node srv j).moveVC
        parent := if j = sdsnew src ∧ Moves (ht.node srv j) dst v rSrc then some (sdsnew dst)
          else (ht.node srv j).parent
        children :=
          if Moves (ht.node srv (sdsnew src)) dst v rSrc then
            let c := if j = sdsnewNull (ht.node srv (sdsnew src)).parent then
              setTypeRemove (ht.node srv j).children u else (ht.node srv j).children
            if j = sdsnew dst then setTypeAdd c u else c
          else (ht.node srv j).children } := by
  set ht₀ := (ht.create srv (sdsnew dst)).create srv (sdsnew src) with hht₀
  have hnode : ht₀.node srv = ht.node srv := by rw [hht₀, TreeHT.node_create, TreeHT.node_create]
  have hd' : ¬ removeCheck (ht₀.node srv (sdsnew dst)).header rDst := by rwa [hnode]
  have hs' : ¬ removeCheck (ht₀.node srv (sdsnew src)).header rSrc := by rwa [hnode]
  have heq : moveEffect srv dst src v rDst rSrc ht =
      (moveLink srv dst (sdsnew src) v rSrc ht₀).map fun ht => ht.modify srv (sdsnew src) fun tn =>
        { tn with moveVC := updateVC tn.moveVC v } := by
    rw [moveEffect, ← hht₀, tRemFunc_of_calm hd', Option.bind_eq_bind, Option.bind_some,
      tRemFunc_of_calm hs', Option.bind_some]
    exact Option.map_eq_bind.symm
  rw [heq]
  have hcases := moveLink_cases srv ht₀ dst (sdsnew src) v rSrc
  rw [hnode] at hcases
  rcases hcases with ⟨hm, create, hlink⟩ | ⟨hm, hlink⟩
  · have hu₀ : (ht₀.node srv (sdsnew src)).uid = some u := by rwa [hnode]
    obtain ⟨ht₁, h₁⟩ := exists_reparent create dst hu₀
    obtain ⟨u', hu', hnode₁⟩ := node_reparent h₁
    rw [hnode] at hu' hnode₁
    obtain rfl : u = u' := Option.some.inj (hu.symm.trans hu')
    refine ⟨_, by rw [hlink, h₁, Option.map_some], fun j => ?_⟩
    rw [TreeHT.node_modify, hnode₁, hnode₁]
    split
    · next hj => subst hj; simp [hm]
    · next hj => simp [hj]
  · refine ⟨_, by rw [hlink, Option.map_some], fun j => ?_⟩
    rw [TreeHT.node_modify, hnode]
    split
    · next hj => subst hj; simp [hm]
    · next hj => simp [hj]

end RemoveWin
