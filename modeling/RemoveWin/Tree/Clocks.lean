import RemoveWin.Tree.Effects

/-!
# Tree commands as steps, and the clocks of headers

What is true in every run of the tree, whatever is sent and in whatever order it arrives: a
prepare phase changes no node it can see and sends the clocks it reads; clocks keep their size
and their keeper; and the clock of a node's header is the join of the clocks received for that
node. The last fact is what decides, for a given delivery discipline, which messages are calm.

## Main results

* `RemoveWin.treePrepare_spec` — what an accepted command sends
* `RemoveWin.treeShape_of_reachable` — sizes and keepers of clocks
* `RemoveWin.isLUB_current_of_reachable` — header clocks are joins
* `RemoveWin.TreeApplies.calm` — under causal delivery only deletes remove anything
-/

namespace RemoveWin

open Replicated

/-! ### Prepare phases -/

/-- The message `m` is what command `cmd` sends when it is accepted in state `ht`. -/
inductive Accepts (srv : Server) (ht : TreeHT) (fuel : ℕ) : TreeCmd → TreeMsg → Prop
  | create : Accepts srv ht fuel .create .create
  | insert {name parent uid : Sds} (hp : istreeMember ht fuel parent = some true)
      (hu : istreeMember ht fuel uid = some false) :
      Accepts srv ht fuel (.insert name parent uid)
        (.insert name parent uid (ht.node srv (sdsnew parent)).header.current
          (ht.node srv (sdsnew uid)).header.current)
  | delete {uid : Sds} (hu : istreeMember ht fuel uid = some true) :
      Accepts srv ht fuel (.delete uid)
        (.delete uid (nowVC (ht.node srv (sdsnew uid)).header.current))
  | changeValue {uid name : Sds} (hu : istreeMember ht fuel uid = some true) :
      Accepts srv ht fuel (.changeValue uid name)
        (.changeValue uid name (nowVC (ht.node srv (sdsnew uid)).vectorClock)
          (ht.node srv (sdsnew uid)).header.current)
  | move {dst src : Sds} {srcSt : SetObj} (hd : istreeMember ht fuel dst = some true)
      (hs : istreeMember ht fuel src = some true) (hpres : ht.present)
      (hst : subTree srv ht fuel src = some srcSt) (hno : dst ∉ srcSt) :
      Accepts srv ht fuel (.move dst src)
        (.move dst src (nowVC (ht.node srv (sdsnew src)).moveVC)
          (ht.node srv (sdsnew dst)).header.current (ht.node srv (sdsnew src)).header.current)

/-- What every prepare phase guarantees: it changes no node that can be seen, and a message it
sends is the one that its command calls for. -/
structure TreePrepared (srv : Server) (fuel : ℕ) (cmd : TreeCmd) (ht : TreeHT)
    (p : Prepared TreeHT TreeMsg) : Prop where
  node : p.state.node srv = ht.node srv
  msg : ∀ m ∈ p.msg, Accepts srv ht fuel cmd m

variable {srv : Server} {ht : TreeHT} {fuel : ℕ} {cmd : TreeCmd} {p : Prepared TreeHT TreeMsg}

theorem TreePrepared.refused (replies : List Reply) :
    TreePrepared srv fuel cmd ht ⟨ht, replies, none⟩ := ⟨rfl, by simp⟩

theorem TreePrepared.accepted {ht' : TreeHT} {m : TreeMsg} (hn : ht'.node srv = ht.node srv)
    (hm : Accepts srv ht fuel cmd m) (replies : List Reply) :
    TreePrepared srv fuel cmd ht ⟨ht', replies, some m⟩ := by
  refine ⟨hn, fun m' hm' => ?_⟩
  obtain rfl : m = m' := by simpa using hm'
  exact hm

theorem insertPrepare_spec {name parent uid : Sds}
    (h : insertPrepare srv fuel name parent uid ht = some p) :
    TreePrepared srv fuel (.insert name parent uid) ht p := by
  rw [insertPrepare] at h
  split at h
  · cases h
    exact .refused _
  · obtain ⟨b, hb, h⟩ := Option.bind_eq_some_iff.mp h
    split at h
    · cases h
      exact .refused _
    · next hbt =>
      obtain ⟨tnp, htnp, h⟩ := Option.bind_eq_some_iff.mp h
      obtain ⟨b', hb', h⟩ := Option.bind_eq_some_iff.mp h
      split at h
      · cases h
        exact .refused _
      · next hbf =>
        cases h
        refine .accepted TreeHT.node_create ?_ _
        rw [TreeHT.node_create, ← TreeHT.node_of_find srv htnp]
        refine .insert ?_ ?_
        · rw [hb]; simpa using hbt
        · rw [hb']; simpa using hbf

theorem deletePrepare_spec {uid : Sds} (h : deletePrepare fuel uid ht = some p) :
    TreePrepared srv fuel (.delete uid) ht p := by
  rw [deletePrepare] at h
  split at h
  · cases h
    exact .refused _
  · obtain ⟨b, hb, h⟩ := Option.bind_eq_some_iff.mp h
    split at h
    · cases h
      exact .refused _
    · next hbt =>
      obtain ⟨tn, htn, h⟩ := Option.bind_eq_some_iff.mp h
      cases h
      refine .accepted rfl ?_ _
      rw [← TreeHT.node_of_find srv htn]
      exact .delete (by rw [hb]; simpa using hbt)

theorem changeValuePrepare_spec {uid name : Sds}
    (h : changeValuePrepare fuel uid name ht = some p) :
    TreePrepared srv fuel (.changeValue uid name) ht p := by
  rw [changeValuePrepare] at h
  split at h
  · cases h
    exact .refused _
  · obtain ⟨b, hb, h⟩ := Option.bind_eq_some_iff.mp h
    split at h
    · cases h
      exact .refused _
    · next hbt =>
      obtain ⟨tn, htn, h⟩ := Option.bind_eq_some_iff.mp h
      cases h
      refine .accepted rfl ?_ _
      rw [← TreeHT.node_of_find srv htn]
      exact .changeValue (by rw [hb]; simpa using hbt)

theorem movePrepare_spec {dst src : Sds} (h : movePrepare srv fuel dst src ht = some p) :
    TreePrepared srv fuel (.move dst src) ht p := by
  rw [movePrepare] at h
  split at h
  · cases h
    exact .refused _
  · next hpres =>
    obtain ⟨b, hb, h⟩ := Option.bind_eq_some_iff.mp h
    split at h
    · cases h
      exact .refused _
    · next hbt =>
      obtain ⟨b', hb', h⟩ := Option.bind_eq_some_iff.mp h
      split at h
      · cases h
        exact .refused _
      · next hbt' =>
        obtain ⟨srcSt, hst, h⟩ := Option.bind_eq_some_iff.mp h
        split at h
        · cases h
          exact .refused _
        · next hno =>
          obtain ⟨tnDst, htnDst, h⟩ := Option.bind_eq_some_iff.mp h
          obtain ⟨tnSrc, htnSrc, h⟩ := Option.bind_eq_some_iff.mp h
          cases h
          refine .accepted rfl ?_ _
          rw [← TreeHT.node_of_find srv htnDst, ← TreeHT.node_of_find srv htnSrc]
          exact .move (by rw [hb]; simpa using hbt) (by rw [hb']; simpa using hbt')
            (not_not.mp hpres) hst (by simpa using hno)

theorem treePrepare_spec {c : TreeCall} (h : treePrepare srv c ht = some p) :
    TreePrepared srv c.fuel c.cmd ht p := by
  obtain ⟨fuel, cmd⟩ := c
  cases cmd with
  | create =>
    cases h
    dsimp only [createPrepare]
    split
    · exact .refused _
    · exact .accepted rfl .create _
  | insert => exact insertPrepare_spec h
  | delete => exact deletePrepare_spec h
  | changeValue => exact changeValuePrepare_spec h
  | move => exact movePrepare_spec h

section

variable {N : ℕ} {iter : Fin N → Iteration} {r : Fin N} {c : TreeCall} {s s' : Option TreeHT}
  {o : Option TreeMsg}

/-- The prepare half of the replicated object. Only a server that is up answers. -/
theorem rwTree_prepare (h : (rwTree iter).prepare r c s = some (s', o)) :
    ∃ ht ht', s = some ht ∧ s' = some ht' ∧ ht'.node (.of iter r) = ht.node (.of iter r) ∧
      ∀ m ∈ o, Accepts (.of iter r) ht c.fuel c.cmd m := by
  obtain ⟨ht, hs, h⟩ := Option.bind_eq_some_iff.mp h
  obtain ⟨p, hp, h⟩ := Option.bind_eq_some_iff.mp h
  obtain ⟨rfl, rfl⟩ := Prod.mk.inj (Option.some.inj h)
  have hspec := treePrepare_spec hp
  exact ⟨ht, p.state, hs, rfl, hspec.node, hspec.msg⟩

/-- The effect half: a server that is down stays down, and any other may go down. -/
theorem rwTree_effect_eq_some {m : TreeMsg} {ht' : TreeHT} :
    (rwTree iter).effect r m s = some ht' ↔
      ∃ ht, s = some ht ∧ treeEffect (.of iter r) ht m = some ht' := Option.bind_eq_some_iff

/-- A forest: what the nodes of a table look like from outside. -/
abbrev Forest := Sds → Rtn

variable {C : TreeCond N}
  {g₀ g : TreeNet N}

/-- **Properties of a replica's nodes, as long as it is up.** -/
theorem tree_invariant {P : Fin N → List (TreeEvent N) → Forest → Prop}
    (h0 : ∀ r ht, g₀.state r = some ht → P r (g₀.applied r) (ht.node (.of iter r)))
    (hstep : ∀ {g' : TreeNet N} {r : Fin N} {e : TreeEvent N}
      {A : List (TreeEvent N)} {ht ht' : TreeHT}, Steps (rwTree iter) C g₀ g' →
      e ∈ g'.log → g'.applied r = A ++ [e] → P r A (ht.node (.of iter r)) →
      treeEffect (.of iter r) ht e.msg = some ht' → P r (A ++ [e]) (ht'.node (.of iter r)))
    (h : Steps (rwTree iter) C g₀ g) :
    ∀ r ht, g.state r = some ht → P r (g.applied r) (ht.node (.of iter r)) := by
  refine h.local_invariant (I := fun r A s => ∀ ht, s = some ht → P r A (ht.node (.of iter r)))
    h0 ?_ ?_
  · intro g g' r c s o _ _ hp ih ht' hs
    obtain ⟨ht₁, ht₂, h₁, rfl, hnode, -⟩ := rwTree_prepare hp
    cases hs
    rw [hnode]
    exact ih ht₁ h₁
  · intro g' r e A s hg' he happ ih ht' hs
    obtain ⟨ht, rfl, heff⟩ := rwTree_effect_eq_some.mp hs
    exact hstep hg' he happ (ih ht rfl) heff

/-- An act applies event `e` at replica `r`, which is up and has the nodes of `ht`. -/
structure TreeApplies (iter : Fin N → Iteration) (C : TreeCond N)
    (g₀ g g' : TreeNet N) (r : Fin N) (e : TreeEvent N)
    (ht : TreeHT) : Prop where
  /-- The run up to here. -/
  before : Steps (rwTree iter) C g₀ g
  /-- The run with this act. -/
  after : Steps (rwTree iter) C g₀ g'
  mem : e ∈ g'.log
  applied : g'.applied r = g.applied r ++ [e]
  state : ∃ ht₀, g.state r = some ht₀ ∧ ht₀.node (.of iter r) = ht.node (.of iter r)
  /-- The act is the delivery of the event, or the command that has been accepted. -/
  source : (∃ i, C g (.deliver r i) g' ∧ g.log[i]? = some e) ∨
    ∃ ht₀ fuel cmd, C g (.client r ⟨fuel, cmd⟩) g' ∧ g.state r = some ht₀ ∧
      Accepts (.of iter r) ht₀ fuel cmd e.msg

theorem TreeApplies.cond {g' : TreeNet N} {e : TreeEvent N}
    {ht : TreeHT} (ha : TreeApplies iter C g₀ g g' r e ht) : ∃ a, C g a g' := by
  rcases ha.source with ⟨i, hc, -⟩ | ⟨-, fuel, cmd, hc, -⟩
  · exact ⟨_, hc⟩
  · exact ⟨_, hc⟩

/-- **Properties of a replica's nodes that also keep it up, and of messages.** -/
theorem tree_apply_invariant {P : Fin N → List (TreeEvent N) → Forest → Prop}
    {J : TreeEvent N → Prop}
    (h0 : ∀ r, ∃ ht, g₀.state r = some ht ∧ P r (g₀.applied r) (ht.node (.of iter r)))
    (h0' : ∀ e ∈ g₀.log, J e)
    (hissue : ∀ {g g' : TreeNet N} {r : Fin N} {fuel : ℕ}
      {cmd : TreeCmd} {m : TreeMsg} {ht : TreeHT}, Steps (rwTree iter) C g₀ g →
      (∀ e ∈ g.log, J e) → g.state r = some ht → P r (g.applied r) (ht.node (.of iter r)) →
      C g (.client r ⟨fuel, cmd⟩) g' → g'.log = g.log ++ [g.event r m] →
      g'.applied r = g.applied r ++ [g.event r m] →
      Accepts (.of iter r) ht fuel cmd m → J (g.event r m))
    (hstep : ∀ {g g' : TreeNet N} {r : Fin N}
      {e : TreeEvent N} {ht : TreeHT}, TreeApplies iter C g₀ g g' r e ht →
      (∀ e ∈ g'.log, J e) → P r (g.applied r) (ht.node (.of iter r)) →
      ∃ ht', treeEffect (.of iter r) ht e.msg = some ht' ∧
        P r (g.applied r ++ [e]) (ht'.node (.of iter r)))
    (h : Steps (rwTree iter) C g₀ g) :
    (∀ e ∈ g.log, J e) ∧
      ∀ r, ∃ ht, g.state r = some ht ∧ P r (g.applied r) (ht.node (.of iter r)) := by
  refine h.apply_invariant (I := fun r A s => ∃ ht, s = some ht ∧ P r A (ht.node (.of iter r)))
    h0 h0' ?_ ?_ ?_
  · rintro g g' r c s o _ _ hp ⟨ht, hs, ih⟩
    obtain ⟨ht₁, ht₂, h₁, rfl, hnode, -⟩ := rwTree_prepare hp
    obtain rfl : ht = ht₁ := Option.some.inj (hs.symm.trans h₁)
    exact ⟨ht₂, rfl, hnode ▸ ih⟩
  · rintro g g' r c s m hg ihJ ⟨ht, hs, ih⟩ hc hlog happ hp
    obtain ⟨ht₁, -, h₁, -, -, hacc⟩ := rwTree_prepare hp
    obtain rfl : ht = ht₁ := Option.some.inj (hs.symm.trans h₁)
    exact hissue hg ihJ hs ih hc hlog happ (hacc m rfl)
  · rintro g g' r e s ha ihJ ⟨ht, rfl, ih⟩
    have happ : TreeApplies iter C g₀ g g' r e ht := by
      rcases ha.source with ⟨hs, i, hc, hi⟩ | ⟨c, hc, hp⟩
      · exact ⟨ha.before, ha.after, ha.mem, ha.applied, ⟨ht, hs.symm, rfl⟩, .inl ⟨i, hc, hi⟩⟩
      · obtain ⟨ht₁, ht₂, h₁, h₂, hnode, hacc⟩ := rwTree_prepare hp
        cases h₂
        exact ⟨ha.before, ha.after, ha.mem, ha.applied, ⟨ht₁, h₁, hnode.symm⟩,
          .inr ⟨ht₁, c.fuel, c.cmd, hc, h₁, hacc _ rfl⟩⟩
    obtain ⟨ht', heff, hP⟩ := hstep happ ihJ ih
    exact ⟨ht', rwTree_effect_eq_some.mpr ⟨ht, rfl, heff⟩, hP⟩

/-- **Properties of tree messages**, from the state their command was accepted in. -/
theorem tree_log_invariant {J : TreeEvent N → Prop} (h0 : ∀ e ∈ g₀.log, J e)
    (hissue : ∀ {g g' : TreeNet N} {r : Fin N} {fuel : ℕ}
      {cmd : TreeCmd} {m : TreeMsg} {ht : TreeHT}, Steps (rwTree iter) C g₀ g →
      (∀ e ∈ g.log, J e) → C g (.client r ⟨fuel, cmd⟩) g' → g'.log = g.log ++ [g.event r m] →
      g.state r = some ht → Accepts (.of iter r) ht fuel cmd m → J (g.event r m))
    (h : Steps (rwTree iter) C g₀ g) : ∀ e ∈ g.log, J e := by
  refine h.log_invariant h0 ?_
  intro g g' r c s m hg ih hc hlog hp
  obtain ⟨ht, -, hs, -, -, hacc⟩ := rwTree_prepare hp
  exact hissue hg ih hc hlog hs (hacc m rfl)

end

/-! ### What messages say -/

/-- The id, the value and the parent of an insert. -/
def TreeMsg.insertOf : TreeMsg → Option (Sds × Sds × Sds)
  | .insert name parent uid _ _ => some (uid, name, parent)
  | _ => none

/-- The id of a delete. -/
def TreeMsg.deleteOf : TreeMsg → Option Sds
  | .delete uid _ => some uid
  | _ => none

/-- Whether a message creates the tree. -/
def TreeMsg.isCreate : TreeMsg → Bool
  | .create => true
  | _ => false

theorem Reh.exists_of_rmv {h : Reh} {t : VC} (hex : (h.rmv t).Exists) : h.Exists := by
  rw [Reh.rmv] at hex
  split at hex
  · exact absurd hex (not_le.mpr (show (-1 : ℤ) < 0 by decide))
  · exact hex

/-- The message makes the node with key `j`: it inserts it or, if it is the root, creates it. -/
def TreeMsg.Makes (m : TreeMsg) (j : Sds) : Prop :=
  (j = rootId ∧ m.isCreate) ∨ ∃ x v p, m.insertOf = some (x, v, p) ∧ sdsnew x = j

theorem TreeMsg.onUid_eq_none_iff {m : TreeMsg} {j : Sds} {u : Option Sds} :
    m.onUid j u = none ↔ u = none ∧ ¬ m.Makes j := by
  cases m with
  | create =>
    by_cases hj : j = rootId <;> simp [onUid, Makes, isCreate, insertOf, hj]
  | insert name parent uid rp r =>
    by_cases hj : j = sdsnew uid <;> simp [onUid, Makes, isCreate, insertOf, hj, eq_comm]
  | _ => simp [onUid, Makes, isCreate, insertOf]

/-- A header that is alive after a message was alive before, or the message makes the node. -/
theorem TreeMsg.exists_of_onHeader {srv : Server} {m : TreeMsg} {j : Sds} {h : Reh}
    (hex : (m.onHeader srv j h).Exists) : h.Exists ∨ m.Makes j := by
  have hrmv : ∀ {h : Reh} {k : Sds} {t : VC}, (if j = k then h.rmv t else h).Exists → h.Exists := by
    intro h k t hh
    split at hh
    · exact Reh.exists_of_rmv hh
    · exact hh
  cases m with
  | create =>
    dsimp only [onHeader] at hex
    split at hex
    · next hj => exact .inr (.inl ⟨hj, rfl⟩)
    · exact .inl hex
  | insert name parent uid rp r =>
    by_cases hj : j = sdsnew uid
    · exact .inr (.inr ⟨uid, name, parent, rfl, hj.symm⟩)
    · simp only [onHeader, if_neg hj] at hex
      exact .inl (hrmv hex)
  | delete uid r => exact .inl (hrmv hex)
  | changeValue uid name v r => exact .inl (hrmv hex)
  | move dst src v rDst rSrc => exact .inl (hrmv (hrmv hex))

/-! ### Sizes and keepers -/

/-- A clock of the configured size, kept by the server. -/
structure VC.Kept (srv : Server) (c : VC) : Prop where
  size : c.size = srv.p2pCount
  id : c.id = srv.p2pId

theorem VC.Kept.updateVC {c : VC} (h : c.Kept srv) (t : VC) : (updateVC c t).Kept srv :=
  ⟨(size_updateVC c t).trans h.size, (id_updateVC c t).trans h.id⟩

theorem VC.Kept.nowVC {c : VC} (h : c.Kept srv) : (nowVC c).Kept srv :=
  ⟨(size_nowVC c).trans h.size, h.id⟩

/-- The clocks a message carries for the header of the node with key `j`, in the order the
effect looks at them. -/
def TreeMsg.stampsFor (j : Sds) : TreeMsg → List VC
  | .create => []
  | .insert _ parent uid rp r =>
    (if j = sdsnew parent then [rp] else []) ++ if j = sdsnew uid then [r] else []
  | .delete uid r => if j = sdsnew uid then [r] else []
  | .changeValue uid _ _ r => if j = sdsnew uid then [r] else []
  | .move dst src _ rDst rSrc =>
    (if j = sdsnew dst then [rDst] else []) ++ if j = sdsnew src then [rSrc] else []

theorem TreeMsg.current_onHeader (m : TreeMsg) (j : Sds) (h : Reh) :
    (m.onHeader srv j h).current = ((m.stampsFor j).foldl Reh.rmv h).current := by
  cases m <;> simp only [onHeader, stampsFor] <;> split_ifs <;> simp

@[simp] theorem Reh.size_foldl_rmv (h : Reh) (ts : List VC) :
    (ts.foldl Reh.rmv h).current.size = h.current.size := by
  induction ts generalizing h with
  | nil => rfl
  | cons t ts ih => rw [List.foldl_cons, ih, Reh.size_rmv]

@[simp] theorem Reh.id_foldl_rmv (h : Reh) (ts : List VC) :
    (ts.foldl Reh.rmv h).current.id = h.current.id := by
  induction ts generalizing h with
  | nil => rfl
  | cons t ts ih => rw [List.foldl_cons, ih, Reh.id_rmv]

/-- The clocks of a node are the server's. -/
structure RtnShape (srv : Server) (n : Rtn) : Prop where
  /-- The clock of the header. -/
  current : n.header.current.Kept srv
  /-- The clock of the value. -/
  vectorClock : n.vectorClock.Kept srv
  /-- The clock of the moves. -/
  moveVC : n.moveVC.Kept srv

theorem rtnShape_rtnNew (srv : Server) : RtnShape srv (rtnNew srv) := by
  have hnew : (lNewVC srv).Kept srv := ⟨size_lNewVC srv, id_lNewVC srv⟩
  exact ⟨hnew, hnew, hnew⟩

theorem TreeMsg.Frame.shape {m : TreeMsg} {j : Sds} {n n' : Rtn} (hf : m.Frame srv j n n')
    (h : RtnShape srv n) : RtnShape srv n' := by
  obtain ⟨hh, -, hv, hm⟩ := hf
  refine ⟨?_, ?_, ?_⟩
  · rw [hh, TreeMsg.current_onHeader]
    exact ⟨(Reh.size_foldl_rmv _ _).trans h.current.size, (Reh.id_foldl_rmv _ _).trans h.current.id⟩
  · rw [hv]
    cases m with
    | changeValue uid name v r =>
      dsimp only [onVectorClock]
      split
      · exact h.vectorClock.updateVC v
      · exact h.vectorClock
    | _ => exact h.vectorClock
  · rw [hm]
    cases m with
    | move dst src v rDst rSrc =>
      dsimp only [onMoveVC]
      split
      · exact h.moveVC.updateVC v
      · exact h.moveVC
    | _ => exact h.moveVC

section

variable {N : ℕ} {iter : Fin N → Iteration} {C : TreeCond N}
  {g₀ g : TreeNet N}

theorem treeShape_of_reachable (h : Reachable (rwTree iter) C g) (r : Fin N) {ht : TreeHT}
    (hs : g.state r = some ht) (j : Sds) : RtnShape (.of iter r) (ht.node (.of iter r) j) := by
  refine tree_invariant (P := fun r _ F => ∀ j, RtnShape (.of iter r) (F j)) ?_ ?_ h r ht hs j
  · intro r ht hs j
    cases hs
    exact rtnShape_rtnNew _
  · intro g' r e A ht ht' _ _ _ ih heff j
    exact (treeEffect_frame heff j).shape (ih j)

/-- All the clocks of a message. -/
def TreeMsg.clocks : TreeMsg → List VC
  | .create => []
  | .insert _ _ _ rp r => [rp, r]
  | .delete _ r => [r]
  | .changeValue _ _ v r => [v, r]
  | .move _ _ v rDst rSrc => [v, rDst, rSrc]

theorem TreeMsg.mem_clocks {m : TreeMsg} {j : Sds} {t : VC} (h : t ∈ m.stampsFor j) :
    t ∈ m.clocks := by
  cases m <;> simp only [stampsFor, clocks, List.mem_append, List.mem_ite_nil_right,
    List.mem_cons, List.not_mem_nil] at h ⊢ <;> tauto

theorem treeClock_of_reachable (h : Reachable (rwTree iter) C g) :
    ∀ e ∈ g.log, ∀ t ∈ e.msg.clocks, t.Kept (.of iter e.origin) := by
  refine tree_log_invariant (by simp [OpBased.start]) ?_ h
  intro g g' r fuel cmd m ht hg _ _ _ hs hacc t ht'
  have hshape := treeShape_of_reachable hg r hs
  change t ∈ m.clocks at ht'
  cases hacc with
  | create => simp [TreeMsg.clocks] at ht'
  | insert =>
    simp only [TreeMsg.clocks, List.mem_cons, List.not_mem_nil, or_false] at ht'
    rcases ht' with rfl | rfl
    · exact (hshape _).current
    · exact (hshape _).current
  | delete =>
    simp only [TreeMsg.clocks, List.mem_cons, List.not_mem_nil, or_false] at ht'
    subst ht'
    exact (hshape _).current.nowVC
  | changeValue =>
    simp only [TreeMsg.clocks, List.mem_cons, List.not_mem_nil, or_false] at ht'
    rcases ht' with rfl | rfl
    · exact (hshape _).vectorClock.nowVC
    · exact (hshape _).current
  | move =>
    simp only [TreeMsg.clocks, List.mem_cons, List.not_mem_nil, or_false] at ht'
    rcases ht' with rfl | rfl | rfl
    · exact (hshape _).moveVC.nowVC
    · exact (hshape _).current
    · exact (hshape _).current

/-! ### Header clocks are joins -/

/-- What the events of a list say about the header of one node. -/
def stampEntries (A : List (TreeEvent N)) (j : Sds) : Set (ℕ → ℤ) :=
  {c | ∃ e ∈ A, ∃ t ∈ e.msg.stampsFor j, c = t.entry}

theorem stampEntries_nil (j : Sds) : stampEntries ([] : List (TreeEvent N)) j = ∅ := by
  simp [stampEntries]

theorem stampEntries_concat (A : List (TreeEvent N)) (e : TreeEvent N)
    (j : Sds) : stampEntries (A ++ [e]) j =
      stampEntries A j ∪ {c | ∃ t ∈ e.msg.stampsFor j, c = t.entry} := by
  ext c
  simp [stampEntries, or_and_right, exists_or]

theorem Reh.isLUB_foldl_rmv {S : Set (ℕ → ℤ)} {h : Reh} (hS : IsLUB S h.current.entry)
    {ts : List VC} (hts : ∀ t ∈ ts, t.size = h.current.size) :
    IsLUB (S ∪ {c | ∃ t ∈ ts, c = t.entry}) (ts.foldl Reh.rmv h).current.entry := by
  induction ts generalizing S h with
  | nil => simpa using hS
  | cons t ts ih =>
    have hcur : (h.rmv t).current.entry = t.entry ⊔ h.current.entry := by
      rw [← Reh.register_current, Reh.register_rmv (hts t (by simp)),
        JoinRegister.Register.clear_current, Reh.register_current, sup_comm]
    have hstep : IsLUB (insert t.entry S) (h.rmv t).current.entry := by
      rw [hcur]
      exact hS.insert t.entry
    have hrec := ih hstep fun t' ht' => by rw [Reh.size_rmv]; exact hts t' (by simp [ht'])
    have hset : S ∪ {c | ∃ t' ∈ t :: ts, c = t'.entry} =
        insert t.entry S ∪ {c | ∃ t' ∈ ts, c = t'.entry} := by
      ext c
      simp only [Set.mem_union, Set.mem_insert_iff, Set.mem_ofPred_eq, List.exists_mem_cons_iff]
      tauto
    rw [hset]
    exact hrec

/-- **The clock of a header is the join of the clocks received for it.** -/
theorem isLUB_current_of_reachable (h : Reachable (rwTree iter) C g) (r : Fin N) {ht : TreeHT}
    (hs : g.state r = some ht) (j : Sds) :
    IsLUB (insert 0 (stampEntries (g.applied r) j))
      (ht.node (.of iter r) j).header.current.entry := by
  refine (tree_invariant (P := fun r A F => ∀ j, (F j).header.current.size = N ∧
    IsLUB (insert 0 (stampEntries A j)) (F j).header.current.entry) ?_ ?_ h r ht hs j).2
  · intro r ht hs j
    cases hs
    refine ⟨size_lNewVC _, ?_⟩
    have hzero : (TreeHT.node (.of iter r) .empty j).header.current.entry = 0 := entry_lNewVC _
    rw [show (rwTree iter).start.applied r = [] from rfl, stampEntries_nil, hzero]
    simp
  · intro g' r e A ht ht' hg' he _ ih heff j
    obtain ⟨hsize, hlub⟩ := ih j
    have hts : ∀ t ∈ e.msg.stampsFor j,
        t.size = (ht.node (.of iter r) j).header.current.size := fun t htm =>
      (treeClock_of_reachable hg' e he t (TreeMsg.mem_clocks htm)).size.trans hsize.symm
    rw [(treeEffect_frame heff j).header, TreeMsg.current_onHeader]
    refine ⟨?_, ?_⟩
    · rw [Reh.size_foldl_rmv, hsize]
    · rw [stampEntries_concat, ← Set.insert_union]
      exact Reh.isLUB_foldl_rmv hlub hts

/-- **The stamps that are not removes** are what their origin had received. -/
theorem isLUB_stamp_of_reachable (h : Reachable (rwTree iter) C g) :
    ∀ e ∈ g.log, e.msg.deleteOf = none → ∀ j, ∀ t ∈ e.msg.stampsFor j,
      IsLUB (insert 0 (stampEntries e.deps j)) t.entry := by
  refine tree_log_invariant (by simp [OpBased.start]) ?_ h
  intro g g' r fuel cmd m ht hg _ _ _ hs hacc hdel j t ht'
  have hlub := isLUB_current_of_reachable hg r hs j
  change m.deleteOf = none at hdel
  change t ∈ m.stampsFor j at ht'
  change IsLUB (insert 0 (stampEntries (g.applied r) j)) t.entry
  cases hacc with
  | create => simp [TreeMsg.stampsFor] at ht'
  | insert =>
    simp only [TreeMsg.stampsFor, List.mem_append, List.mem_ite_nil_right,
      List.mem_singleton] at ht'
    rcases ht' with ⟨rfl, rfl⟩ | ⟨rfl, rfl⟩ <;> exact hlub
  | delete => cases hdel
  | changeValue =>
    simp only [TreeMsg.stampsFor, List.mem_ite_nil_right, List.mem_singleton] at ht'
    obtain ⟨rfl, rfl⟩ := ht'
    exact hlub
  | move =>
    simp only [TreeMsg.stampsFor, List.mem_append, List.mem_ite_nil_right,
      List.mem_singleton] at ht'
    rcases ht' with ⟨rfl, rfl⟩ | ⟨rfl, rfl⟩ <;> exact hlub

end

/-! ### Events that are being applied -/

namespace TreeApplies

variable {N : ℕ} {iter : Fin N → Iteration} {C : TreeCond N}
  {g g' : TreeNet N} {r : Fin N} {e : TreeEvent N}
  {ht : TreeHT}

theorem shape (ha : TreeApplies iter C (rwTree iter).start g g' r e ht) (j : Sds) :
    RtnShape (.of iter r) (ht.node (.of iter r) j) := by
  obtain ⟨ht₀, hs, hnode⟩ := ha.state
  rw [← hnode]
  exact treeShape_of_reachable ha.before r hs j

theorem isLUB_current (ha : TreeApplies iter C (rwTree iter).start g g' r e ht) (j : Sds) :
    IsLUB (insert 0 (stampEntries (g.applied r) j))
      (ht.node (.of iter r) j).header.current.entry := by
  obtain ⟨ht₀, hs, hnode⟩ := ha.state
  rw [← hnode]
  exact isLUB_current_of_reachable ha.before r hs j

theorem size (ha : TreeApplies iter C (rwTree iter).start g g' r e ht) {j : Sds} {t : VC}
    (htm : t ∈ e.msg.stampsFor j) :
    t.size = (ht.node (.of iter r) j).header.current.size :=
  (treeClock_of_reachable ha.after e ha.mem t (TreeMsg.mem_clocks htm)).size.trans
    (ha.shape j).current.size.symm

theorem mem_applied_of_deps (hC : ∀ {g a g'}, C g a g' → causal g a g')
    (ha : TreeApplies iter C (rwTree iter).start g g' r e ht) {d : TreeEvent N}
    (hd : d ∈ e.deps) : d ∈ g.applied r := by
  have hcausal := Reachable.causalList hC ha.after r
  rw [ha.applied] at hcausal
  exact hcausal.last hd

/-- **Under causal delivery only deletes remove anything.** -/
theorem calm (hC : ∀ {g a g'}, C g a g' → causal g a g')
    (ha : TreeApplies iter C (rwTree iter).start g g' r e ht) (hdel : e.msg.deleteOf = none)
    {j : Sds} {t : VC} (htm : t ∈ e.msg.stampsFor j) :
    ¬ removeCheck (ht.node (.of iter r) j).header t := by
  rw [removeCheck_iff (ha.size htm), not_not]
  refine (isLUB_stamp_of_reachable ha.after e ha.mem hdel j t htm).mono (ha.isLUB_current j) ?_
  refine Set.insert_subset_insert ?_
  rintro c ⟨d, hd, t', ht', rfl⟩
  exact ⟨d, ha.mem_applied_of_deps hC hd, t', ht', rfl⟩

end TreeApplies

end RemoveWin
