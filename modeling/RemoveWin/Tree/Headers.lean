import RemoveWin.Tree.Clocks

/-!
# Headers of the tree in any delivery order

In an arbitrary delivery order the tree effects may crash on a node whose insert has not come yet:
its id is `NULL`, and a set of children is asked to add or remove it. This file takes such a set
operation as doing *something* to the set of children and nothing else, so that runs go on, and
shows that headers do not care: the header of a node is the join register it is in every
container of the framework, whatever happens to children and parents.

What a set operation on `NULL` leaves of a set is an oracle, `NullOps`. Where no effect crashes, the
oracle is never asked and the effects are those of the source (`treeEffectNull_of_eq_some`).

## Main results

* `RemoveWin.treeEffectNull_of_eq_some` — the oracle only matters where the server would crash
* `RemoveWin.header_treeEffectNull` — what any message does to any header
* `RemoveWin.rwTree_headers` — headers are functions of the messages applied
-/

namespace RemoveWin

open Replicated JoinRegister

/-! ### Effects that do not crash -/

/-- What a set operation on a `NULL` string leaves of a set. -/
abbrev NullOps := SetObj → SetObj

/-- `unlink`, with an oracle for a `NULL` id. -/
def unlinkNull (nul : NullOps) (srv : Server) (p s : Sds) (ht : TreeHT) : TreeHT :=
  (unlink srv p s ht).getD (ht.modify srv p fun tn => { tn with children := nul tn.children })

/-- `link`, with an oracle for a `NULL` id. -/
def linkNull (nul : NullOps) (srv : Server) (d s : Sds) (ht : TreeHT) : TreeHT :=
  (link srv d s ht).getD
    ((ht.modify srv d fun tn => { tn with children := nul tn.children }).modify srv s fun tn =>
      { tn with parent := some d })

/-- `tRemFunc`, with an oracle for a `NULL` id. -/
def tRemFuncNull (nul : NullOps) (srv : Server) (ht : TreeHT) (k : Sds) (t : VC) : TreeHT :=
  if removeCheck (ht.node srv k).header t then
    let p := sdsnewNull (ht.node srv k).parent
    let ht := ht.create srv p
    let ht := ht.modify srv k fun tn => { tn with header := rehRmvFunc tn.header t }
    (unlinkNull nul srv p k ht).modify srv k fun tn => { tn with parent := some noneId }
  else ht

/-- `treeNodeInsertWithUid`, effect phase. -/
def insertEffectNull (nul : NullOps) (srv : Server) (name parent uid : Sds) (rp r : VC)
    (ht : TreeHT) : TreeHT :=
  let ht := insertWrite srv name parent uid ht
  let ht := tRemFuncNull nul srv ht (sdsnew parent) rp
  let ht := tRemFuncNull nul srv ht (sdsnew uid) r
  insertOwn srv (sdsnew uid) r ht

/-- `treeNodeDelete`, effect phase. -/
def deleteEffectNull (nul : NullOps) (srv : Server) (uid : Sds) (r : VC) (ht : TreeHT) : TreeHT :=
  tRemFuncNull nul srv (ht.create srv (sdsnew uid)) (sdsnew uid) r

/-- `treeNodeChangeValue`, effect phase. -/
def changeValueEffectNull (nul : NullOps) (srv : Server) (uid name : Sds) (vcChangeval r : VC)
    (ht : TreeHT) : TreeHT :=
  let k := sdsnew uid
  let ht := tRemFuncNull nul srv (ht.create srv k) k r
  let ht := changeName srv k name vcChangeval r ht
  ht.modify srv k fun tn => { tn with vectorClock := updateVC tn.vectorClock vcChangeval }

/-- `unlinkFound`, with an oracle for a `NULL` id. -/
def unlinkFoundNull (nul : NullOps) (srv : Server) (p s : Sds) (ht : TreeHT) : TreeHT :=
  if (ht.nodes p).isSome then unlinkNull nul srv p s ht else ht

/-- `reparent`, with an oracle for a `NULL` id. -/
def reparentNull (nul : NullOps) (srv : Server) (create : Bool) (dst : Sds) (s : Sds)
    (ht : TreeHT) : TreeHT :=
  let p := sdsnewNull (ht.node srv s).parent
  let ht := if create then ht.create srv p else ht
  linkNull nul srv (sdsnew dst) s (unlinkFoundNull nul srv p s ht)

/-- `moveLink`, with an oracle for a `NULL` id. -/
def moveLinkNull (nul : NullOps) (srv : Server) (dst : Sds) (s : Sds) (moveVC rSrc : VC)
    (ht : TreeHT) : TreeHT :=
  let tn := ht.node srv s
  if updateCheck tn.header rSrc then
    if checkCurrency tn.moveVC moveVC then
      if sdscmp (sdsnewNull tn.parent) dst > 0 then reparentNull nul srv false dst s ht else ht
    else if causallyReady tn.moveVC moveVC then reparentNull nul srv true dst s ht
    else ht
  else ht

/-- `treeNodeMove`, effect phase. -/
def moveEffectNull (nul : NullOps) (srv : Server) (dst src : Sds) (moveVC rDst rSrc : VC)
    (ht : TreeHT) : TreeHT :=
  let d := sdsnew dst
  let s := sdsnew src
  let ht := (ht.create srv d).create srv s
  let ht := tRemFuncNull nul srv ht d rDst
  let ht := tRemFuncNull nul srv ht s rSrc
  let ht := moveLinkNull nul srv dst s moveVC rSrc ht
  ht.modify srv s fun tn => { tn with moveVC := updateVC tn.moveVC moveVC }

/-- The effect phase of any tree command. -/
def treeEffectNull (nul : NullOps) (srv : Server) (ht : TreeHT) : TreeMsg → TreeHT
  | .create => createEffect srv ht
  | .insert name parent uid rp r => insertEffectNull nul srv name parent uid rp r ht
  | .delete uid r => deleteEffectNull nul srv uid r ht
  | .changeValue uid name vcChangeval r => changeValueEffectNull nul srv uid name vcChangeval r ht
  | .move dst src moveVC rDst rSrc => moveEffectNull nul srv dst src moveVC rDst rSrc ht

/-- The RWF-Tree of `N` servers that do not crash. -/
def rwTreeNull {N : ℕ} (iter : Fin N → Iteration) (nul : Fin N → NullOps) :
    OpBased (Fin N) TreeHT TreeCall TreeMsg where
  init _ := .empty
  prepare r c ht := do
    let p ← treePrepare (.of iter r) c ht
    return (p.state, p.msg)
  effect r m ht := treeEffectNull (nul r) (.of iter r) ht m

/-! ### Where the server would not crash -/

section

variable {nul : NullOps} {srv : Server} {ht ht' : TreeHT} {k j : Sds} {t : VC}

theorem tRemFuncNull_of_eq_some (h : tRemFunc srv ht k t = some ht') :
    tRemFuncNull nul srv ht k t = ht' := by
  rw [tRemFunc] at h
  rw [tRemFuncNull]
  split
  · next hr =>
    rw [if_pos hr] at h
    obtain ⟨ht₁, h₁, rfl⟩ := Option.map_eq_some_iff.mp h
    dsimp only
    rw [unlinkNull, h₁, Option.getD_some]
  · next hr =>
    rw [if_neg hr] at h
    exact Option.some.inj h

theorem unlinkFoundNull_of_eq_some {p s : Sds} (h : unlinkFound srv p s ht = some ht') :
    unlinkFoundNull nul srv p s ht = ht' := by
  rw [unlinkFound] at h
  rw [unlinkFoundNull]
  split at h
  · next hp => rw [if_pos hp, unlinkNull, h, Option.getD_some]
  · next hp =>
    rw [if_neg hp]
    exact Option.some.inj h

theorem reparentNull_of_eq_some {create : Bool} {dst s : Sds}
    (h : reparent srv create dst s ht = some ht') : reparentNull nul srv create dst s ht = ht' := by
  obtain ⟨ht₁, h₁, h₂⟩ := Option.bind_eq_some_iff.mp h
  rw [reparentNull, unlinkFoundNull_of_eq_some h₁, linkNull, h₂, Option.getD_some]

theorem moveLinkNull_of_eq_some {dst s : Sds} {v r : VC}
    (h : moveLink srv dst s v r ht = some ht') : moveLinkNull nul srv dst s v r ht = ht' := by
  rw [moveLink] at h
  rw [moveLinkNull]
  split_ifs at h ⊢
  · exact reparentNull_of_eq_some h
  · exact Option.some.inj h
  · exact reparentNull_of_eq_some h
  · exact Option.some.inj h
  · exact Option.some.inj h

/-- **The oracle only matters where the server would crash.** -/
theorem treeEffectNull_of_eq_some {m : TreeMsg} (h : treeEffect srv ht m = some ht') :
    treeEffectNull nul srv ht m = ht' := by
  cases m with
  | create => exact Option.some.inj h
  | insert name parent uid rp r =>
    obtain ⟨ht₁, h₁, h⟩ := Option.bind_eq_some_iff.mp h
    obtain ⟨ht₂, h₂, h⟩ := Option.bind_eq_some_iff.mp h
    cases h
    rw [treeEffectNull, insertEffectNull, tRemFuncNull_of_eq_some h₁, tRemFuncNull_of_eq_some h₂]
  | delete uid r => exact tRemFuncNull_of_eq_some h
  | changeValue uid name v r =>
    obtain ⟨ht₁, h₁, h⟩ := Option.bind_eq_some_iff.mp h
    cases h
    rw [treeEffectNull, changeValueEffectNull, tRemFuncNull_of_eq_some h₁]
  | move dst src v rDst rSrc =>
    obtain ⟨ht₁, h₁, h⟩ := Option.bind_eq_some_iff.mp h
    obtain ⟨ht₂, h₂, h⟩ := Option.bind_eq_some_iff.mp h
    obtain ⟨ht₃, h₃, h⟩ := Option.bind_eq_some_iff.mp h
    cases h
    rw [treeEffectNull, moveEffectNull, tRemFuncNull_of_eq_some h₁, tRemFuncNull_of_eq_some h₂,
      moveLinkNull_of_eq_some h₃]

/-! ### Headers -/

theorem header_modify {f : Rtn → Rtn} (hf : ∀ tn, (f tn).header = tn.header) :
    ((ht.modify srv k f).node srv j).header = (ht.node srv j).header := by
  rw [TreeHT.node_modify]
  split
  · next hj => rw [hf, hj]
  · rfl

theorem header_unlinkNull {p s : Sds} :
    ((unlinkNull nul srv p s ht).node srv j).header = (ht.node srv j).header := by
  rw [unlinkNull]
  cases h : unlink srv p s ht with
  | some ht' => rw [Option.getD_some, node_unlink h]
  | none =>
    rw [Option.getD_none, header_modify]
    exact fun _ => rfl

theorem header_unlinkFoundNull {p s : Sds} :
    ((unlinkFoundNull nul srv p s ht).node srv j).header = (ht.node srv j).header := by
  rw [unlinkFoundNull]
  split
  · exact header_unlinkNull
  · rfl

theorem header_linkNull {d s : Sds} :
    ((linkNull nul srv d s ht).node srv j).header = (ht.node srv j).header := by
  rw [linkNull]
  cases h : link srv d s ht with
  | some ht' =>
    obtain ⟨u, -, rfl⟩ := link_eq_some_iff.mp h
    rw [Option.getD_some, header_modify, header_modify]
    · exact fun _ => rfl
    · exact fun _ => rfl
  | none =>
    rw [Option.getD_none, header_modify, header_modify]
    · exact fun _ => rfl
    · exact fun _ => rfl

theorem header_tRemFuncNull : ((tRemFuncNull nul srv ht k t).node srv j).header =
    if j = k then (ht.node srv j).header.rmv t else (ht.node srv j).header := by
  rw [tRemFuncNull]
  by_cases hr : removeCheck (ht.node srv k).header t
  · rw [if_pos hr, header_modify, header_unlinkNull, TreeHT.node_modify, TreeHT.node_create]
    · split
      · next hj => rw [hj, Reh.rmv, if_pos hr]
      · rfl
    · exact fun _ => rfl
  · rw [if_neg hr]
    split
    · next hj => rw [hj, Reh.rmv, if_neg hr]
    · rfl

theorem header_moveLinkNull {dst s : Sds} {v r : VC} :
    ((moveLinkNull nul srv dst s v r ht).node srv j).header = (ht.node srv j).header := by
  have hre : ∀ create : Bool, ((reparentNull nul srv create dst s ht).node srv j).header =
      (ht.node srv j).header := by
    intro create
    rw [reparentNull, header_linkNull, header_unlinkFoundNull, node_createIf]
  rw [moveLinkNull]
  split_ifs
  · exact hre false
  · rfl
  · exact hre true
  · rfl
  · rfl

/-- **What any message does to any header.** -/
theorem header_treeEffectNull (m : TreeMsg) :
    ((treeEffectNull nul srv ht m).node srv j).header =
      m.onHeader srv j (ht.node srv j).header := by
  cases m with
  | create => exact (frame_createEffect j).header
  | insert name parent uid rp r =>
    rw [treeEffectNull, insertEffectNull, node_insertOwn]
    simp only [header_tRemFuncNull, node_insertWrite, TreeMsg.onHeader]
    split_ifs <;> rfl
  | delete uid r =>
    rw [treeEffectNull, deleteEffectNull, header_tRemFuncNull, TreeHT.node_create,
      TreeMsg.onHeader]
  | changeValue uid name v r =>
    rw [treeEffectNull, changeValueEffectNull, header_modify, node_changeName]
    · simp only [header_tRemFuncNull, TreeHT.node_create, TreeMsg.onHeader]
    · exact fun _ => rfl
  | move dst src v rDst rSrc =>
    rw [treeEffectNull, moveEffectNull, header_modify, header_moveLinkNull, header_tRemFuncNull,
      header_tRemFuncNull, TreeHT.node_create, TreeHT.node_create, TreeMsg.onHeader]
    exact fun _ => rfl

end

/-! ### What the register of a header receives -/

/-- The clocks a message carries for the header of the node with key `j`, in the order the effect
looks at them, and whether they claim the node for the origin. -/
def TreeMsg.claimsFor (j : Sds) : TreeMsg → List (Bool × VC)
  | .create => []
  | .insert _ parent uid rp r =>
    (if j = sdsnew parent then [(false, rp)] else []) ++ if j = sdsnew uid then [(true, r)] else []
  | .delete uid r => if j = sdsnew uid then [(false, r)] else []
  | .changeValue uid _ _ r => if j = sdsnew uid then [(false, r)] else []
  | .move dst src _ rDst rSrc =>
    (if j = sdsnew dst then [(false, rDst)] else []) ++
      if j = sdsnew src then [(false, rSrc)] else []

/-- The clock of an insert of the node with key `j`. -/
def TreeMsg.insertsAt (j : Sds) : TreeMsg → Option VC
  | .insert _ _ uid _ r => if j = sdsnew uid then some r else none
  | _ => none

theorem TreeMsg.onHeader_eq_foldl {srv : Server} {j : Sds} (hj : j ≠ rootId) (m : TreeMsg)
    (h : Reh) : m.onHeader srv j h = (m.claimsFor j).foldl (fun h c => h.receive c.1 c.2) h := by
  cases m with
  | create => simp [onHeader, claimsFor, hj]
  | insert name parent uid rp r =>
    simp only [onHeader, claimsFor]
    split_ifs <;> simp [Reh.receive]
  | delete uid r =>
    simp only [onHeader, claimsFor]
    split_ifs <;> simp [Reh.receive]
  | changeValue uid name v r =>
    simp only [onHeader, claimsFor]
    split_ifs <;> simp [Reh.receive]
  | move dst src v rDst rSrc =>
    simp only [onHeader, claimsFor]
    split_ifs <;> simp [Reh.receive]

theorem TreeMsg.mem_stampsFor_iff {m : TreeMsg} {j : Sds} {t : VC} :
    t ∈ m.stampsFor j ↔ ∃ claims, (claims, t) ∈ m.claimsFor j := by
  cases m with
  | create => simp [stampsFor, claimsFor]
  | insert name parent uid rp r =>
    simp only [stampsFor, claimsFor, List.mem_append, List.mem_ite_nil_right, List.mem_singleton,
      Prod.mk.injEq, exists_or, exists_and_left, exists_eq_left]
  | delete uid r =>
    simp only [stampsFor, claimsFor, List.mem_ite_nil_right, List.mem_singleton, Prod.mk.injEq,
      exists_and_left, exists_eq_left]
  | changeValue uid name v r =>
    simp only [stampsFor, claimsFor, List.mem_ite_nil_right, List.mem_singleton, Prod.mk.injEq,
      exists_and_left, exists_eq_left]
  | move dst src v rDst rSrc =>
    simp only [stampsFor, claimsFor, List.mem_append, List.mem_ite_nil_right, List.mem_singleton,
      Prod.mk.injEq, exists_or, exists_and_left, exists_eq_left]

theorem TreeMsg.insertsAt_eq_some_iff {m : TreeMsg} {j : Sds} {t : VC} :
    m.insertsAt j = some t ↔ (true, t) ∈ m.claimsFor j := by
  cases m with
  | insert name parent uid rp r => simpa [insertsAt, claimsFor] using fun _ => eq_comm
  | create => simp [insertsAt, claimsFor]
  | delete uid r => simp [insertsAt, claimsFor]
  | changeValue uid name v r => simp [insertsAt, claimsFor]
  | move dst src v rDst rSrc => simp [insertsAt, claimsFor]

theorem summary_foldl_receive {E : Set (Entry (ℕ → ℤ) ℤ)} {h : Reh}
    (hs : Summary 0 (-1) E h.register) {cs : List (Bool × VC)}
    (hsize : ∀ c ∈ cs, c.2.size = h.current.size) (hid : ∀ c ∈ cs, 0 ≤ c.2.id) :
    Summary 0 (-1) (E ∪ {en | ∃ c ∈ cs, en = c.2.toEntry c.1})
      (cs.foldl (fun h c => h.receive c.1 c.2) h).register := by
  induction cs generalizing E h with
  | nil => simpa using hs
  | cons c cs ih =>
    have hlt : -1 < c.2.id := lt_of_lt_of_le (by decide) (hid c (by simp))
    have hstep : Summary 0 (-1) (insert (c.2.toEntry c.1) E) (h.receive c.1 c.2).register := by
      rw [Reh.register_receive (hsize c (by simp))]
      exact hs.receive _ hlt
    have hrec := ih hstep
      (fun c' hc' => by rw [Reh.size_receive]; exact hsize c' (by simp [hc']))
      fun c' hc' => hid c' (by simp [hc'])
    have hset : E ∪ {en | ∃ c' ∈ c :: cs, en = c'.2.toEntry c'.1} =
        insert (c.2.toEntry c.1) E ∪ {en | ∃ c' ∈ cs, en = c'.2.toEntry c'.1} := by
      ext en
      simp only [Set.mem_union, Set.mem_insert_iff, Set.mem_ofPred_eq, List.exists_mem_cons_iff]
      tauto
    rw [hset]
    exact hrec

/-! ### Runs -/

section

variable {N : ℕ} {iter : Fin N → Iteration} {nul : Fin N → NullOps}
  {C : Cond (Fin N) TreeHT TreeCall TreeMsg} {g g' : Net (Fin N) TreeHT TreeMsg}

/-- What the events of a list say about the header of one node. -/
def headerEntries (A : List (TreeEvent N)) (j : Sds) : Set (Entry (ℕ → ℤ) ℤ) :=
  {en | ∃ e ∈ A, ∃ c ∈ e.msg.claimsFor j, en = c.2.toEntry c.1}

theorem headerEntries_concat (A : List (TreeEvent N)) (e : TreeEvent N)
    (j : Sds) : headerEntries (A ++ [e]) j =
      headerEntries A j ∪ {en | ∃ c ∈ e.msg.claimsFor j, en = c.2.toEntry c.1} := by
  ext en
  simp only [headerEntries, List.mem_append, List.mem_singleton, Set.mem_union, Set.mem_ofPred_eq]
  constructor
  · rintro ⟨e', he' | rfl, hc⟩
    · exact .inl ⟨e', he', hc⟩
    · exact .inr hc
  · rintro (⟨e', he', hc⟩ | hc)
    · exact ⟨e', .inl he', hc⟩
    · exact ⟨e, .inr rfl, hc⟩

/-- The headers of a replica that has applied the events `A`. -/
structure HeadersOk (srv : Server) (A : List (TreeEvent N)) (F : Forest) : Prop where
  kept : ∀ j, (F j).header.current.Kept srv
  summary : ∀ j, j ≠ rootId → Summary 0 (-1) (headerEntries A j) (F j).header.register

theorem headersOk_empty (srv : Server) :
    HeadersOk (N := N) srv [] (TreeHT.node srv .empty) where
  kept _ := (rtnShape_rtnNew srv).current
  summary j _ := by
    have hnone : headerEntries ([] : List (TreeEvent N)) j = ∅ := by
      simp [headerEntries]
    rw [hnone, TreeHT.node_empty, show (rtnNew srv).header = rehInit srv from rfl,
      Reh.register_rehInit]
    exact summary_empty _ _

theorem HeadersOk.effect (srv' : Server) {srv : Server} {A : List (TreeEvent N)}
    {ht : TreeHT} {e : TreeEvent N} {nul : NullOps} (h : HeadersOk srv A (ht.node srv))
    (hcount : srv'.p2pCount = srv.p2pCount) (hid : 0 ≤ srv'.p2pId)
    (he : ∀ j, ∀ t ∈ e.msg.stampsFor j, t.Kept srv') :
    HeadersOk srv (A ++ [e]) ((treeEffectNull nul srv ht e.msg).node srv) where
  kept j := by
    rw [header_treeEffectNull, TreeMsg.current_onHeader]
    exact ⟨(Reh.size_foldl_rmv _ _).trans (h.kept j).size,
      (Reh.id_foldl_rmv _ _).trans (h.kept j).id⟩
  summary j hj := by
    have hkept : ∀ c ∈ e.msg.claimsFor j, c.2.Kept srv' := fun c hc =>
      he j c.2 (TreeMsg.mem_stampsFor_iff.mpr ⟨c.1, hc⟩)
    rw [header_treeEffectNull, TreeMsg.onHeader_eq_foldl hj, headerEntries_concat]
    refine summary_foldl_receive (h.summary j hj) (fun c hc => ?_) fun c hc => ?_
    · rw [(hkept c hc).size, hcount, (h.kept j).size]
    · rw [(hkept c hc).id]
      exact hid

theorem Accepts.kept {srv : Server} {ht : TreeHT} {fuel : ℕ} {cmd : TreeCmd} {m : TreeMsg}
    (hacc : Accepts srv ht fuel cmd m) (h : ∀ j, (ht.node srv j).header.current.Kept srv)
    (j : Sds) : ∀ t ∈ m.stampsFor j, t.Kept srv := by
  intro t ht'
  cases hacc with
  | create => simp [TreeMsg.stampsFor] at ht'
  | insert =>
    simp only [TreeMsg.stampsFor, List.mem_append, List.mem_ite_nil_right,
      List.mem_singleton] at ht'
    rcases ht' with ⟨-, rfl⟩ | ⟨-, rfl⟩ <;> exact h _
  | delete =>
    simp only [TreeMsg.stampsFor, List.mem_ite_nil_right, List.mem_singleton] at ht'
    rw [ht'.2]
    exact (h _).nowVC
  | changeValue =>
    simp only [TreeMsg.stampsFor, List.mem_ite_nil_right, List.mem_singleton] at ht'
    rw [ht'.2]
    exact h _
  | move =>
    simp only [TreeMsg.stampsFor, List.mem_append, List.mem_ite_nil_right,
      List.mem_singleton] at ht'
    rcases ht' with ⟨-, rfl⟩ | ⟨-, rfl⟩ <;> exact h _

theorem rwTreeNull_prepare {r : Fin N} {c : TreeCall} {ht ht' : TreeHT} {o : Option TreeMsg}
    (h : (rwTreeNull iter nul).prepare r c ht = some (ht', o)) :
    ht'.node (.of iter r) = ht.node (.of iter r) ∧
      ∀ m ∈ o, Accepts (.of iter r) ht c.fuel c.cmd m := by
  obtain ⟨p, hp, h⟩ := Option.bind_eq_some_iff.mp h
  obtain ⟨rfl, rfl⟩ := Prod.mk.inj (Option.some.inj h)
  have hspec := treePrepare_spec hp
  exact ⟨hspec.node, hspec.msg⟩

/-- **The headers of every run.** -/
theorem headersOk_of_reachable (hg : Reachable (rwTreeNull iter nul) C g) :
    (∀ e ∈ g.log, ∀ j, ∀ t ∈ e.msg.stampsFor j, t.Kept (.of iter e.origin)) ∧
      ∀ r, HeadersOk (.of iter r) (g.applied r) ((g.state r).node (.of iter r)) := by
  refine hg.joint_invariant
    (I := fun r A ht => HeadersOk (.of iter r) A (ht.node (.of iter r)))
    (J := fun e => ∀ j, ∀ t ∈ e.msg.stampsFor j, t.Kept (.of iter e.origin)) ?_ ?_ ?_ ?_ ?_
  · exact fun r => headersOk_empty _
  · simp [OpBased.start]
  · intro g g' r c ht' o _ _ hp ih
    rw [(rwTreeNull_prepare hp).1]
    exact ih
  · intro g g' r c ht' m _ _ hok _ _ hp j
    exact ((rwTreeNull_prepare hp).2 m rfl).kept hok.kept j
  · intro g' r e A ht _ hJ he _ ih
    exact ih.effect (.of iter e.origin) rfl (Int.natCast_nonneg _) (hJ e he)

/-- The header that the events `A` call for. -/
structure HeaderOf (A : List (TreeEvent N)) (j : Sds) (h : Reh) : Prop where
  /-- The clock is the join of the clocks that messages carry for the node. -/
  current : IsLUB (insert 0 {c | ∃ e ∈ A, ∃ t ∈ e.msg.stampsFor j, t.entry = c}) h.current.entry
  /-- The owner is the largest origin of an insert stamped with it, `-1` if there is none. -/
  pid : IsGreatest (insert (-1) {p : ℤ | ∃ e ∈ A, ∃ t, e.msg.insertsAt j = some t ∧
    t.vector = h.current.vector ∧ e.origin.val = p}) h.pid

theorem headerOf_of_reachable (hg : Reachable (rwTreeNull iter nul) C g) (r : Fin N) {j : Sds}
    (hj : j ≠ rootId) :
    HeaderOf (g.applied r) j ((g.state r).node (.of iter r) j).header := by
  obtain ⟨hkept, hok⟩ := headersOk_of_reachable hg
  have w := Reachable.wellFormed hg
  have hsum := (hok r).summary j hj
  set h := ((g.state r).node (.of iter r) j).header
  constructor
  · have hset : {c | ∃ e ∈ g.applied r, ∃ t ∈ e.msg.stampsFor j, t.entry = c} =
        Entry.stamp '' headerEntries (g.applied r) j := by
      ext c
      constructor
      · rintro ⟨e, he, t, ht, rfl⟩
        obtain ⟨claims, hc⟩ := TreeMsg.mem_stampsFor_iff.mp ht
        exact ⟨_, ⟨e, he, _, hc, rfl⟩, rfl⟩
      · rintro ⟨_, ⟨e, he, ⟨claims, t⟩, hc, rfl⟩, rfl⟩
        exact ⟨e, he, t, TreeMsg.mem_stampsFor_iff.mpr ⟨claims, hc⟩, rfl⟩
    rw [hset]
    exact hsum.current
  · have hset : {p : ℤ | ∃ e ∈ g.applied r, ∃ t, e.msg.insertsAt j = some t ∧
        t.vector = h.current.vector ∧ e.origin.val = p} =
        {p | ∃ en ∈ headerEntries (g.applied r) j, en.claims ∧ en.stamp = h.register.current ∧
          en.author = p} := by
      ext p
      constructor
      · rintro ⟨e, he, t, ht, hvec, rfl⟩
        have hc := TreeMsg.insertsAt_eq_some_iff.mp ht
        have hk := hkept e (w.applied_mem he) j t (TreeMsg.mem_stampsFor_iff.mpr ⟨true, hc⟩)
        refine ⟨_, ⟨e, he, _, hc, rfl⟩, rfl, ?_, hk.id⟩
        show t.entry = h.current.entry
        funext i
        rw [VC.entry, VC.entry, hvec]
      · rintro ⟨_, ⟨e, he, ⟨claims, t⟩, hc, rfl⟩, hcl, hst, rfl⟩
        obtain rfl : claims = true := hcl
        have hk := hkept e (w.applied_mem he) j t (TreeMsg.mem_stampsFor_iff.mpr ⟨true, hc⟩)
        refine ⟨e, he, t, TreeMsg.insertsAt_eq_some_iff.mpr hc, ?_, hk.id.symm⟩
        exact VC.vector_eq_of_entry_eq (hk.size.trans ((hok r).kept j).size.symm) hst
    rw [hset]
    exact hsum.owner

theorem HeaderOf.eq_of_same {A A' : List (TreeEvent N)} {j : Sds} {h h' : Reh}
    (hA : ∀ e, e ∈ A ↔ e ∈ A') (hh : HeaderOf A j h) (hh' : HeaderOf A' j h')
    (hsize : h.current.size = h'.current.size) :
    h.current.vector = h'.current.vector ∧ h.pid = h'.pid := by
  have hcur : h.current.vector = h'.current.vector := by
    refine VC.vector_eq_of_entry_eq hsize (hh.current.unique ?_)
    simp only [hA]
    exact hh'.current
  refine ⟨hcur, hh.pid.unique ?_⟩
  simp only [hA, hcur]
  exact hh'.pid

/-- **The headers of the tree converge in any delivery order.** The header of every node but the
root is what `HeaderOf` says of the messages applied. So replicas that have applied the same
messages have the same headers, and agree on which nodes exist. Clocks are unbounded here: in the
code they are exact below `INT_MAX` and for at most `100` replicas. -/
theorem rwTree_headers (hg : Reachable (rwTreeNull iter nul) anyOrder g)
    (hg' : Reachable (rwTreeNull iter nul) anyOrder g') :
    (∀ r j, j ≠ rootId → HeaderOf (g.applied r) j ((g.state r).node (.of iter r) j).header) ∧
    ∀ r r', (∀ e, e ∈ g.applied r ↔ e ∈ g'.applied r') → ∀ j, j ≠ rootId →
      let h := ((g.state r).node (.of iter r) j).header
      let h' := ((g'.state r').node (.of iter r') j).header
      h.current.vector = h'.current.vector ∧ h.pid = h'.pid ∧ (h.Exists ↔ h'.Exists) := by
  refine ⟨fun r j hj => headerOf_of_reachable hg r hj, fun r r' happ j hj => ?_⟩
  have hsize := (((headersOk_of_reachable hg).2 r).kept j).size
  have hsize' := (((headersOk_of_reachable hg').2 r').kept j).size
  obtain ⟨hvec, hpid⟩ := (headerOf_of_reachable hg r hj).eq_of_same happ
    (headerOf_of_reachable hg' r' hj) (hsize.trans hsize'.symm)
  exact ⟨hvec, hpid, by rw [Reh.Exists, Reh.Exists, hpid]⟩

end

/-- Two replicas insert a node concurrently and one of them deletes it, which the other hears of
before it hears of that insert. -/
theorem rwTree_headers_crossing :
    ∃ g, Reachable (rwTreeNull (inOrder 2) fun _ o => o) anyOrder g ∧
      g.appliedIds 0 = [0, 1, 3, 2] ∧ g.appliedIds 1 = [0, 2, 3, 1] ∧
      ((g.state 0).node (.of (inOrder 2) 0) [120]).header.pid = -1 ∧
      ((g.state 0).node (.of (inOrder 2) 0) [120]).header.pid =
        ((g.state 1).node (.of (inOrder 2) 1) [120]).header.pid := by
  obtain ⟨g, hg, h0, h1, hpid⟩ :=
    (rwTreeNull (inOrder 2) fun _ o => o).exists_reachable anyOrder
      (fun g => g.appliedIds 0 = [0, 1, 3, 2] ∧ g.appliedIds 1 = [0, 2, 3, 1] ∧
        ((g.state 0).node (.of (inOrder 2) 0) [120]).header.pid = -1)
      [.client 0 ⟨0, .create⟩, .deliver 1 0, .client 0 ⟨1, .insert [97] rootId [120]⟩,
        .client 1 ⟨1, .insert [98] rootId [120]⟩, .client 1 ⟨1, .delete [120]⟩,
        .deliver 0 3, .deliver 0 2, .deliver 1 1] (by decide)
  have hsame : ∀ e, e ∈ g.applied 0 ↔ e ∈ g.applied 1 :=
    (Reachable.wellFormed hg).mem_applied_congr (by simp [h0, h1]; omega)
  exact ⟨g, hg, h0, h1, hpid, ((rwTree_headers hg hg).2 0 1 hsame [120] (by decide)).2.1⟩

end RemoveWin
