import RemoveWin.Tree.Solo

/-!
# The value that is shown

`RWFTREEINSERT` and `RWFTREECHANGEVALUE` give a node a value, and `RWFTREEMEMBERS` shows one. The
clock of the value counts the changes of a node and is kept when the node is deleted. An insert
writes the value only while that clock is zero, so a node that was changed, deleted and inserted
again shows the value it had been changed to.

Beside the table of a replica by itself the run keeps a record of the value that each id was given
by the last accepted command that gave it one. The record is what the table shows if inserts of
changed nodes, those that are accepted, repeat the value the node still has. The root gets its
first value when the tree is created.
-/

namespace RemoveWin

open Replicated Walk Relation Trace

/-! ### Values under effects -/

section

variable {srv : Server} {ht ht' : TreeHT}

/-- What a message does to the value of the node with key `j`. -/
def TreeMsg.onName (j : Sds) (n : Rtn) : TreeMsg → Option Sds
  | .create => if j = rootId then some treeRoot else n.name
  | .insert name _ uid _ _ =>
    if j = sdsnew uid ∧ checkInitVC n.vectorClock then some name else n.name
  | .changeValue uid name v r =>
    if j = sdsnew uid ∧ WritesName { n with header := n.header.rmv r } v r then some name
    else n.name
  | .delete _ _ | .move _ _ _ _ _ => n.name

theorem name_moveLink {dst s : Sds} {v r : VC} (h : moveLink srv dst s v r ht = some ht')
    (j : Sds) : (ht'.node srv j).name = (ht.node srv j).name := by
  rcases moveLink_cases srv ht dst s v r with ⟨-, create, hlink⟩ | ⟨-, hlink⟩
  · obtain ⟨u, -, hnode⟩ := node_reparent (hlink.symm.trans h)
    rw [hnode]
  · rw [Option.some.inj (hlink.symm.trans h)]

/-- **Values**, for any message. -/
theorem treeEffect_name {m : TreeMsg} (h : treeEffect srv ht m = some ht') (j : Sds) :
    (ht'.node srv j).name = m.onName j (ht.node srv j) := by
  cases m with
  | create =>
    cases h
    rw [createEffect, TreeHT.node_modify]
    rcases eq_or_ne j rootId with rfl | hj
    · simp [TreeMsg.onName]
    · simp [TreeMsg.onName, hj]
  | insert name parent uid rp r =>
    obtain ⟨ht₁, h₁, h⟩ := Option.bind_eq_some_iff.mp h
    obtain ⟨ht₂, h₂, h⟩ := Option.bind_eq_some_iff.mp h
    rw [← Option.some.inj h, node_insertOwn]
    show (ht₂.node srv j).name = _
    rw [(frame_tRemFunc h₂ j).2.1, (frame_tRemFunc h₁ j).2.1, node_insertWrite]
    rfl
  | delete uid r =>
    have hname := (frame_tRemFunc h j).2.1
    rwa [TreeHT.node_create] at hname
  | changeValue uid name v r =>
    obtain ⟨ht₁, h₁, h⟩ := Option.bind_eq_some_iff.mp h
    obtain ⟨-, hname, hclock, -⟩ := frame_tRemFunc h₁ j
    have hheader := header_tRemFunc h₁ j
    rw [TreeHT.node_create] at hname hclock hheader
    rw [← Option.some.inj h, TreeHT.node_modify]
    rcases eq_or_ne j (sdsnew uid) with rfl | hj
    · rw [if_pos rfl] at hheader ⊢
      rw [node_changeName]
      simp only [TreeMsg.onName, WritesName, true_and, hname, hclock, hheader]
    · rw [if_neg hj, node_changeName]
      simp only [TreeMsg.onName, hj, false_and, if_false, hname]
  | move dst src v rDst rSrc =>
    obtain ⟨ht₁, h₁, h⟩ := Option.bind_eq_some_iff.mp h
    obtain ⟨ht₂, h₂, h⟩ := Option.bind_eq_some_iff.mp h
    obtain ⟨ht₃, h₃, h⟩ := Option.bind_eq_some_iff.mp h
    have hname : (ht₃.node srv j).name = (ht.node srv j).name := by
      rw [name_moveLink h₃, (frame_tRemFunc h₂ j).2.1, (frame_tRemFunc h₁ j).2.1,
        TreeHT.node_create, TreeHT.node_create]
    rw [← Option.some.inj h, TreeHT.node_modify]
    split
    · next hj =>
      subst hj
      exact hname
    · exact hname

end

/-! ### The record of values -/

/-- The id that a command gives a value to, and the value. The create gives the root its first
value. -/
def TreeCmd.gives : TreeCmd → Option (Sds × Sds)
  | .create => some (rootId, treeRoot)
  | .insert name _ uid => some (uid, name)
  | .changeValue uid name => some (uid, name)
  | .delete _ | .move _ _ => none

/-- The record after an accepted command. -/
def TreeCmd.record (cmd : TreeCmd) (given : Sds → Option Sds) : Sds → Option Sds :=
  cmd.gives.elim given fun g => Function.update given g.1 (some g.2)

/-- A replica by itself, with the value that each id was given last. -/
structure Watched where
  /-- The table, if the server has not crashed. -/
  state : Option TreeHT
  /-- The values. -/
  given : Sds → Option Sds

/-- At first nothing has been given a value. -/
def Watched.start : Watched := ⟨some .empty, fun _ => none⟩

section

variable {N : ℕ} (iter : Fin N → Iteration) (r : Fin N)

/-- A command at a replica by itself, recorded if it is accepted. -/
def watchStep (w : Watched) (c : TreeCall) : Option Watched :=
  (treeStep iter r w.state c).map fun s =>
    { state := s
      given := if w.state.any fun ht => accepts (.of iter r) ht c then c.cmd.record w.given
        else w.given }

/-- Ids and values have no NUL bytes, and an insert finds that the node was never changed or has the
value already. -/
def TreeCmd.Rewrites (F : Forest) : TreeCmd → Prop
  | .insert name _ uid =>
    NulFree uid ∧ NulFree name ∧ (checkInitVC (F uid).vectorClock ∨ (F uid).name = some name)
  | .changeValue uid name => NulFree uid ∧ NulFree name
  | .create | .delete _ | .move _ _ => True

instance (F : Forest) : (cmd : TreeCmd) → Decidable (cmd.Rewrites F)
  | .insert name _ uid => inferInstanceAs (Decidable (NulFree uid ∧ NulFree name ∧
      (checkInitVC (F uid).vectorClock ∨ (F uid).name = some name)))
  | .changeValue uid name => inferInstanceAs (Decidable (NulFree uid ∧ NulFree name))
  | .create | .delete _ | .move _ _ => .isTrue trivial

variable {iter r}

/-- What is there shows what it was given. -/
structure ShowsGiven (srv : Server) (given : Sds → Option Sds) (F : Forest) : Prop where
  /-- Clocks have the shape the server is configured for. -/
  shape : ∀ j, RtnShape srv (F j)
  shows : ∀ j, (F j).header.Exists → ∃ v, NulFree v ∧ given j = some v ∧ (F j).name = some v

theorem TreeCmd.record_apply (cmd : TreeCmd) (given : Sds → Option Sds) (j : Sds) :
    (∃ v, cmd.gives = some (j, v) ∧ cmd.record given j = some v) ∨
      (∀ v, cmd.gives ≠ some (j, v)) ∧ cmd.record given j = given j := by
  cases hg : cmd.gives with
  | none => exact .inr ⟨by simp, by rw [record, hg, Option.elim_none]⟩
  | some g =>
    rw [record, hg, Option.elim_some]
    rcases eq_or_ne j g.1 with rfl | hj
    · exact .inl ⟨g.2, rfl, Function.update_self ..⟩
    · exact .inr ⟨fun v hv => hj (congrArg Prod.fst (Option.some.inj hv)).symm,
        Function.update_of_ne hj ..⟩

section

variable {srv : Server} {fuel : ℕ} {cmd : TreeCmd} {m : TreeMsg} {ht ht₀ ht' : TreeHT}

theorem TreeCmd.Rewrites.nulFree {F : Forest} {x v : Sds} (h : cmd.Rewrites F)
    (hg : cmd.gives = some (x, v)) : NulFree v := by
  cases cmd with
  | create =>
    obtain ⟨-, rfl⟩ := Prod.mk.inj (Option.some.inj hg)
    decide
  | insert =>
    obtain ⟨-, rfl⟩ := Prod.mk.inj (Option.some.inj hg)
    exact h.2.1
  | changeValue =>
    obtain ⟨-, rfl⟩ := Prod.mk.inj (Option.some.inj hg)
    exact h.2
  | delete | move => cases hg

/-- At its origin a message does to values what the command does to the record. -/
theorem onName_of_accepts (hshape : ∀ j, RtnShape srv (ht.node srv j)) (hid : 0 ≤ srv.p2pId)
    (hlt : srv.p2pId.toNat < srv.p2pCount) (hacc : Accepts srv ht fuel cmd m)
    (hcmd : cmd.Rewrites (ht.node srv)) (j : Sds) :
    m.onName j (ht.node srv j) = cmd.record (fun j => (ht.node srv j).name) j := by
  cases hacc with
  | create =>
    show _ = Function.update (fun j => (ht.node srv j).name) rootId (some treeRoot) j
    rw [Function.update_apply]
    rfl
  | @insert name parent uid hp hu =>
    obtain ⟨huid, -, hname⟩ := hcmd
    rw [TreeMsg.onName, sdsnew_of_nulFree huid]
    show _ = Function.update (fun j => (ht.node srv j).name) uid (some name) j
    rcases eq_or_ne j uid with rfl | hj
    · rw [Function.update_self, ite_eq_left_iff]
      exact fun hclock => hname.resolve_left fun hinit => hclock ⟨rfl, hinit⟩
    · rw [Function.update_of_ne hj, if_neg fun h => hj h.1]
  | delete | move => rfl
  | @changeValue uid name hu =>
    rw [TreeMsg.onName, sdsnew_of_nulFree hcmd.1]
    show _ = Function.update (fun j => (ht.node srv j).name) uid (some name) j
    rcases eq_or_ne j uid with rfl | hj
    · have hcalm : (ht.node srv j).header.rmv (ht.node srv j).header.current =
          (ht.node srv j).header := if_neg (not_removeCheck_current _)
      rw [Function.update_self, hcalm]
      exact if_pos ⟨rfl, writesName_self (hshape j) hid hlt⟩
    · rw [Function.update_of_ne hj, if_neg fun h => hj h.1]

theorem exists_of_accepts (hacc : Accepts srv ht fuel cmd m) (hcmd : cmd.Rewrites (ht.node srv))
    {j : Sds} {h : Reh} (hex : (m.onHeader srv j h).Exists) :
    h.Exists ∨ ∃ v, cmd.gives = some (j, v) := by
  refine (TreeMsg.exists_of_onHeader hex).imp_right fun hmakes => ?_
  cases hacc with
  | create =>
    obtain ⟨rfl, -⟩ | ⟨_, _, _, hins, -⟩ := hmakes
    · exact ⟨_, rfl⟩
    · cases hins
  | insert hp hu =>
    obtain ⟨-, hcr⟩ | ⟨_, _, _, hins, hj⟩ := hmakes
    · cases hcr
    · cases hins
      rw [sdsnew_of_nulFree hcmd.1] at hj
      subst hj
      exact ⟨_, rfl⟩
  | delete | changeValue | move =>
    obtain ⟨-, hcr⟩ | ⟨_, _, _, hins, -⟩ := hmakes
    · cases hcr
    · cases hins

/-- **An accepted command** keeps what is shown. -/
theorem ShowsGiven.step {given : Sds → Option Sds} (h : ShowsGiven srv given (ht.node srv))
    (hid : 0 ≤ srv.p2pId) (hlt : srv.p2pId.toNat < srv.p2pCount)
    (hacc : Accepts srv ht fuel cmd m) (hcmd : cmd.Rewrites (ht.node srv))
    (hnode : ht₀.node srv = ht.node srv) (heff : treeEffect srv ht₀ m = some ht') :
    ShowsGiven srv (cmd.record given) (ht'.node srv) := by
  have hframe := treeEffect_frame heff
  have hname := treeEffect_name heff
  rw [hnode] at hframe hname
  refine ⟨fun j => (hframe j).shape (h.shape j), fun j hex => ?_⟩
  rw [(hframe j).header] at hex
  rw [hname, onName_of_accepts h.shape hid hlt hacc hcmd]
  rcases cmd.record_apply given j with ⟨v, hg, hv⟩ | ⟨hnone, hkeep⟩
  · rcases cmd.record_apply (fun j => (ht.node srv j).name) j with ⟨w, hg', hw⟩ | ⟨hnone, -⟩
    · obtain rfl : v = w := congrArg Prod.snd (Option.some.inj (hg.symm.trans hg'))
      exact ⟨v, hcmd.nulFree hg, hv, hw⟩
    · exact absurd hg (hnone v)
  · rcases cmd.record_apply (fun j => (ht.node srv j).name) j with ⟨w, hg, -⟩ | ⟨-, hkeep'⟩
    · exact absurd hg (hnone w)
    · rw [hkeep, hkeep']
      exact h.shows j ((exists_of_accepts hacc hcmd hex).resolve_right fun ⟨v, hv⟩ => hnone v hv)

end

/-- A command that is accepted is recorded, any other changes nothing that is shown. -/
theorem watchStep_shows {ht : TreeHT} {given : Sds → Option Sds} {c : TreeCall} {w : Watched}
    (h : ShowsGiven (.of iter r) given (ht.node (.of iter r)))
    (hc : accepts (.of iter r) ht c → c.cmd.Rewrites (ht.node (.of iter r)))
    (hw : watchStep iter r ⟨some ht, given⟩ c = some w) (ht' : TreeHT) (hst : w.state = some ht') :
    ShowsGiven (.of iter r) w.given (ht'.node (.of iter r)) := by
  obtain ⟨s, hs, rfl⟩ := Option.map_eq_some_iff.mp hw
  obtain ⟨p, hp, rfl⟩ := rwTree_perform hs
  have hspec := treePrepare_spec hp
  by_cases hacc : accepts (.of iter r) ht c
  · obtain ⟨m, hm⟩ := (accepts_iff hp).mp hacc
    rw [hm, Option.elim_some] at hst
    dsimp only
    rw [Option.any_some, if_pos hacc]
    exact h.step (by simp [Server.of]) (by simp [Server.of]) (hspec.msg m hm) (hc hacc) hspec.node
      hst
  · have hm : p.msg = none := by
      rw [Option.eq_none_iff_forall_ne_some]
      exact fun m hm => hacc ((accepts_iff hp).mpr ⟨m, hm⟩)
    rw [hm, Option.elim_none] at hst
    dsimp only
    rw [Option.any_some, if_neg hacc, ← Option.some.inj hst, hspec.node]
    exact h

/-- **What is shown is what was given last**, for a replica by itself, if ids and values have no NUL
bytes and every insert that is accepted is of a node that was never changed or repeats its value.
Clocks are unbounded here: in the code they are exact below `INT_MAX` and for at most `100`
replicas. -/
theorem tree_shows_last_value {calls : List TreeCall}
    (h : Every (watchStep iter r) .start (fun w c => ∀ ht, w.state = some ht →
      accepts (.of iter r) ht c → c.cmd.Rewrites (ht.node (.of iter r))) calls) :
    Throughout (watchStep iter r) .start (fun w => ∀ ht, w.state = some ht →
      ∀ n lines, treeMembers (.of iter r) ht n = some lines →
        ∀ l ∈ lines, w.given l.uid = some l.name) calls := by
  have hall : Throughout (watchStep iter r) .start (fun w => ∀ ht, w.state = some ht →
      ShowsGiven (.of iter r) w.given (ht.node (.of iter r))) calls := by
    refine throughout_of_every ?_ ?_ h
    · intro ht hst
      cases hst
      exact ⟨fun j => rtnShape_rtnNew _, fun j hex => absurd hex (not_exists_rtnNew _)⟩
    · rintro ⟨_ | ht, given⟩ c w' hw hc hstep
      · cases hstep
      · exact watchStep_shows (hw ht rfl) (hc ht rfl) hstep
  intro calls' w hpre hw ht hst n lines hlines l hl
  have hshows := hall calls' w hpre hw ht hst
  obtain ⟨y, hy, -, hyl, hname, -⟩ :=
    (lists_iff hlines l.uid l.name l.parent).mp ⟨l, hl, rfl, rfl, rfl⟩
  rw [hyl] at hname
  have hex := alive_iff.mp hy.end_alive
  rw [hyl] at hex
  obtain ⟨v, hv, hgiven, hn⟩ := hshows.shows l.uid hex
  rw [hgiven, ← hname, hn, sdsnewNull_some, sdsnew_of_nulFree hv]

end

/-- A node is inserted, deleted and inserted again with another value, and then changed. -/
theorem tree_shows_last_value_again :
    ∃ ht given lines, run (watchStep (inOrder 1) 0) .start
        [⟨0, .create⟩, ⟨1, .insert [118] rootId [120]⟩, ⟨1, .delete [120]⟩,
          ⟨1, .insert [119] rootId [120]⟩, ⟨1, .changeValue [120] [117]⟩] =
          some ⟨some ht, given⟩ ∧
      treeMembers (.of (inOrder 1) 0) ht 2 = some lines ∧
      lines.length = 1 ∧ ∀ l ∈ lines, given l.uid = some l.name := by
  set calls : List TreeCall := [⟨0, .create⟩, ⟨1, .insert [118] rootId [120]⟩, ⟨1, .delete [120]⟩,
    ⟨1, .insert [119] rootId [120]⟩, ⟨1, .changeValue [120] [117]⟩] with hcalls
  have hcond : Every (watchStep (inOrder 1) 0) .start (fun w c =>
      ∀ ht ∈ w.state, c.cmd.Rewrites (ht.node (.of (inOrder 1) 0))) calls := by
    decide
  obtain ⟨⟨_, given⟩, hw, ht, rfl, lines, hl, hlen⟩ :
      ∃ w ∈ run (watchStep (inOrder 1) 0) .start calls, ∃ ht ∈ w.state,
        ∃ lines ∈ treeMembers (.of (inOrder 1) 0) ht 2, lines.length = 1 := by
    decide
  exact ⟨ht, given, lines, hw, hl, hlen, tree_shows_last_value
    (hcond.imp fun w c hc ht hst _ => hc ht hst) calls _ List.prefix_rfl hw ht rfl 2 lines hl⟩

/-- A node is changed, deleted and inserted again with another value, which is not shown. -/
theorem tree_shows_old_value :
    ∃ ht given lines, run (watchStep (inOrder 1) 0) .start
        [⟨0, .create⟩, ⟨1, .insert [118] rootId [120]⟩, ⟨1, .changeValue [120] [119]⟩,
          ⟨1, .delete [120]⟩, ⟨1, .insert [117] rootId [120]⟩] = some ⟨some ht, given⟩ ∧
      treeMembers (.of (inOrder 1) 0) ht 2 = some lines ∧
      Lists lines [120] [119] rootId ∧ given [120] = some [117] := by
  obtain ⟨⟨_, given⟩, hw, ht, rfl, lines, hl, hline, hgiven⟩ :
      ∃ w ∈ run (watchStep (inOrder 1) 0) .start
        [⟨0, .create⟩, ⟨1, .insert [118] rootId [120]⟩, ⟨1, .changeValue [120] [119]⟩,
          ⟨1, .delete [120]⟩, ⟨1, .insert [117] rootId [120]⟩], ∃ ht ∈ w.state,
        ∃ lines ∈ treeMembers (.of (inOrder 1) 0) ht 2,
          (∃ l ∈ lines, l.uid = [120] ∧ l.name = [119] ∧ l.parent = rootId) ∧
            w.given [120] = some [117] := by
    decide
  exact ⟨ht, given, lines, hw, hl, hline, hgiven⟩

end RemoveWin
