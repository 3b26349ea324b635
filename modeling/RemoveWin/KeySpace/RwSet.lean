import RemoveWin.KeySpace.SetHandlers
import RemoveWin.RwSet.RemoveWins
import RemoveWin.RwSet.Sequential

/-!
# The remove-win set in the key space

`t_rwset.c`, with the table of a set at its key with `_rwsets_` appended. The handlers are those of
`RwSet.Model`, on what a server holds.

As long as no named key is another named key with the suffix, servers do what the replicas of
`rwSet` do, so they converge and removes win. Without that they need not: a set at the key of
another set's table is given the members of that other set.

## Main results

* `RemoveWin.rwFamily_names` — the names that the handlers use
* `RemoveWin.rwServers_convergence`, `rwServers_removeWins` — where names are apart
* `RemoveWin.rwServers_meets_table`, `rwServers_shows_unasked` — where they are not
-/

namespace RemoveWin

open Containers Replicated

/-- `RW_SET_TABLE_SUFFIX`. -/
def rwSuffix : Sds := ofText "_rwsets_"

/-- The commands of the RWF-Set. -/
def rwFamily {N : ℕ} (lim : EncodingLimits) (iter : Fin N → Iteration) :
    Family (Fin N) RObj SetUpdate Reh (List Reply) RwCmd RwMsg where
  lim := lim
  suffix := rwSuffix
  view := RedisObj.asRObj
  update _ := updateSet lim fun _ => false
  prepare r c db := (rwsPrepare (.of iter r) c db).map Prepared.result
  effect r m db := rwsEffect (.of iter r) m db

/-- **Servers that hold RWF-Sets**, with the tables in their key spaces. -/
def rwServers {N : ℕ} (lim : EncodingLimits) (iter : Fin N → Iteration) :
    OpBased (Fin N) (Option (Space Reh)) RwCmd RwMsg := (rwFamily lim iter).object

/-- Beside private tables, the family is the RWF-Set. -/
theorem rwFamily_beside {N : ℕ} (lim : EncodingLimits) (iter : Fin N → Iteration) :
    (rwFamily lim iter).beside = rwSet iter := by
  refine OpBased.ext rfl (funext fun r => funext fun c => funext fun db => ?_) rfl
  exact Option.map_map ..

/-! ### Names -/

section

variable {D D' : Type} [SetTables D Reh] [SetTables D' Reh] {R : D → D' → Prop} {d : D} {d' : D'}
  {srv : Server} {s : Sds}

theorem entryLoop_rel (h : Agrees s R) (hd : R d d') (key out : Sds → Sds)
    (emit : Sds → Reh → Option VC) (xs : List Sds) :
    R (entryLoop srv s key out emit xs d).1 (entryLoop srv s key out emit xs d').1 ∧
      (entryLoop srv s key out emit xs d).2 = (entryLoop srv s key out emit xs d').2 := by
  refine collect_rel _ _ (fun x d d' hd => ?_) xs hd
  obtain ⟨hsame, hnext⟩ := h.get hd (rehInit srv) (key x)
  exact ⟨hnext, by simp only [rwseHTGet, hsame]⟩

omit [SetTables D Reh] [SetTables D' Reh] in
theorem rwsFinish_rel {r : D × List RwEntry} {r' : D' × List RwEntry}
    (h : R r.1 r'.1 ∧ r.2 = r'.2) (isAdd : Bool) (replies : List Reply) (refusal : Reply) :
    Prepared.Same R (fun m => m.setName = s) (rwsFinish isAdd s replies refusal r)
      (rwsFinish isAdd s replies refusal r') := by
  rw [rwsFinish, rwsFinish, h.2]
  split_ifs
  · exact .refused h.1 _
  · exact .accepted h.1 _ rfl

theorem rwsPrepare_rel {c : RwCmd} (h : Agrees c.plain.target R) (hd : R d d')
    (hview : ∀ k ∈ c.plain.named, Tables.view d k = Tables.view d' k) :
    Option.Rel (Prepared.Same R fun m => m.setName = c.plain.target) (rwsPrepare srv c d)
      (rwsPrepare srv c d') := by
  cases c with
  | add key members =>
    rw [rwsPrepare, rwsPrepare, rwsaddPrepare, rwsaddPrepare, hview key List.mem_cons_self]
    cases Tables.view d' key with
    | none => exact .some (rwsFinish_rel (entryLoop_rel h hd ..) ..)
    | some obj =>
      cases obj with
      | set o => exact .some (rwsFinish_rel (entryLoop_rel h hd ..) ..)
      | other fields => exact .some (.refused hd _)
  | rem key members =>
    rw [rwsPrepare, rwsPrepare, rwsremPrepare, rwsremPrepare, hview key List.mem_cons_self]
    cases Tables.view d' key with
    | none => exact .some (.refused hd _)
    | some obj =>
      cases obj with
      | set o => exact .some (rwsFinish_rel (entryLoop_rel h hd ..) ..)
      | other fields => exact .some (.refused hd _)
  | unionstore dst src srcs =>
    rw [rwsPrepare, rwsPrepare, rwsunionstorePrepare, rwsunionstorePrepare,
      hview dst List.mem_cons_self,
      sunionResult_congr fun k hk => hview k (List.mem_cons_of_mem dst hk)]
    cases Tables.view d' dst with
    | none => exact .some (.refused hd _)
    | some obj =>
      cases hset : obj.asSet with
      | none =>
        simp only [hset]
        split_ifs
        · exact .some (.refused hd _)
        · exact .none
      | some o =>
        simp only [hset]
        exact .some (rwsFinish_rel (entryLoop_rel h hd ..) ..)
  | diffstore dst src srcs =>
    rw [rwsPrepare, rwsPrepare, rwsdiffstorePrepare, rwsdiffstorePrepare,
      hview dst List.mem_cons_self,
      sdiffResult_congr fun k hk => hview k (List.mem_cons_of_mem dst hk)]
    cases Tables.view d' dst with
    | none => exact .some (.refused hd _)
    | some obj =>
      cases sdiffResult srv (Tables.view d') src srcs .empty with
      | none => exact .none
      | some res =>
        cases hset : obj.asSet with
        | none =>
          simp only [hset]
          exact .none
        | some o =>
          simp only [hset]
          exact .some (rwsFinish_rel (entryLoop_rel h hd ..) ..)
  | interstore dst src srcs =>
    rw [rwsPrepare, rwsPrepare, rwsinterstorePrepare, rwsinterstorePrepare,
      hview dst List.mem_cons_self,
      sinterResult_congr fun k hk => hview k (List.mem_cons_of_mem dst hk)]
    cases Tables.view d' dst with
    | none => exact .some (.refused hd _)
    | some obj =>
      cases hset : obj.asSet with
      | none =>
        simp only [hset]
        exact .none
      | some o =>
        simp only [hset]
        exact .some (rwsFinish_rel (entryLoop_rel h hd ..) ..)

theorem setRemoveFunc_rel (h : Agrees s R) (hd : R d d') (e : Reh) (t : VC) (x : Sds) :
    ∃ e' d₁ d₁', setRemoveFunc d e t s x = (e', d₁) ∧ setRemoveFunc d' e t s x = (e', d₁') ∧
      R d₁ d₁' := by
  rw [setRemoveFunc, setRemoveFunc]
  split_ifs
  · exact ⟨_, _, _, rfl, rfl, h.update hd _⟩
  · exact ⟨_, _, _, rfl, rfl, hd⟩

theorem rwsEntry_rel (h : Agrees s R) (hd : R d d') (isAdd : Bool) (en : RwEntry) :
    R (rwsEntry srv isAdd s d en) (rwsEntry srv isAdd s d' en) := by
  obtain ⟨e, d₁, d₁', hget, hget', hgot⟩ := h.exists_get hd (rehInit srv) en.member
  obtain ⟨e', d₂, d₂', hrem, hrem', hnext⟩ := setRemoveFunc_rel h hgot e en.clock en.member
  cases isAdd with
  | true =>
    simp only [rwsEntry, if_true, saddEntry, rwseHTGet, hget, hget', hrem, hrem']
    split_ifs
    · exact h.put (h.update hnext _) _ _
    · exact h.put hnext _ _
  | false =>
    simp only [rwsEntry, Bool.false_eq_true, if_false, sremEntry, rwseHTGet, hget, hget', hrem,
      hrem']
    exact h.put hnext _ _

theorem rwsEffect_rel {m : RwMsg} (h : Agrees m.setName R) (hd : R d d') :
    R (rwsEffect srv m d) (rwsEffect srv m d') := by
  rw [rwsEffect, rwsEffect]
  split_ifs
  · exact hd
  · exact List.foldl_rel (h.update hd _) fun en _ _ _ hd => rwsEntry_rel h hd m.isAdd en

end

theorem rwFamily_names {N : ℕ} (lim : EncodingLimits) (iter : Fin N → Iteration) :
    (rwFamily lim iter).Names (fun c => c.plain.named) (fun c => c.plain.target) RwMsg.setName where
  mem c := c.plain.target_mem_named
  prepare _ _ h hd hview := rel_map_result (rwsPrepare_rel h hd hview)
  effect _ _ h hd := rwsEffect_rel h hd

/-! ### Runs whose names are apart -/

section

variable {N : ℕ} {lim : EncodingLimits} {iter : Fin N → Iteration} {S : Set Sds}

theorem rwServers_simulates (hS : Apart rwSuffix S) :
    Simulates (rwServers lim iter) (rwSet iter)
      (fun _ => SetsHeld rwSuffix S)
      (fun c => c.plain.NamedIn S) (fun m => m.setName ∈ S) := by
  rw [← rwFamily_beside lim]
  exact (rwFamily_names lim iter).simulates hS fun _ => updateSet_keeps_plain lim _

theorem readSets_header {s : Option (Space Reh)} {db : RwDb}
    (h : SetsHeld rwSuffix S s db) (srv : Server) (n x : Sds) :
    (readSets rwSuffix s).header srv n x = db.header srv n x := by
  rw [Db.header, Db.header, Db.elem, Db.elem, h.elems_eq]

variable {S' : Set Sds} {g g' : Net (Fin N) (Option (Space Reh)) RwMsg}

/-- **Strong eventual convergence of the RWF-Set**, in runs whose names are apart. All servers are
up. Two that have applied the same messages, at the same or at different moments and in any orders,
have for every set and member the same header and the same visibility; and at every server a member
is visible exactly when its header has an owner. A header that was never created reads as a fresh
one. The counters of clocks are unbounded integers: in the code they are exact below `INT_MAX` and
for at most `100` replicas. -/
theorem rwServers_convergence (hS : Apart rwSuffix S) (hS' : Apart rwSuffix S')
    (hg : Reachable (rwServers lim iter) (asking fun c => c.plain.NamedIn S) g)
    (hg' : Reachable (rwServers lim iter) (asking fun c => c.plain.NamedIn S') g') :
    (∀ r, (g.state r).isSome) ∧
    (∀ r r', (∀ e, e ∈ g.applied r ↔ e ∈ g'.applied r') → ∀ s x,
      ((readSets rwSuffix (g.state r)).header (.of iter r) s x).pid =
        ((readSets rwSuffix (g'.state r')).header (.of iter r') s x).pid ∧
      ((readSets rwSuffix (g.state r)).header (.of iter r) s x).current.vector =
        ((readSets rwSuffix (g'.state r')).header (.of iter r') s x).current.vector ∧
      (x ∈ (readSets rwSuffix (g.state r)).keys.visible s ↔
        x ∈ (readSets rwSuffix (g'.state r')).keys.visible s)) ∧
    ∀ r s x, x ∈ (readSets rwSuffix (g.state r)).keys.visible s ↔
      0 ≤ ((readSets rwSuffix (g.state r)).header (.of iter r) s x).pid := by
  obtain ⟨h, hh, hcorr⟩ := (rwServers_simulates hS).exists_net (D := anyOrder) id
    (fun _ _ _ => trivial) hg
  obtain ⟨h', hh', hcorr'⟩ := (rwServers_simulates hS').exists_net (D := anyOrder) id
    (fun _ _ _ => trivial) hg'
  obtain ⟨hsame, howner⟩ := rwSet_convergence hh hh'
  refine ⟨fun r => (hcorr.state r).isSome, fun r r' happ s x => ?_, fun r s x => ?_⟩
  · rw [← hcorr.applied, ← hcorr'.applied] at happ
    simp only [Up.visible_eq (hcorr.state r), Up.visible_eq (hcorr'.state r'),
      readSets_header (hcorr.state r), readSets_header (hcorr'.state r')]
    exact hsame r r' happ s x
  · rw [Up.visible_eq (hcorr.state r), readSets_header (hcorr.state r)]
    exact howner r s x

/-- Two servers remove one member concurrently and learn of each other's remove afterwards. -/
theorem rwServers_convergence_crossing :
    ∃ g, Reachable (rwServers {} (inOrder 2))
        (asking fun c => c.plain.NamedIn {k | k ∈ [ofText "s"]}) g ∧
      g.appliedIds 0 = [0, 1, 2] ∧ g.appliedIds 1 = [0, 2, 1] ∧
      ∀ s x, x ∈ (readSets rwSuffix (g.state 0)).keys.visible s ↔
        x ∈ (readSets rwSuffix (g.state 1)).keys.visible s := by
  obtain ⟨g, hg, h0, h1⟩ := (rwServers {} (inOrder 2)).exists_reachable
    (asking fun c => c.plain.NamedIn {k | k ∈ [ofText "s"]})
    (fun g => g.appliedIds 0 = [0, 1, 2] ∧ g.appliedIds 1 = [0, 2, 1])
    [.client 0 (.add (ofText "s") [ofText "a"]), .deliver 1 0,
      .client 0 (.rem (ofText "s") [ofText "a"]), .client 1 (.rem (ofText "s") [ofText "a"]),
      .deliver 1 1, .deliver 0 2] (by decide)
  have hsame : ∀ e, e ∈ g.applied 0 ↔ e ∈ g.applied 1 :=
    (Reachable.wellFormed hg).mem_applied_congr (by simp [h0, h1, or_comm])
  have hS : Apart rwSuffix {k | k ∈ [ofText "s"]} := by decide
  exact ⟨g, hg, h0, h1, fun s x =>
    ((rwServers_convergence hS hS hg hg).2.1 0 1 hsame s x).2.2⟩

/-- **A set at the key of a table.** `RWFSADD s_rwsets_ y` makes a set at the key where the table of
`s` is kept, so with `RWFSADD s x` the member `x` gets into that set, and it has no owner there. A
server that applies the two messages in the other order finds a hash where it looks for a set, and
dies. -/
theorem rwServers_meets_table :
    ∃ g, Reachable (rwServers {} (inOrder 2)) anyOrder g ∧
      g.appliedIds 0 = [0, 1] ∧ g.appliedIds 1 = [1, 0] ∧
      ofText "x" ∈ (readSets rwSuffix (g.state 0)).keys.visible (ofText "s_rwsets_") ∧
      ((readSets rwSuffix (g.state 0)).header (.of (inOrder 2) 0) (ofText "s_rwsets_")
        (ofText "x")).pid < 0 ∧
      g.state 1 = none := by
  obtain ⟨g, hg, h0, h1, hx, hpid, hdead⟩ :=
    (rwServers {} (inOrder 2)).exists_reachable anyOrder
      (fun g => g.appliedIds 0 = [0, 1] ∧ g.appliedIds 1 = [1, 0] ∧
        ofText "x" ∈ (readSets rwSuffix (g.state 0)).keys.visible (ofText "s_rwsets_") ∧
        ((readSets rwSuffix (g.state 0)).header (.of (inOrder 2) 0)
          (ofText "s_rwsets_") (ofText "x")).pid < 0 ∧ (g.state 1).isNone)
      [.client 0 (.add (ofText "s_rwsets_") [ofText "y"]),
        .client 0 (.add (ofText "s") [ofText "x"]), .deliver 1 1, .deliver 1 0]
      (by decide)
  exact ⟨g, hg, h0, h1, hx, hpid, Option.isNone_iff_eq_none.mp hdead⟩

/-- **Remove wins**, in runs whose names are apart. Once every message has been applied everywhere,
a member is visible at a server exactly when some add of it was issued whose origin, when preparing
it, knew every remove of that member in the whole run. Clocks are unbounded here: in the code they
are exact below `INT_MAX` and for at most `100` replicas. -/
theorem rwServers_removeWins (hS : Apart rwSuffix S)
    (hg : Reachable (rwServers lim iter)
      (asking fun c => c.plain.NamedIn S ∧ ∀ x ∈ c.members, NulFree x) g)
    (hd : Delivered g) (r : Fin N) (s x : Sds) :
    x ∈ (readSets rwSuffix (g.state r)).keys.visible s ↔
      ∃ a ∈ g.log, a.msg.Adds s x ∧
        ∀ m ∈ g.log, m.msg.Removes s x → Knows (fun e => e.msg.Mentions s x) m a.deps := by
  obtain ⟨h, hh, hcorr⟩ := (rwServers_simulates hS).exists_net (D := nulFreeMembers)
    (fun {_ a _} ha => by
      cases a with
      | client r c => exact ha.1
      | deliver r i => trivial)
    (fun {_ a _ _ _} _ _ ha => by
      cases a with
      | client r c => exact ha.2
      | deliver r i => trivial) hg
  have hd' : Delivered h := hcorr.delivered_iff.mpr hd
  rw [Up.visible_eq (hcorr.state r), rwSet_removeWins hh hd', hcorr.log]

/-- A member is added at server `0`, removed at server `1`, and added again at server `0` once it
has learnt of the remove. -/
theorem rwServers_removeWins_readd :
    ∃ g, Reachable (rwServers {} (inOrder 2))
        (asking fun c => c.plain.NamedIn {k | k ∈ [ofText "s"]} ∧ ∀ x ∈ c.members, NulFree x) g ∧
      Delivered g ∧ (∃ m ∈ g.log, m.msg.isAdd = false) ∧
      ∃ a ∈ g.log, a.msg.Adds (ofText "s") (ofText "a") ∧
        ∀ m ∈ g.log, m.msg.Removes (ofText "s") (ofText "a") →
          Knows (fun e => e.msg.Mentions (ofText "s") (ofText "a")) m a.deps := by
  obtain ⟨g, hg, hids, hrem, hvis⟩ := (rwServers {} (inOrder 2)).exists_reachable
    (asking fun c => c.plain.NamedIn {k | k ∈ [ofText "s"]} ∧ ∀ x ∈ c.members, NulFree x)
    (fun g => (∀ r, ∀ i < g.log.length, i ∈ g.appliedIds r) ∧
      (∃ m ∈ g.log, m.msg.isAdd = false) ∧
      ofText "a" ∈ (readSets rwSuffix (g.state 1)).keys.visible (ofText "s"))
    [.client 0 (.add (ofText "s") [ofText "a"]), .deliver 1 0,
      .client 1 (.rem (ofText "s") [ofText "a"]), .deliver 0 1,
      .client 0 (.add (ofText "s") [ofText "a"]), .deliver 1 2] (by decide)
  have hd : Delivered g := (Reachable.wellFormed hg).delivered_of_ids hids
  exact ⟨g, hg, hd, hrem, (rwServers_removeWins (by decide) hg hd 1 _ _).mp hvis⟩

instance (m : RwMsg) (s x : Sds) : Decidable (m.Adds s x) :=
  inferInstanceAs (Decidable (m.isAdd = true ∧ m.setName = s ∧ ∃ en ∈ m.entries, en.member = x))

/-- **A member that nobody added.** After `RWFSADD s_rwsets_ y` and `RWFSADD s x` the member `x` is
visible in the set `s_rwsets_`. -/
theorem rwServers_shows_unasked :
    ∃ g, Reachable (rwServers {} (inOrder 1))
        (asking fun c => ∀ x ∈ c.members, NulFree x) g ∧
      Delivered g ∧ ofText "x" ∈ (readSets rwSuffix (g.state 0)).keys.visible (ofText "s_rwsets_") ∧
      ∀ a ∈ g.log, ¬ a.msg.Adds (ofText "s_rwsets_") (ofText "x") := by
  obtain ⟨g, hg, hids, hx, hlog⟩ := (rwServers {} (inOrder 1)).exists_reachable
    (asking fun c => ∀ x ∈ c.members, NulFree x)
    (fun g => (∀ r, ∀ i < g.log.length, i ∈ g.appliedIds r) ∧
      ofText "x" ∈ (readSets rwSuffix (g.state 0)).keys.visible (ofText "s_rwsets_") ∧
      ∀ a ∈ g.log, ¬ a.msg.Adds (ofText "s_rwsets_") (ofText "x"))
    [.client 0 (.add (ofText "s_rwsets_") [ofText "y"]),
      .client 0 (.add (ofText "s") [ofText "x"])] (by decide)
  exact ⟨g, hg, (Reachable.wellFormed hg).delivered_of_ids hids, hx, hlog⟩

end

end RemoveWin
