import RemoveWin.KeySpace.ZsetHandlers
import RemoveWin.RzSet.Convergence

/-!
# The remove-win priority queue in the key space

`t_rzset.c`, with the table of a queue at its key with `_rzets_` appended. The handlers are those of
`RzSet.Model`, on what a server holds.

As long as no named key is another named key with the suffix, servers do what the replicas of
`rzSet` do. Without that, a queue at the key of another queue's table is given the elements of that
other queue, with scores read from the bytes of pointers.

## Main results

* `RemoveWin.rzFamily_names` — the names that the handlers use
* `RemoveWin.rzServers_convergence` — where names are apart
* `RemoveWin.rzServers_meets_table` — where they are not
-/

namespace RemoveWin

open Containers Replicated

/-- `RW_RPQ_TABLE_SUFFIX`. -/
def rzSuffix : Sds := ofText "_rzets_"

/-- The queue that a command names. -/
def RzCmd.key : RzCmd → Sds
  | .add key _ _ _ => key
  | .incrby key _ _ _ => key
  | .rem key _ _ => key

section

variable {N : ℕ} (lim : EncodingLimits) (read : Sds → ℚ) (iter : Fin N → Iteration)

/-- The commands of the remove-win priority queue. -/
def rzFamily : Family (Fin N) ZObj ZsetUpdate Rze ZReply RzCmd RzMsg where
  lim := lim
  suffix := rzSuffix
  view := RedisObj.asZObj read
  update _ _ := updateZset lim read
  prepare r c db := some (rzPrepare (.of iter r) c db).result
  effect r m db := rzEffect (.of iter r) m db

/-- **Servers that hold such queues**, with the tables in their key spaces. -/
def rzServers : OpBased (Fin N) (Option (Space Rze)) RzCmd RzMsg := (rzFamily lim read iter).object

/-- Beside private tables, the family is that of the queues. -/
theorem rzFamily_beside : (rzFamily lim read iter).beside = rzSet iter := rfl

end

/-! ### Names -/

section

variable {D D' : Type} [ZsetTables D Rze] [ZsetTables D' Rze] {R : D → D' → Prop} {d : D} {d' : D'}
  {srv : Server}

theorem rzPrepare_rel {c : RzCmd} (h : Agrees c.key R) (hd : R d d')
    (hview : Tables.view d c.key = Tables.view d' c.key) :
    ZPrepared.Same R (fun m => m.key = c.key) (rzPrepare srv c d) (rzPrepare srv c d') := by
  cases c with
  | add key element value more =>
    replace h : Agrees key R := h
    replace hview : Tables.view d key = Tables.view d' key := hview
    simp only [rzPrepare, rzaddPrepare, checkArgcAndZsetType_congr hview]
    cases checkArgcAndZsetType (Tables.view d') key more with
    | some reply => exact .refused hd _
    | none =>
      cases value with
      | none => exact .refused hd _
      | some v =>
        obtain ⟨e, d₁, d₁', hget, hget', hnext⟩ := h.exists_get hd (rzeNew srv) element
        simp only [rzeHTGet, hget, hget']
        split_ifs
        · exact .refused hnext _
        · exact .accepted hnext rfl
  | incrby key element value more =>
    replace h : Agrees key R := h
    replace hview : Tables.view d key = Tables.view d' key := hview
    simp only [rzPrepare, rzincrbyPrepare, checkArgcAndZsetType_congr hview]
    cases checkArgcAndZsetType (Tables.view d') key more with
    | some reply => exact .refused hd _
    | none =>
      cases value with
      | none => exact .refused hd _
      | some v =>
        obtain ⟨o, d₁, d₁', hfind, hfind', hnext⟩ := h.exists_find hd element
        rw [hfind, hfind']
        cases o with
        | none => exact .refused hnext _
        | some e =>
          dsimp only
          split_ifs
          · exact .accepted hnext rfl
          · exact .refused hnext _
  | rem key element more =>
    replace h : Agrees key R := h
    replace hview : Tables.view d key = Tables.view d' key := hview
    simp only [rzPrepare, rzremPrepare, checkArgcAndZsetType_congr hview]
    cases checkArgcAndZsetType (Tables.view d') key more with
    | some reply => exact .refused hd _
    | none =>
      obtain ⟨o, d₁, d₁', hfind, hfind', hnext⟩ := h.exists_find hd element
      rw [hfind, hfind']
      cases o with
      | none => exact .refused hnext _
      | some e =>
        dsimp only
        split_ifs
        · exact .accepted hnext rfl
        · exact .refused hnext _

theorem removeFunc_rel {s : Sds} (h : Agrees s R) (hd : R d d') (e : Rze) (t : VC) (x : Sds) :
    ∃ e' d₁ d₁', removeFunc d e t s x = (e', d₁) ∧ removeFunc d' e t s x = (e', d₁') ∧
      R d₁ d₁' := by
  rw [removeFunc, removeFunc]
  split_ifs
  · exact ⟨_, _, _, rfl, rfl, h.update hd _⟩
  · exact ⟨_, _, _, rfl, rfl, hd⟩

theorem rzEffect_rel {m : RzMsg} (h : Agrees m.key R) (hd : R d d') :
    R (rzEffect srv m d) (rzEffect srv m d') := by
  obtain ⟨e, d₁, d₁', hget, hget', hgot⟩ := h.exists_get hd (rzeNew srv) m.element
  obtain ⟨e', d₂, d₂', hrem, hrem', hnext⟩ := removeFunc_rel h hgot e m.clock m.element
  simp only [rzEffect, rzeHTGet, hget, hget', hrem, hrem']
  cases m.op with
  | add v =>
    dsimp only
    split_ifs
    · exact h.update (h.put hnext _ _) _
    · exact h.put hnext _ _
  | incrby v =>
    dsimp only
    split_ifs
    · exact h.update (h.put hnext _ _) _
    · exact h.put hnext _ _
  | rem => exact h.put hnext _ _

end

section

variable {N : ℕ} {lim : EncodingLimits} {read : Sds → ℚ} {iter : Fin N → Iteration} {S S' : Set Sds}

theorem rzFamily_names :
    (rzFamily lim read iter).Names (fun c => [c.key]) RzCmd.key RzMsg.key where
  mem c := List.mem_singleton_self c.key
  prepare _ c h hd hview := .some (rzPrepare_rel h hd (hview c.key (List.mem_singleton_self _)))
  effect _ _ h hd := rzEffect_rel h hd

/-! ### Runs whose names are apart -/

theorem readZsets_rze {s : Option (Space Rze)} {db : RzDb}
    (h : ZsetsHeld read rzSuffix S s db) (srv : Server) (n x : Sds) :
    (readZsets read rzSuffix s).rze srv n x = db.rze srv n x := by
  rw [Db.rze, Db.rze, Db.elem, Db.elem, h.zelems_eq]

variable {g g' : Net (Fin N) (Option (Space Rze)) RzMsg}

theorem exists_rzSet_net (hS : Apart rzSuffix S)
    (hg : Reachable (rzServers lim read iter) (asking fun c => c.key ∈ S) g) :
    ∃ h, Reachable (rzSet iter) anyOrder h ∧
      Corresponds (fun _ => ZsetsHeld read rzSuffix S) g h := by
  rw [← rzFamily_beside lim read]
  refine (rzFamily_names.simulates hS fun _ => updateZset_keeps lim read).exists_net ?_
    (fun _ _ _ => trivial) hg
  intro g a g₁ ha
  cases a with
  | client r c => exact List.forall_mem_singleton.mpr ha
  | deliver r i => trivial

/-- **The remove-win priority queue converges in any delivery order**, in runs whose names are
apart. All servers are up. The state of a server is a function of the set of messages applied: what
it keeps for each element is what `RzElement` says. So servers that have applied the same messages
agree on every element, and once everything has been delivered an element is in the sorted set
exactly when it has an owner. Scores are rationals, and the counters of clocks are unbounded
integers: in the code they are exact below `INT_MAX` and for at most `100` replicas. -/
theorem rzServers_convergence (hS : Apart rzSuffix S) (hS' : Apart rzSuffix S')
    (hg : Reachable (rzServers lim read iter) (asking fun c => c.key ∈ S) g)
    (hg' : Reachable (rzServers lim read iter) (asking fun c => c.key ∈ S') g') :
    (∀ r, (g.state r).isSome) ∧
    (∀ r s x, RzElement (g.applied r) s x
      ((readZsets read rzSuffix (g.state r)).rze (.of iter r) s x)
      ((readZsets read rzSuffix (g.state r)).keys.score s x)) ∧
    (∀ r r', (∀ d, d ∈ g.applied r ↔ d ∈ g'.applied r') → ∀ s x,
      let e := (readZsets read rzSuffix (g.state r)).rze (.of iter r) s x
      let e' := (readZsets read rzSuffix (g'.state r')).rze (.of iter r') s x
      e.header.current.vector = e'.header.current.vector ∧ e.header.pid = e'.header.pid ∧
        e.innate = e'.innate ∧ e.acquired = e'.acquired ∧
        (readZsets read rzSuffix (g.state r)).keys.score s x =
          (readZsets read rzSuffix (g'.state r')).keys.score s x) ∧
    (Delivered g → ∀ r s x, ((readZsets read rzSuffix (g.state r)).keys.score s x).isSome ↔
      0 ≤ ((readZsets read rzSuffix (g.state r)).rze (.of iter r) s x).header.pid) := by
  obtain ⟨h, hh, hcorr⟩ := exists_rzSet_net hS hg
  obtain ⟨h', hh', hcorr'⟩ := exists_rzSet_net hS' hg'
  have hconv := rzSet_convergence hh hh'
  simp only [Delivered, hcorr.applied, hcorr'.applied, hcorr.log] at hconv
  simp only [fun r => Up.score_eq (hcorr.state r),
    fun r => Up.score_eq (hcorr'.state r), fun r => readZsets_rze (hcorr.state r),
    fun r => readZsets_rze (hcorr'.state r)]
  exact ⟨fun r => (hcorr.state r).isSome, hconv⟩

end

instance (names : List Sds) (c : RzCmd) : Decidable (c.key ∈ {k | k ∈ names}) :=
  inferInstanceAs (Decidable (c.key ∈ names))

/-- Server 0 adds an element and increases it; server 1 gets the increment before the add. -/
theorem rzServers_convergence_crossing :
    ∃ g, Reachable (rzServers {} 0 (inOrder 2))
        (asking fun c => c.key ∈ {k | k ∈ [ofText "s"]}) g ∧
      g.appliedIds 0 = [0, 1] ∧ g.appliedIds 1 = [1, 0] ∧
      (readZsets 0 rzSuffix (g.state 0)).keys.score (ofText "s") (ofText "a") = some 5 ∧
      (readZsets 0 rzSuffix (g.state 0)).keys.score (ofText "s") (ofText "a") =
        (readZsets 0 rzSuffix (g.state 1)).keys.score (ofText "s") (ofText "a") := by
  obtain ⟨g, hg, h0, h1, hscore⟩ := (rzServers {} 0 (inOrder 2)).exists_reachable
    (asking fun c => c.key ∈ {k | k ∈ [ofText "s"]})
    (fun g => g.appliedIds 0 = [0, 1] ∧ g.appliedIds 1 = [1, 0] ∧
      (readZsets 0 rzSuffix (g.state 0)).keys.score (ofText "s") (ofText "a") = some 5)
    [.client 0 (.add (ofText "s") (ofText "a") (some 2) []),
      .client 0 (.incrby (ofText "s") (ofText "a") (some 3) []), .deliver 1 1, .deliver 1 0]
    (by decide +kernel)
  have hsame : ∀ d, d ∈ g.applied 0 ↔ d ∈ g.applied 1 :=
    (Reachable.wellFormed hg).mem_applied_congr (by simp [h0, h1, or_comm])
  have hS : Apart rzSuffix {k | k ∈ [ofText "s"]} := by decide
  exact ⟨g, hg, h0, h1, hscore,
    ((rzServers_convergence hS hS hg hg).2.2.1 0 1 hsame _ _).2.2.2.2⟩

/-- **A queue at the key of a table.** `RZADD s_rzets_ y 1` makes a sorted set at the key where the
table of `s` is kept, so with `RZADD s x 2` the element `x` gets into that sorted set, where it has
no owner although everything has been delivered. -/
theorem rzServers_meets_table :
    ∃ g, Reachable (rzServers {} 0 (inOrder 1)) anyOrder g ∧ Delivered g ∧
      ((readZsets 0 rzSuffix (g.state 0)).keys.score (ofText "s_rzets_") (ofText "x")).isSome ∧
      ((readZsets 0 rzSuffix (g.state 0)).rze (.of (inOrder 1) 0)
        (ofText "s_rzets_") (ofText "x")).header.pid < 0 ∧
      ∀ d ∈ g.log, ¬ d.msg.On (ofText "s_rzets_") (ofText "x") := by
  obtain ⟨g, hg, hids, hscore, hpid, hlog⟩ :=
    (rzServers {} 0 (inOrder 1)).exists_reachable anyOrder
      (fun g => (∀ r, ∀ i < g.log.length, i ∈ g.appliedIds r) ∧
        ((readZsets 0 rzSuffix (g.state 0)).keys.score (ofText "s_rzets_") (ofText "x")).isSome ∧
        ((readZsets 0 rzSuffix (g.state 0)).rze (.of (inOrder 1) 0)
          (ofText "s_rzets_") (ofText "x")).header.pid < 0 ∧
        ∀ d ∈ g.log, ¬ d.msg.On (ofText "s_rzets_") (ofText "x"))
      [.client 0 (.add (ofText "s_rzets_") (ofText "y") (some 1) []),
        .client 0 (.add (ofText "s") (ofText "x") (some 2) [])] (by decide +kernel)
  exact ⟨g, hg, (Reachable.wellFormed hg).delivered_of_ids hids, hscore, hpid, hlog⟩

end RemoveWin
