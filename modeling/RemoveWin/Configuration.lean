import RemoveWin.Lib.Completion
import RemoveWin.RwSet.Convergence
import RemoveWin.RzSet.Convergence
import RemoveWin.Tree.Clocks

/-!
# Servers that are still being configured

A server learns how many replicas there are, and which it is, from its own `REPLICATE`. Until then
`p2p_count` is 0 and `p2p_id` is -1, and clocks are made with these. Updates are executed in
replication mode, which is having a count or having a link: a peer that has been configured first
connects, and from then on this server executes updates of its clients and of the peer with a
configuration it does not have yet.

Here the configuration is part of the state, for any handlers that read it. If a server executes
no update before its own `REPLICATE`, the runs are those of servers that were configured from the
start, so what is known about their clocks holds.
-/

namespace RemoveWin

open Replicated

/-- The handlers of a replicated type, by the configuration they read. -/
structure Handlers (σ Cmd Msg : Type) where
  /-- What a server starts with. -/
  init : σ
  /-- The prepare phases. -/
  prepare : Server → Cmd → σ → Option (σ × Option Msg)
  /-- The effect phases. -/
  effect : Server → Msg → σ → σ

/-- A server: its configuration, its links and its data. -/
structure Configured (σ : Type) where
  /-- `server.p2p_count`. -/
  p2pCount : ℕ
  /-- `server.p2p_id`. -/
  p2pId : ℤ
  /-- `listLength(server.replicas)`. -/
  links : ℕ
  /-- The data. -/
  db : σ

namespace Configured

variable {σ : Type}

/-- The configuration that handlers read. -/
def server (s : Configured σ) (it : Iteration) : Server := ⟨s.p2pCount, s.p2pId, it⟩

/-- `REPLICATION_MODE`. -/
def ReplicationMode (s : Configured σ) : Prop := s.links ≠ 0 ∨ s.p2pCount ≠ 0

instance decidableReplicationMode (s : Configured σ) : Decidable s.ReplicationMode :=
  inferInstanceAs (Decidable (s.links ≠ 0 ∨ s.p2pCount ≠ 0))

end Configured

/-- What arrives at a server from outside of the mesh or opens a link: its own `REPLICATE`, with the
number of peers it connects to, a handshake, or an update of a client. -/
inductive MeshCmd (Cmd : Type) where
  | replicate (peers : ℕ)
  | handshake
  | update (c : Cmd)

section

variable {N : ℕ} {σ Cmd Msg : Type}

namespace Handlers

variable (H : Handlers σ Cmd Msg) (iter : Fin N → Iteration)

/-- The handlers on servers that are configured from the start. -/
def object : OpBased (Fin N) σ Cmd Msg where
  init _ := H.init
  prepare r c s := H.prepare (.of iter r) c s
  effect r m s := H.effect (.of iter r) m s

/-- The handlers on servers that get configured. -/
def mesh : OpBased (Fin N) (Configured σ) (MeshCmd Cmd) Msg where
  init _ := ⟨0, -1, 0, H.init⟩
  prepare r c s :=
    match c with
    | .replicate peers =>
      some ({ s with p2pCount := N, p2pId := r.val, links := s.links + peers }, none)
    | .handshake => some ({ s with links := s.links + 1 }, none)
    | .update c =>
      if s.ReplicationMode then
        (H.prepare (s.server (iter r)) c s.db).map fun p => ({ s with db := p.1 }, p.2)
      else some (s, none)
  effect r m s :=
    if s.ReplicationMode then { s with db := H.effect (s.server (iter r)) m s.db } else s

end Handlers

/-- A server executes no update, and no message of a peer, before its own `REPLICATE`. -/
def afterReplicate : Cond (Fin N) (Configured σ) (MeshCmd Cmd) Msg
  | g, .client r (.update _), _ => (g.state r).p2pCount ≠ 0
  | g, .deliver r _, _ => (g.state r).p2pCount ≠ 0
  | _, _, _ => True

/-- A server receives its own `REPLICATE` at most once, and messages over a link. -/
def meshRuns : Cond (Fin N) (Configured σ) (MeshCmd Cmd) Msg
  | g, .client r (.replicate _), _ => (g.state r).p2pCount = 0
  | g, .deliver r _, _ => (g.state r).links ≠ 0
  | _, _, _ => True

instance decidableAfterReplicate (g : Net (Fin N) (Configured σ) Msg)
    (a : Act (Fin N) (MeshCmd Cmd)) (g' : Net (Fin N) (Configured σ) Msg) :
    Decidable (afterReplicate g a g') :=
  match a with
  | .client r (.update _) => inferInstanceAs (Decidable ((g.state r).p2pCount ≠ 0))
  | .client _ (.replicate _) => isTrue trivial
  | .client _ .handshake => isTrue trivial
  | .deliver r _ => inferInstanceAs (Decidable ((g.state r).p2pCount ≠ 0))

instance decidableMeshRuns (g : Net (Fin N) (Configured σ) Msg)
    (a : Act (Fin N) (MeshCmd Cmd)) (g' : Net (Fin N) (Configured σ) Msg) :
    Decidable (meshRuns g a g') :=
  match a with
  | .client r (.replicate _) => inferInstanceAs (Decidable ((g.state r).p2pCount = 0))
  | .client _ (.update _) => isTrue trivial
  | .client _ .handshake => isTrue trivial
  | .deliver r _ => inferInstanceAs (Decidable ((g.state r).links ≠ 0))

/-- The data of a net, without the configurations. -/
def dataOf (g : Net (Fin N) (Configured σ) Msg) : Net (Fin N) σ Msg :=
  ⟨fun r => (g.state r).db, g.applied, g.log⟩

section

variable {H : Handlers σ Cmd Msg} {iter : Fin N → Iteration}
  {C : Cond (Fin N) (Configured σ) (MeshCmd Cmd) Msg} {g : Net (Fin N) (Configured σ) Msg}

theorem server_of_reachable (h : Reachable (H.mesh iter) C g) (r : Fin N)
    (hcount : (g.state r).p2pCount ≠ 0) : (g.state r).server (iter r) = .of iter r := by
  revert hcount
  refine h.local_invariant
    (I := fun r _ s => s.p2pCount ≠ 0 → s.server (iter r) = .of iter r) ?_ ?_ ?_ r
  · intro r hcount
    exact absurd rfl hcount
  · intro g g' r c s o _ _ hp hI
    cases c with
    | replicate peers =>
      obtain ⟨rfl, -⟩ := Prod.mk.inj (Option.some.inj hp)
      exact fun _ => rfl
    | handshake =>
      obtain ⟨rfl, -⟩ := Prod.mk.inj (Option.some.inj hp)
      exact hI
    | update c =>
      simp only [Handlers.mesh] at hp
      split at hp
      · obtain ⟨p, -, heq⟩ := Option.map_eq_some_iff.mp hp
        obtain ⟨rfl, -⟩ := Prod.mk.inj heq
        exact hI
      · obtain ⟨rfl, -⟩ := Prod.mk.inj (Option.some.inj hp)
        exact hI
  · intro g' r e A s _ _ _ hI
    simp only [Handlers.mesh]
    split
    · exact hI
    · exact hI

theorem prepare_of_update (h : Reachable (H.mesh iter) afterReplicate g)
    {g' : Net (Fin N) (Configured σ) Msg} {r : Fin N} {c : Cmd} {s : Configured σ}
    {o : Option Msg} (hc : afterReplicate g (.client r (.update c)) g')
    (hp : (H.mesh iter).prepare r (.update c) (g.state r) = some (s, o)) :
    (H.object iter).prepare r c ((dataOf g).state r) = some (s.db, o) ∧
      s = { g.state r with db := s.db } := by
  have hmode : (g.state r).ReplicationMode := .inr hc
  simp only [Handlers.mesh, if_pos hmode, server_of_reachable h r hc] at hp
  obtain ⟨p, hprep, heq⟩ := Option.map_eq_some_iff.mp hp
  obtain ⟨rfl, rfl⟩ := Prod.mk.inj heq
  exact ⟨hprep, rfl⟩

theorem effect_of_configured (h : Reachable (H.mesh iter) afterReplicate g) {r : Fin N}
    {s : Configured σ} (hcount : (g.state r).p2pCount ≠ 0)
    (hs : s = { g.state r with db := s.db }) (m : Msg) :
    ((H.mesh iter).effect r m s).db = (H.object iter).effect r m s.db := by
  have hmode : s.ReplicationMode := by
    rw [hs]
    exact .inr hcount
  have hserver : s.server (iter r) = .of iter r := by
    rw [hs]
    exact server_of_reachable h r hcount
  simp only [Handlers.mesh, if_pos hmode, hserver, Handlers.object]

theorem dataOf_setState (g : Net (Fin N) (Configured σ) Msg) (r : Fin N) (s : Configured σ) :
    dataOf (g.setState r s) = (dataOf g).setState r s.db := by
  rw [Net.setState, dataOf, dataOf, Net.setState]
  congr 1
  exact Function.comp_update Configured.db g.state r s

theorem dataOf_apply (g : Net (Fin N) (Configured σ) Msg) (r : Fin N) (e : Event (Fin N) Msg)
    (s : Configured σ) : dataOf (g.apply r e s) = (dataOf g).apply r e s.db := by
  rw [Net.apply, dataOf, dataOf, Net.apply]
  congr 1
  exact Function.comp_update Configured.db g.state r s

theorem dataOf_setState_self {g : Net (Fin N) (Configured σ) Msg} {r : Fin N} {s : Configured σ}
    (hs : s.db = (g.state r).db) : dataOf (g.setState r s) = dataOf g := by
  rw [dataOf_setState, hs, Net.setState, dataOf]
  congr 1
  exact Function.update_eq_self ..

/-- **The runs of servers that are configured before they execute updates** are runs of servers that
were configured from the start. -/
theorem Handlers.reachable_object (h : Reachable (H.mesh iter) afterReplicate g) :
    Reachable (H.object iter) anyOrder (dataOf g) := by
  induction h with
  | refl => exact .refl
  | @tail g g' a hg hc hs ih =>
    obtain ⟨r, c, s, rfl, hp, rfl⟩ | ⟨r, c, s, m, rfl, hp, rfl⟩ | ⟨r, i, e, rfl, he, hi, rfl⟩ :=
      (H.mesh iter).step_cases hs
    · cases c with
      | replicate peers =>
        have hdb : s.db = (g.state r).db := (Prod.mk.inj (Option.some.inj hp)).1 ▸ rfl
        rwa [dataOf_setState_self hdb]
      | handshake =>
        have hdb : s.db = (g.state r).db := (Prod.mk.inj (Option.some.inj hp)).1 ▸ rfl
        rwa [dataOf_setState_self hdb]
      | update c =>
        obtain ⟨hprep, -⟩ := prepare_of_update hg hc hp
        rw [dataOf_setState]
        exact ih.tail trivial (OpBased.step_refused hprep)
    · cases c with
      | replicate peers => cases (Prod.mk.inj (Option.some.inj hp)).2
      | handshake => cases (Prod.mk.inj (Option.some.inj hp)).2
      | update c =>
        obtain ⟨hprep, hs'⟩ := prepare_of_update hg hc hp
        rw [dataOf_apply, effect_of_configured hg hc hs']
        exact ih.tail trivial (OpBased.step_accepted hprep)
    · rw [dataOf_apply, effect_of_configured hg hc rfl]
      exact ih.tail trivial (OpBased.step_deliver he hi)

end

/-! ### The clocks -/

/-- Every index is there that `removeCheck`, `nowVC`, `VCToSds` and `updateVC` use on a clock and a
timestamp: its keeper's counter, and as many counters as the timestamp has. -/
def VC.InBounds (c t : VC) : Prop := 0 ≤ c.id ∧ c.id < c.size ∧ t.size ≤ c.size

theorem VC.Kept.inBounds {iter : Fin N → Iteration} {r r' : Fin N} {c t : VC}
    (hc : c.Kept (.of iter r)) (ht : t.Kept (.of iter r')) : c.InBounds t := by
  refine ⟨?_, ?_, ?_⟩
  · rw [hc.id]
    exact Int.natCast_nonneg _
  · rw [hc.id, hc.size]
    exact Int.ofNat_lt.mpr r.isLt
  · exact (ht.size.trans hc.size.symm).le

/-- The clocks `stored` at each replica have the configured shape, and their indices are there with
every clock that has been `sent`. -/
def ClocksOk (iter : Fin N → Iteration) (stored : σ → Set VC) (sent : Msg → Set VC)
    (g : Net (Fin N) (Configured σ) Msg) : Prop :=
  ∀ r, ∀ c ∈ stored (g.state r).db,
    c.Kept (.of iter r) ∧ ∀ e ∈ g.log, ∀ t ∈ sent e.msg, c.InBounds t

theorem ClocksOk.of_kept {iter : Fin N → Iteration} {stored : σ → Set VC} {sent : Msg → Set VC}
    {g : Net (Fin N) (Configured σ) Msg}
    (hstored : ∀ r, ∀ c ∈ stored ((dataOf g).state r), c.Kept (.of iter r))
    (hsent : ∀ e ∈ (dataOf g).log, ∀ t ∈ sent e.msg, t.Kept (.of iter e.origin)) :
    ClocksOk iter stored sent g :=
  fun r c hc => ⟨hstored r c hc, fun e he t ht => (hstored r c hc).inBounds (hsent e he t ht)⟩

end

/-- The RWF-Sets of a server. -/
def rwHandlers : Handlers RwDb RwCmd RwMsg where
  init := .empty
  prepare srv c db := (rwsPrepare srv c db).map fun p => (p.state, p.msg)
  effect := rwsEffect

/-- The RWF-Tree of a server. -/
def treeHandlers : Handlers (Option TreeHT) TreeCall TreeMsg where
  init := some .empty
  prepare srv c s := do
    let ht ← s
    let p ← treePrepare srv c ht
    return (some p.state, p.msg)
  effect srv m s := s.bind fun ht => treeEffect srv ht m

/-- The RZ-Sets of a server. -/
def rzHandlers : Handlers RzDb RzCmd RzMsg where
  init := .empty
  prepare srv c db :=
    let p := rzPrepare srv c db
    some (p.state, p.msg)
  effect := rzEffect

/-- The clocks of the members of sets. -/
def RwDb.clocks (db : RwDb) : Set VC := {c | ∃ s x h, db.elems s x = some h ∧ c = h.current}

/-- The clocks in a message about a set. -/
def RwMsg.clocks (m : RwMsg) : Set VC := {t | ∃ en ∈ m.entries, t = en.clock}

/-- The clocks of the nodes of a tree. -/
def treeClocks (s : Option TreeHT) : Set VC :=
  {c | ∃ ht k tn, s = some ht ∧ ht.nodes k = some tn ∧
    (c = tn.header.current ∨ c = tn.vectorClock ∨ c = tn.moveVC)}

/-- The clocks of the elements of queues. -/
def RzDb.clocks (db : RzDb) : Set VC :=
  {c | ∃ s x e, db.elems s x = some e ∧ c = e.header.current}

section

variable {N : ℕ} {iter : Fin N → Iteration}

theorem rwClocks_of_reachable {C : Cond (Fin N) RwDb RwCmd RwMsg} {g : Net (Fin N) RwDb RwMsg}
    (h : Reachable (rwSet iter) C g) :
    (∀ r, ∀ c ∈ (g.state r).clocks, c.Kept (.of iter r)) ∧
      ∀ e ∈ g.log, ∀ t ∈ e.msg.clocks, t.Kept (.of iter e.origin) := by
  constructor
  · rintro r c ⟨s, x, hd, hs, rfl⟩
    have hshape := rwShape_of_reachable h r
    have heq : (g.state r).header (.of iter r) s x = hd := by
      rw [Db.header, Db.elem, hs, Option.getD_some]
    rw [← heq]
    exact ⟨hshape.size s x, hshape.keeper s x⟩
  · rintro e he t ⟨en, hen, rfl⟩
    obtain ⟨hsize, hid⟩ := rwClock_of_reachable h e he en hen
    exact ⟨hsize, hid⟩

theorem treeClocks_of_reachable {C : TreeCond N}
    {g : Net (Fin N) (Option TreeHT) TreeMsg} (h : Reachable (rwTree iter) C g) :
    (∀ r, ∀ c ∈ treeClocks (g.state r), c.Kept (.of iter r)) ∧
      ∀ e ∈ g.log, ∀ t ∈ {t | t ∈ e.msg.clocks}, t.Kept (.of iter e.origin) := by
  constructor
  · rintro r c ⟨ht, k, tn, hs, hk, hc⟩
    have hshape := treeShape_of_reachable h r hs k
    rw [TreeHT.node, hk, Option.getD_some] at hshape
    rcases hc with rfl | rfl | rfl
    · exact hshape.current
    · exact hshape.vectorClock
    · exact hshape.moveVC
  · exact treeClock_of_reachable h

theorem rzClocks_of_reachable {C : Cond (Fin N) RzDb RzCmd RzMsg} {g : Net (Fin N) RzDb RzMsg}
    (h : Reachable (rzSet iter) C g) :
    (∀ r, ∀ c ∈ RzDb.clocks (g.state r), c.Kept (.of iter r)) ∧
      ∀ e ∈ g.log, ∀ t ∈ ({e.msg.clock} : Set VC), t.Kept (.of iter e.origin) := by
  obtain ⟨hissued, hdb⟩ := rzOk_of_reachable h
  constructor
  · rintro r c ⟨s, x, e, hs, rfl⟩
    have hok := (hdb r).element s x
    rw [Db.rze, Db.elem, hs, Option.getD_some] at hok
    exact ⟨hok.size, hok.keeper⟩
  · rintro e he t rfl
    exact ⟨(hissued e he).size, (hissued e he).id⟩

/-- **Clocks have the configured shape** if no server executes an update before its own
`REPLICATE`. In every such run, of any number of servers and with messages in any order, a clock
that a server stores in the member of a set, a node of the tree or an element of a queue has a
counter for every server and is kept by this one, and no index is out of bounds when it meets a
clock of a message. -/
theorem clocks_configured (iter : Fin N → Iteration) :
    (∀ g, Reachable (rwHandlers.mesh iter) afterReplicate g →
      ClocksOk iter RwDb.clocks RwMsg.clocks g) ∧
    (∀ g, Reachable (treeHandlers.mesh iter) afterReplicate g →
      ClocksOk iter treeClocks (fun m => {t | t ∈ m.clocks}) g) ∧
    (∀ g, Reachable (rzHandlers.mesh iter) afterReplicate g →
      ClocksOk iter RzDb.clocks (fun m => {m.clock}) g) := by
  refine ⟨fun g hg => ?_, fun g hg => ?_, fun g hg => ?_⟩
  · have h : Reachable (rwSet iter) anyOrder (dataOf g) := Handlers.reachable_object hg
    obtain ⟨hstored, hsent⟩ := rwClocks_of_reachable h
    exact .of_kept hstored hsent
  · have h : Reachable (rwTree iter) anyOrder (dataOf g) := Handlers.reachable_object hg
    obtain ⟨hstored, hsent⟩ := treeClocks_of_reachable h
    exact .of_kept hstored hsent
  · have h : Reachable (rzSet iter) anyOrder (dataOf g) := Handlers.reachable_object hg
    obtain ⟨hstored, hsent⟩ := rzClocks_of_reachable h
    exact .of_kept hstored hsent

end

/-- Two servers that are configured and connected, then an update at the first and its message at
the second, for each of the three types. -/
theorem clocks_configured_two_servers :
    (∃ g, Reachable (rwHandlers.mesh (inOrder 2)) afterReplicate g ∧
      (∃ h, (g.state 1).db.elems [115] [120] = some h ∧ h.current = ⟨[0, 0], 1⟩) ∧
      ClocksOk (inOrder 2) RwDb.clocks RwMsg.clocks g) ∧
    (∃ g, Reachable (treeHandlers.mesh (inOrder 2)) afterReplicate g ∧
      (∃ ht tn, (g.state 1).db = some ht ∧ ht.nodes rootId = some tn ∧
        tn.moveVC = ⟨[0, 0], 1⟩) ∧
      ClocksOk (inOrder 2) treeClocks (fun m => {t | t ∈ m.clocks}) g) ∧
    (∃ g, Reachable (rzHandlers.mesh (inOrder 2)) afterReplicate g ∧
      (∃ e, (g.state 1).db.elems [115] [120] = some e ∧ e.header.current = ⟨[0, 0], 1⟩) ∧
      ClocksOk (inOrder 2) RzDb.clocks (fun m => {m.clock}) g) := by
  obtain ⟨hrw, htree, hrz⟩ := clocks_configured (inOrder 2)
  refine ⟨?_, ?_, ?_⟩
  · obtain ⟨g, hg, hclock⟩ :=
      (rwHandlers.mesh (inOrder 2)).exists_reachable afterReplicate
        (fun g => ((g.state 1).db.elems [115] [120]).map Reh.current = some ⟨[0, 0], 1⟩)
        [.client 0 (.replicate 0), .client 1 (.replicate 1), .client 0 .handshake,
          .client 0 (.update (.add [115] [[120]])), .deliver 1 0] (by decide)
    obtain ⟨h, hh, hcur⟩ := Option.map_eq_some_iff.mp hclock
    exact ⟨g, hg, ⟨h, hh, hcur⟩, hrw g hg⟩
  · obtain ⟨g, hg, hclock⟩ :=
      (treeHandlers.mesh (inOrder 2)).exists_reachable afterReplicate
        (fun g => ((g.state 1).db.bind fun ht => (ht.nodes rootId).map Rtn.moveVC) =
          some ⟨[0, 0], 1⟩)
        [.client 0 (.replicate 0), .client 1 (.replicate 1), .client 0 .handshake,
          .client 0 (.update ⟨0, .create⟩), .deliver 1 0] (by decide)
    obtain ⟨ht, hht, hmap⟩ := Option.bind_eq_some_iff.mp hclock
    obtain ⟨tn, htn, hmove⟩ := Option.map_eq_some_iff.mp hmap
    exact ⟨g, hg, ⟨ht, tn, hht, htn, hmove⟩, htree g hg⟩
  · obtain ⟨g, hg, hclock⟩ :=
      (rzHandlers.mesh (inOrder 2)).exists_reachable afterReplicate
        (fun g => ((g.state 1).db.elems [115] [120]).map (fun e => e.header.current) =
          some ⟨[0, 0], 1⟩)
        [.client 0 (.replicate 0), .client 1 (.replicate 1), .client 0 .handshake,
          .client 0 (.update (.add [115] [120] (some 1) [])), .deliver 1 0] (by decide)
    obtain ⟨e, he, hcur⟩ := Option.map_eq_some_iff.mp hclock
    exact ⟨g, hg, ⟨e, he, hcur⟩, hrz g hg⟩

/-- A peer that is configured connects to a server that is not. The server adds a member for a
client: the clock has no counters and belongs to nobody. When the server is configured after that,
the clock stays, and the peer's add of the same member would read two counters of it. -/
theorem clocks_unconfigured :
    ∃ g, Reachable (rwHandlers.mesh (inOrder 2)) meshRuns g ∧
      (∀ r, (g.state r).p2pCount = 2 ∧ (g.state r).p2pId = (r : ℕ)) ∧
      (∃ c ∈ (g.state 0).db.clocks, c = ⟨[], -1⟩ ∧
        ∃ e ∈ g.log, ∃ t ∈ e.msg.clocks, t = ⟨[0, 0], 1⟩ ∧ ¬ c.InBounds t) := by
  obtain ⟨g, hg, hconf, hclock, hmsg⟩ :=
    (rwHandlers.mesh (inOrder 2)).exists_reachable meshRuns
      (fun g => (∀ r, (g.state r).p2pCount = 2 ∧ (g.state r).p2pId = (r : ℕ)) ∧
        ((g.state 0).db.elems [115] [120]).map Reh.current = some ⟨[], -1⟩ ∧
        ∃ e ∈ g.log, ∃ en ∈ e.msg.entries, en.clock = ⟨[0, 0], 1⟩)
      [.client 1 (.replicate 1), .client 0 .handshake, .client 0 (.update (.add [115] [[120]])),
        .client 0 (.replicate 0), .client 1 (.update (.add [115] [[120]]))] (by decide)
  obtain ⟨h, hh, hcur⟩ := Option.map_eq_some_iff.mp hclock
  obtain ⟨e, he, en, hen, ht⟩ := hmsg
  refine ⟨g, hg, hconf, _, ⟨_, _, h, hh, rfl⟩, hcur, e, he, _, ⟨en, hen, rfl⟩, ht, ?_⟩
  rintro ⟨hid, -⟩
  rw [hcur] at hid
  exact absurd hid (by decide)

end RemoveWin
