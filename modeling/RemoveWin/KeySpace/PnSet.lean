import RemoveWin.KeySpace.SetHandlers
import RemoveWin.PnSet.Local

/-!
# The positive-negative set in the key space

`t_pnset.c`, with the table of a set at its key with `_pnsets_` appended. The handlers are those of
`PnSet.Model`, on what a server holds.

As long as no named key is another named key with the suffix, servers do what the replicas of
`pnSet` do. Without that, a set at the key of another set's table is given the members of that
other set; and a table that has become a hash table takes the members of a set that is asked for at
its key, and does not show them.

## Main results

* `RemoveWin.pnFamily_names` — the names that the handlers use
* `RemoveWin.pnServers_convergence` — where names are apart; `pnServers_meets_table` where not
* `RemoveWin.pnServers_takes_effect_iff` — an accepted command takes effect if and only if it
  removes enough; `pnServers_keeps_removed` if it does not
-/

namespace RemoveWin

open Containers Replicated

/-- `PN_SET_TABLE_SUFFIX`. -/
def pnSuffix : Sds := ofText "_pnsets_"

section

variable {N : ℕ} (lim : EncodingLimits) (iter : Fin N → Iteration)

/-- The commands of the PN-Set. -/
def pnFamily : Family (Fin N) RObj SetUpdate Pne (List Reply) PnCmd PnMsg where
  lim := lim
  suffix := pnSuffix
  view := RedisObj.asRObj
  update _ := updateSet lim fun _ => false
  prepare r c db := (pnsPrepare (.of iter r) c db).map Prepared.result
  effect _ m db := pnsEffect m db

/-- **Servers that hold PN-Sets**, with the tables in their key spaces. -/
def pnServers : OpBased (Fin N) (Option (Space Pne)) PnCmd PnMsg := (pnFamily lim iter).object

/-- Beside private tables, the family is the PN-Set. -/
theorem pnFamily_beside : (pnFamily lim iter).beside = pnSet iter := by
  refine OpBased.ext rfl (funext fun r => funext fun c => funext fun db => ?_) rfl
  exact Option.map_map ..

end

/-! ### Names -/

/-- The set that a message is for. -/
def PnMsg.setName : PnMsg → Sds
  | .add setName _ => setName
  | .rem setName _ => setName

section

variable {D D' : Type} [SetTables D Pne] [SetTables D' Pne] {R : D → D' → Prop} {d : D} {d' : D'}
  {srv : Server} {s : Sds}

theorem raiseToOne_rel (h : Agrees s R) (hd : R d d') (key x : Sds) :
    R (raiseToOne s key x d).1 (raiseToOne s key x d').1 ∧
      (raiseToOne s key x d).2 = (raiseToOne s key x d').2 := by
  obtain ⟨e, d₁, d₁', hget, hget', hnext⟩ := h.exists_get hd pneNew key
  simp only [raiseToOne, pneHTGet, hget, hget']
  exact ⟨hnext, trivial⟩

theorem pnsPrepare_rel {c : PnCmd} (h : Agrees c.plain.target R) (hd : R d d')
    (hview : ∀ k ∈ c.plain.named, Tables.view d k = Tables.view d' k) :
    Option.Rel (Prepared.Same R fun m => m.setName = c.plain.target) (pnsPrepare srv c d)
      (pnsPrepare srv c d') := by
  cases c with
  | add key members =>
    have hkey := hview key List.mem_cons_self
    have hloop := collect_rel (R := R)
      (fun x d₁ => if Keys.lacks (Tables.view d) key x then raiseToOne key x x d₁ else (d₁, none))
      (fun x d₁ => if Keys.lacks (Tables.view d') key x then raiseToOne key x x d₁ else (d₁, none))
      (fun x d₁ d₁' hd => by
        rw [Keys.lacks_congr hkey]
        split_ifs
        · exact raiseToOne_rel h hd _ _
        · exact ⟨hd, rfl⟩) members hd
    have hsend := Prepared.Same.sent_or_refused (G := fun m => m.setName = key) (PnMsg.add key)
      hloop .eleExist rfl
    rw [pnsPrepare, pnsPrepare, pnsaddPrepare, pnsaddPrepare, hkey]
    cases Tables.view d' key with
    | none => exact hsend
    | some obj =>
      cases obj with
      | set o => exact hsend
      | other fields =>
        cases fields with
        | some o => exact hsend
        | none =>
          dsimp only
          split_ifs
          · exact .some (.refused hd _)
          · exact .none
  | rem key members =>
    rw [pnsPrepare, pnsPrepare, pnsremPrepare, pnsremPrepare, hview key List.mem_cons_self]
    cases Tables.view d' key with
    | none => exact .some (.refused hd _)
    | some obj =>
      cases obj with
      | other fields => exact .some (.refused hd _)
      | set o =>
        dsimp only
        split_ifs
        · exact .some (.refused hd _)
        · exact .some (.accepted hd _ rfl)
  | unionstore dst src srcs =>
    have hdst := hview dst List.mem_cons_self
    rw [pnsPrepare, pnsPrepare, pnsunionstorePrepare, pnsunionstorePrepare, hdst,
      sunionResult_congr fun k hk => hview k (List.mem_cons_of_mem dst hk)]
    have hloop := collect_rel (R := R)
      (fun x d₁ => if Keys.lacks (Tables.view d) dst x then raiseToOne dst (sdsnew x) x d₁
        else (d₁, none))
      (fun x d₁ => if Keys.lacks (Tables.view d') dst x then raiseToOne dst (sdsnew x) x d₁
        else (d₁, none))
      (fun x d₁ d₁' hd => by
        rw [Keys.lacks_congr hdst]
        split_ifs
        · exact raiseToOne_rel h hd _ _
        · exact ⟨hd, rfl⟩)
      (srv.iter.order (sunionResult srv (Tables.view d') (src :: srcs) .empty).1.elems) hd
    cases Tables.view d' dst with
    | none => exact .some (.sent (PnMsg.add dst) hloop _ rfl)
    | some obj =>
      cases obj with
      | set o => exact .some (.sent (PnMsg.add dst) hloop _ rfl)
      | other fields =>
        cases fields with
        | some o => exact .some (.sent (PnMsg.add dst) hloop _ rfl)
        | none =>
          dsimp only
          split_ifs
          · exact .some (.accepted hd _ rfl)
          · exact .none
  | diffstore dst src srcs =>
    rw [pnsPrepare, pnsPrepare, pnsdiffstorePrepare, pnsdiffstorePrepare,
      hview dst List.mem_cons_self,
      sdiffResult_congr fun k hk => hview k (List.mem_cons_of_mem dst hk)]
    cases sdiffResult srv (Tables.view d') src srcs .empty with
    | none => exact .none
    | some res =>
      cases (Tables.view d' dst).bind RObj.asSet with
      | none => exact .none
      | some o => exact .some (.accepted hd _ rfl)
  | interstore dst src srcs =>
    rw [pnsPrepare, pnsPrepare, pnsinterstorePrepare, pnsinterstorePrepare,
      hview dst List.mem_cons_self,
      sinterResult_congr fun k hk => hview k (List.mem_cons_of_mem dst hk)]
    dsimp only
    cases (Tables.view d' dst).bind RObj.asSet with
    | none => exact .none
    | some o => exact .some (.accepted hd _ rfl)

theorem pnsaddEntry_rel (h : Agrees s R) (hd : R d d') (en : PnAdd) :
    R (pnsaddEntry s d en) (pnsaddEntry s d' en) := by
  obtain ⟨e, d₁, d₁', hget, hget', hnext⟩ := h.exists_get hd pneNew en.member
  simp only [pnsaddEntry, pneHTGet, hget, hget']
  split_ifs
  · exact h.update (h.put hnext _ _) _
  · exact h.put hnext _ _

theorem pnsremEntry_rel (h : Agrees s R) (hd : R d d') (x : Sds) :
    R (pnsremEntry s d x) (pnsremEntry s d' x) := by
  obtain ⟨e, d₁, d₁', hget, hget', hnext⟩ := h.exists_get hd pneNew x
  simp only [pnsremEntry, pneHTGet, hget, hget']
  split_ifs
  · exact h.update (h.put hnext _ _) _
  · exact h.put hnext _ _

theorem pnsEffect_rel {m : PnMsg} (h : Agrees m.setName R) (hd : R d d') :
    R (pnsEffect m d) (pnsEffect m d') := by
  cases m with
  | add setName es =>
    rw [pnsEffect, pnsEffect]
    split_ifs
    · exact hd
    · exact List.foldl_rel (h.update hd _) fun en _ _ _ hd => pnsaddEntry_rel h hd en
  | rem setName xs =>
    rw [pnsEffect, pnsEffect]
    split_ifs
    · exact hd
    · exact List.foldl_rel (h.update hd _) fun x _ _ _ hd => pnsremEntry_rel h hd x

end

section

variable {N : ℕ} {lim : EncodingLimits} {iter : Fin N → Iteration} {S S' : Set Sds}

theorem pnFamily_names : (pnFamily lim iter).Names (fun c => c.plain.named)
    (fun c => c.plain.target) PnMsg.setName where
  mem c := c.plain.target_mem_named
  prepare _ _ h hd hview := rel_map_result (pnsPrepare_rel h hd hview)
  effect _ _ h hd := pnsEffect_rel h hd

/-! ### Runs whose names are apart -/

theorem pnServers_simulates (hS : Apart pnSuffix S) :
    Simulates (pnServers lim iter) (pnSet iter)
      (fun _ => SetsHeld pnSuffix S)
      (fun c => c.plain.NamedIn S) (fun m => m.setName ∈ S) := by
  rw [← pnFamily_beside lim]
  exact pnFamily_names.simulates hS fun _ => updateSet_keeps_plain lim _

theorem readSets_pne {s : Option (Space Pne)} {db : PnDb}
    (h : SetsHeld pnSuffix S s db) (n x : Sds) :
    (readSets pnSuffix s).pne n x = db.pne n x := by
  rw [Db.pne, Db.pne, Db.elem, Db.elem, h.elems_eq]

variable {g g' : Net (Fin N) (Option (Space Pne)) PnMsg}

theorem exists_pnSet_net (hS : Apart pnSuffix S)
    (hg : Reachable (pnServers lim iter) (asking fun c => c.plain.NamedIn S) g) :
    ∃ h, Reachable (pnSet iter) anyOrder h ∧
      Corresponds (fun _ => SetsHeld pnSuffix S) g h :=
  (pnServers_simulates hS).exists_net id (fun _ _ _ => trivial) hg

/-- **The PN-Set converges in any delivery order**, in runs whose names are apart. All servers are
up. Every increment an add message carries is at least one, the counter of a member is the sum of
what the applied messages did to it, and a member is visible exactly when its counter is positive.
So servers that have applied the same messages show the same sets. Counters are unbounded here: in
the code they are exact below `INT_MAX`. -/
theorem pnServers_convergence (hS : Apart pnSuffix S) (hS' : Apart pnSuffix S')
    (hg : Reachable (pnServers lim iter) (asking fun c => c.plain.NamedIn S) g)
    (hg' : Reachable (pnServers lim iter) (asking fun c => c.plain.NamedIn S') g') :
    (∀ r, (g.state r).isSome) ∧
    (∀ e ∈ g.log, ∀ s es, e.msg = .add s es → ∀ en ∈ es, 1 ≤ en.cnt) ∧
    (∀ r s x, ((readSets pnSuffix (g.state r)).pne s x).current =
        ((g.applied r).map fun e => e.msg.delta s x).sum ∧
      (x ∈ (readSets pnSuffix (g.state r)).keys.visible s ↔
        0 < ((readSets pnSuffix (g.state r)).pne s x).current)) ∧
    ∀ r r', (∀ e, e ∈ g.applied r ↔ e ∈ g'.applied r') → ∀ s x,
      (x ∈ (readSets pnSuffix (g.state r)).keys.visible s ↔
        x ∈ (readSets pnSuffix (g'.state r')).keys.visible s) := by
  obtain ⟨h, hh, hcorr⟩ := exists_pnSet_net hS hg
  obtain ⟨h', hh', hcorr'⟩ := exists_pnSet_net hS' hg'
  have hconv := pnSet_convergence hh hh'
  simp only [hcorr.applied, hcorr'.applied, hcorr.log] at hconv
  simp only [fun r => Up.visible_eq (hcorr.state r),
    fun r => Up.visible_eq (hcorr'.state r), fun r => readSets_pne (hcorr.state r)]
  exact ⟨fun r => (hcorr.state r).isSome, hconv⟩

/-- **PN-Set updates take effect where they are accepted if and only if they remove enough**, in
runs whose names are apart. In any reachable state, in whatever order messages came, an accepted
command is followed by its own effect, and the server is up. Adds always take effect; a remove does
if the counters are no greater than what it takes off. Counters are unbounded here: in the code they
are exact below `INT_MAX`. -/
theorem pnServers_takes_effect_iff (hS : Apart pnSuffix S)
    (hg : Reachable (pnServers lim iter) (asking fun c => c.plain.NamedIn S) g) {r : Fin N}
    {c : PnCmd} {s : Option (Space Pne)} {m : PnMsg}
    (hp : (pnServers lim iter).prepare r c (g.state r) = some (s, some m))
    (hc : c.plain.NamedIn S) (hnul : ∀ x ∈ c.members, NulFree x) :
    ((pnServers lim iter).effect r m s).isSome ∧
      (c.TakesEffect (readSets pnSuffix (g.state r))
          (readSets pnSuffix ((pnServers lim iter).effect r m s)) ↔
        c.RemovesEnough (readSets pnSuffix (g.state r))) := by
  obtain ⟨h, hh, hcorr⟩ := exists_pnSet_net hS hg
  obtain ⟨db, hdb, hafter⟩ := (pnServers_simulates hS).accepted hc (hcorr.state r) hp
  have hiff := pnSet_takes_effect_iff hh hdb hnul
  refine ⟨hafter.isSome, ?_⟩
  have htakes : c.TakesEffect (readSets pnSuffix (g.state r))
      (readSets pnSuffix ((pnServers lim iter).effect r m s)) ↔
        c.TakesEffect (h.state r) ((pnSet iter).effect r m db) := by
    cases c <;> simp only [PnCmd.TakesEffect, Up.visible_eq hafter,
      Up.visible_eq (hcorr.state r)]
  have henough : c.RemovesEnough (readSets pnSuffix (g.state r)) ↔
      c.RemovesEnough (h.state r) := by
    cases c <;> simp only [PnCmd.RemovesEnough, Up.visible_eq (hcorr.state r),
      readSets_pne (hcorr.state r)]
  rw [htakes, henough, hiff]

end

/-! ### Runs of servers -/

/-- Both servers add a member twice in one command and one removes it, so that the counter of the
other is four when it learns of the remove. -/
theorem pnServers_convergence_crossing :
    ∃ g, Reachable (pnServers {} (inOrder 2))
        (asking fun c => c.plain.NamedIn {k | k ∈ [ofText "s"]}) g ∧
      g.appliedIds 0 = [0, 2, 1] ∧ g.appliedIds 1 = [1, 0, 2] ∧
      ofText "a" ∈ (readSets pnSuffix (g.state 0)).keys.visible (ofText "s") ∧
      ofText "a" ∈ (readSets pnSuffix (g.state 1)).keys.visible (ofText "s") := by
  obtain ⟨g, hg, h0, h1, hvis⟩ := (pnServers {} (inOrder 2)).exists_reachable
    (asking fun c => c.plain.NamedIn {k | k ∈ [ofText "s"]})
    (fun g => g.appliedIds 0 = [0, 2, 1] ∧ g.appliedIds 1 = [1, 0, 2] ∧
      ofText "a" ∈ (readSets pnSuffix (g.state 0)).keys.visible (ofText "s"))
    [.client 0 (.add (ofText "s") [ofText "a", ofText "a"]),
      .client 1 (.add (ofText "s") [ofText "a", ofText "a"]),
      .client 0 (.rem (ofText "s") [ofText "a"]), .deliver 1 0, .deliver 0 1, .deliver 1 2]
    (by decide)
  have hsame : ∀ e, e ∈ g.applied 0 ↔ e ∈ g.applied 1 :=
    (Reachable.wellFormed hg).mem_applied_congr (by simp [h0, h1]; tauto)
  have hS : Apart pnSuffix {k | k ∈ [ofText "s"]} := by decide
  exact ⟨g, hg, h0, h1, hvis,
    ((pnServers_convergence hS hS hg hg).2.2.2 0 1 hsame _ _).mp hvis⟩

/-- **A set at the key of a table.** `PNSADD s_pnsets_ y` makes a set at the key where the table of
`s` is kept, so with `PNSADD s x` the member `x` gets into that set, where its counter is zero. -/
theorem pnServers_meets_table :
    ∃ g, Reachable (pnServers {} (inOrder 1))
        (asking fun c => ∀ x ∈ c.members, NulFree x) g ∧
      ofText "x" ∈ (readSets pnSuffix (g.state 0)).keys.visible (ofText "s_pnsets_") ∧
      ((readSets pnSuffix (g.state 0)).pne (ofText "s_pnsets_") (ofText "x")).current = 0 :=
  (pnServers {} (inOrder 1)).exists_reachable
    (asking fun c => ∀ x ∈ c.members, NulFree x) _
    [.client 0 (.add (ofText "s_pnsets_") [ofText "y"]),
      .client 0 (.add (ofText "s") [ofText "x"])] (by decide)

/-- The command is accepted, and `q` holds of what the server holds after its effect. -/
def PnThen {N : ℕ} (lim : EncodingLimits) (iter : Fin N → Iteration) (r : Fin N) (c : PnCmd)
    (s : Option (Space Pne)) (q : PnDb → Prop) : Prop :=
  ∃ s' m, (pnServers lim iter).prepare r c s = some (s', some m) ∧
    q (readSets pnSuffix ((pnServers lim iter).effect r m s'))

instance decidablePnThen {N : ℕ} (lim : EncodingLimits) (iter : Fin N → Iteration) (r : Fin N)
    (c : PnCmd) (s : Option (Space Pne)) (q : PnDb → Prop) [DecidablePred q] :
    Decidable (PnThen lim iter r c s q) :=
  decidable_of_iff (∃ p ∈ (pnServers lim iter).prepare r c s, ∃ m ∈ p.2,
      q (readSets pnSuffix ((pnServers lim iter).effect r m p.1))) <| by
    constructor
    · rintro ⟨⟨s', o⟩, hp, m, hm, hq⟩
      obtain rfl : o = some m := hm
      exact ⟨s', m, hp, hq⟩
    · rintro ⟨s', m, hp, hq⟩
      exact ⟨(s', some m), hp, m, rfl, hq⟩

/-- A member that was added once is taken out by one remove. -/
theorem pnServers_takes_effect_once :
    ∃ g, Reachable (pnServers {} (inOrder 1))
        (asking fun c => c.plain.NamedIn {k | k ∈ [ofText "s"]}) g ∧
      PnThen {} (inOrder 1) 0 (.rem (ofText "s") [ofText "a"]) (g.state 0)
        fun db => ofText "a" ∉ db.keys.visible (ofText "s") := by
  obtain ⟨g, hg, ⟨s', m, hp, -⟩, hcur⟩ :=
    (pnServers {} (inOrder 1)).exists_reachable
      (asking fun c => c.plain.NamedIn {k | k ∈ [ofText "s"]})
      (fun g => PnThen {} (inOrder 1) 0 (.rem (ofText "s") [ofText "a"])
          (g.state 0) (fun _ => True) ∧
        ((readSets pnSuffix (g.state 0)).pne (ofText "s") (ofText "a")).current ≤ 1)
      [.client 0 (.add (ofText "s") [ofText "a"])] (by decide)
  refine ⟨g, hg, s', m, hp, ?_⟩
  exact (pnServers_takes_effect_iff (by decide) hg hp (by decide) (by decide)).2.mpr
    (by simpa [PnCmd.RemovesEnough] using hcur) _ (by decide)

/-- **Updates that do not take effect.** After concurrent adds of two servers, or after one add that
names the member twice, the counter is two: `PNSREM` leaves the member visible, and so do
`PNSDIFFSTORE s s s`, whose difference is empty, and `PNSINTERSTORE s s t` with an absent `t`. And
where names are not apart, an add may have no effect: once the table of `s` is kept in a hash table,
`PNSADD s_pnsets_ z` is accepted and puts `z` into it, and there is no set at that key. -/
theorem pnServers_keeps_removed :
    (∃ g, Reachable (pnServers {} (inOrder 2)) anyOrder g ∧
      PnThen {} (inOrder 2) 0 (.rem (ofText "s") [ofText "a"]) (g.state 0)
        fun db => ofText "a" ∈ db.keys.visible (ofText "s")) ∧
    (∃ g, Reachable (pnServers {} (inOrder 1)) anyOrder g ∧
      PnThen {} (inOrder 1) 0 (.rem (ofText "s") [ofText "a"]) (g.state 0)
        (fun db => ofText "a" ∈ db.keys.visible (ofText "s")) ∧
      PnThen {} (inOrder 1) 0
        (.diffstore (ofText "s") (ofText "s") [ofText "s"]) (g.state 0)
        (fun db => ofText "a" ∈ db.keys.visible (ofText "s")) ∧
      PnThen {} (inOrder 1) 0
        (.interstore (ofText "s") (ofText "s") [ofText "t"]) (g.state 0)
        (fun db => ofText "a" ∈ db.keys.visible (ofText "s"))) ∧
    ∃ g, Reachable (pnServers { hashMaxZiplistEntries := 1 } (inOrder 1)) anyOrder
        g ∧
      PnThen { hashMaxZiplistEntries := 1 } (inOrder 1) 0
        (.add (ofText "s_pnsets_") [ofText "z"]) (g.state 0)
        fun db => ofText "z" ∉ db.keys.visible (ofText "s_pnsets_") := by
  refine ⟨?_, ?_, ?_⟩
  · exact (pnServers {} (inOrder 2)).exists_reachable anyOrder _
      [.client 0 (.add (ofText "s") [ofText "a"]), .client 1 (.add (ofText "s") [ofText "a"]),
        .deliver 0 1] (by decide)
  · exact (pnServers {} (inOrder 1)).exists_reachable anyOrder _
      [.client 0 (.add (ofText "s") [ofText "a", ofText "a"])] (by decide)
  · exact (pnServers { hashMaxZiplistEntries := 1 } (inOrder 1)).exists_reachable
      anyOrder _ [.client 0 (.add (ofText "s") [ofText "a", ofText "b"])] (by decide)

end RemoveWin
