import RemoveWin.KeySpace.SetHandlers
import RemoveWin.OrSet.Overhead

/-!
# The observed-remove set in the key space

`t_orset.c`, with the table of a set at its key with `_orsets_` appended. The handlers are those of
`OrSet.Model`, and those of `OrSet.Overhead` that keep `total_tag_size`, on what a server holds.

`getSetOrCreate` is handed an object where it expects a text, so what it makes of it is not known:
whether a new set starts as an array of integers is left to a function of its name.

As long as no named key is another named key with the suffix, servers do what the replicas of
`orSet` do. Without that, a set at the key of another set's table is given the members of that
other set, and a remove from it throws away their metadata.

## Main results

* `RemoveWin.orFamily_names` — the names that the handlers use
* `RemoveWin.orServers_addWins` — where names are apart
* `RemoveWin.orServers_meets_table` — where they are not
* `RemoveWin.orServers_tag_size_iff` — when `total_tag_size` is exact
-/

namespace RemoveWin

open Containers Replicated Tokens

/-- `OR_SET_TABLE_SUFFIX`. -/
def orSuffix : Sds := ofText "_orsets_"

section

variable {N : ℕ} (lim : EncodingLimits) (peek : Fin N → Sds → Bool) (iter : Fin N → Iteration)

/-- The commands of the OR-Set. -/
def orFamily : Family (Fin N) RObj SetUpdate Ore (List Reply) OrCmd OrMsg where
  lim := lim
  suffix := orSuffix
  view := RedisObj.asRObj
  update r := updateSet lim (peek r)
  prepare r c db := (orsPrepare (.of iter r) c db).map Prepared.result
  effect _ m db := orsEffect m db

/-- **Servers that hold OR-Sets**, with the tables in their key spaces. -/
def orServers : OpBased (Fin N) (Option (Space Ore)) OrCmd OrMsg := (orFamily lim peek iter).object

/-- Beside private tables, the family is the OR-Set. -/
theorem orFamily_beside : (orFamily lim peek iter).beside = orSet iter := by
  refine OpBased.ext rfl (funext fun r => funext fun c => funext fun db => ?_) rfl
  exact Option.map_map ..

end

/-! ### Names -/

/-- The set that a message is for. -/
def OrMsg.setName : OrMsg → Sds
  | .add setName _ => setName
  | .rem setName _ => setName

section

variable {D D' : Type} [SetTables D Ore] [SetTables D' Ore] {R : D → D' → Prop} {d : D} {d' : D'}
  {srv : Server} {s : Sds}

theorem drawTag_rel (h : Agrees s R) (hd : R d d') (key x : Sds) :
    R (drawTag srv s key x d).1 (drawTag srv s key x d').1 ∧
      (drawTag srv s key x d).2 = (drawTag srv s key x d').2 := by
  obtain ⟨e, d₁, d₁', hget, hget', hnext⟩ := h.exists_get hd oreNew key
  simp only [drawTag, oreHTGet, hget, hget']
  exact ⟨h.put hnext _ _, trivial⟩

theorem listTags_rel (h : Agrees s R) (hd : R d d') (key x : Sds) :
    R (listTags srv s key x d).1 (listTags srv s key x d').1 ∧
      (listTags srv s key x d).2 = (listTags srv s key x d').2 := by
  obtain ⟨e, d₁, d₁', hget, hget', hnext⟩ := h.exists_get hd oreNew key
  simp only [listTags, oreHTGet, hget, hget']
  exact ⟨hnext, trivial⟩

theorem orsstoreRemoves_rel (h : Agrees s R) (hd : R d d') (set dstset : SetObj)
    (replies : List Reply) :
    Prepared.Same R (fun m => m.setName = s) (orsstoreRemoves srv s set dstset replies d)
      (orsstoreRemoves srv s set dstset replies d') := by
  refine .sent (OrMsg.rem s) (collect_rel _ _ (fun x d d' hd => ?_) _ hd) _ rfl
  split_ifs
  · exact ⟨hd, rfl⟩
  · exact listTags_rel h hd _ _

theorem orsPrepare_rel {c : OrCmd} (h : Agrees c.plain.target R) (hd : R d d')
    (hview : ∀ k ∈ c.plain.named, Tables.view d k = Tables.view d' k) :
    Option.Rel (Prepared.Same R fun m => m.setName = c.plain.target) (orsPrepare srv c d)
      (orsPrepare srv c d') := by
  cases c with
  | add key members =>
    have hkey := hview key List.mem_cons_self
    have hloop := collect_rel (R := R)
      (fun x d₁ => if Keys.lacks (Tables.view d) key x then drawTag srv key x x d₁ else (d₁, none))
      (fun x d₁ => if Keys.lacks (Tables.view d') key x then drawTag srv key x x d₁ else (d₁, none))
      (fun x d₁ d₁' hd => by
        rw [Keys.lacks_congr hkey]
        split_ifs
        · exact drawTag_rel h hd _ _
        · exact ⟨hd, rfl⟩) members hd
    have hsend := Prepared.Same.sent_or_refused (G := fun m => m.setName = key) (OrMsg.add key)
      hloop .eleExist rfl
    rw [orsPrepare, orsPrepare, orsaddPrepare, orsaddPrepare, hkey]
    cases Tables.view d' key with
    | none => exact hsend
    | some obj =>
      cases obj with
      | set o => exact hsend
      | other fields =>
        cases fields with
        | some o => exact hsend
        | none =>
          dsimp only
          split_ifs
          · exact .some (.refused hd _)
          · exact .none
  | rem key members =>
    rw [orsPrepare, orsPrepare, orsremPrepare, orsremPrepare, hview key List.mem_cons_self]
    cases Tables.view d' key with
    | none => exact .some (.refused hd _)
    | some obj =>
      cases obj with
      | other fields => exact .some (.refused hd _)
      | set o =>
        have hloop := collect_rel (R := R)
          (fun x d => if setTypeIsMember o x then listTags srv key x x d else (d, none))
          (fun x d => if setTypeIsMember o x then listTags srv key x x d else (d, none))
          (fun x d d' hd => by
            split_ifs
            · exact listTags_rel h hd _ _
            · exact ⟨hd, rfl⟩) members hd
        dsimp only
        rw [hloop.2]
        split_ifs
        · exact .some (.refused hloop.1 _)
        · exact .some (.accepted hloop.1 _ rfl)
  | unionstore dst src srcs =>
    have hdst := hview dst List.mem_cons_self
    rw [orsPrepare, orsPrepare, orsunionstorePrepare, orsunionstorePrepare, hdst,
      sunionResult_congr fun k hk => hview k (List.mem_cons_of_mem dst hk)]
    have hloop := collect_rel (R := R)
      (fun x d₁ =>
        let d₁ := (oreHTGet d₁ dst (sdsnew x)).2
        if Keys.lacks (Tables.view d) dst x then drawTag srv dst (sdsnew x) x d₁ else (d₁, none))
      (fun x d₁ =>
        let d₁ := (oreHTGet d₁ dst (sdsnew x)).2
        if Keys.lacks (Tables.view d') dst x then drawTag srv dst (sdsnew x) x d₁ else (d₁, none))
      (fun x d₁ d₁' hd => by
        have hnext := (h.get hd oreNew (sdsnew x)).2
        dsimp only
        rw [Keys.lacks_congr hdst]
        split_ifs
        · exact drawTag_rel h hnext _ _
        · exact ⟨hnext, rfl⟩)
      (srv.iter.order (sunionResult srv (Tables.view d') (src :: srcs) .empty).1.elems) hd
    cases Tables.view d' dst with
    | none => exact .some (.sent (OrMsg.add dst) hloop _ rfl)
    | some obj =>
      cases obj with
      | set o => exact .some (.sent (OrMsg.add dst) hloop _ rfl)
      | other fields =>
        cases fields with
        | some o => exact .some (.sent (OrMsg.add dst) hloop _ rfl)
        | none =>
          dsimp only
          split_ifs
          · exact .some (.accepted hd _ rfl)
          · exact .none
  | diffstore dst src srcs =>
    rw [orsPrepare, orsPrepare, orsdiffstorePrepare, orsdiffstorePrepare,
      hview dst List.mem_cons_self,
      sdiffResult_congr fun k hk => hview k (List.mem_cons_of_mem dst hk)]
    cases sdiffResult srv (Tables.view d') src srcs .empty with
    | none => exact .none
    | some res =>
      cases (Tables.view d' dst).bind RObj.asSet with
      | none => exact .none
      | some o => exact .some (orsstoreRemoves_rel h hd ..)
  | interstore dst src srcs =>
    rw [orsPrepare, orsPrepare, orsinterstorePrepare, orsinterstorePrepare,
      hview dst List.mem_cons_self,
      sinterResult_congr fun k hk => hview k (List.mem_cons_of_mem dst hk)]
    dsimp only
    cases (Tables.view d' dst).bind RObj.asSet with
    | none => exact .none
    | some o => exact .some (orsstoreRemoves_rel h hd ..)

section

variable {t : OrMeter D} {t' : OrMeter D'}

theorem orsaddEntrySize_rel (h : Agrees s R)
    (ht : R t.db t'.db ∧ t.totalTagSize = t'.totalTagSize) (en : OrAdd) :
    R (orsaddEntrySize s t en).db (orsaddEntrySize s t' en).db ∧
      (orsaddEntrySize s t en).totalTagSize = (orsaddEntrySize s t' en).totalTagSize := by
  obtain ⟨e, d₁, d₁', hget, hget', hnext⟩ := h.exists_get ht.1 oreNew en.member
  simp only [orsaddEntrySize, orsaddEntry, oreHTGet, hget, hget', ht.2, and_true]
  split_ifs
  · exact h.update (h.put hnext _ _) _
  · exact h.put hnext _ _

theorem orsremEntrySize_rel (h : Agrees s R)
    (ht : R t.db t'.db ∧ t.totalTagSize = t'.totalTagSize) (en : OrRem) :
    R (orsremEntrySize s t en).db (orsremEntrySize s t' en).db ∧
      (orsremEntrySize s t en).totalTagSize = (orsremEntrySize s t' en).totalTagSize := by
  obtain ⟨e, d₁, d₁', hget, hget', hnext⟩ := h.exists_get ht.1 oreNew en.member
  simp only [orsremEntrySize, orsremEntry, oreHTGet, hget, hget', ht.2, and_true]
  split_ifs
  · exact h.update (h.put hnext _ _) _
  · exact h.put hnext _ _

theorem orsEffectSize_rel {m : OrMsg} (h : Agrees m.setName R)
    (ht : R t.db t'.db ∧ t.totalTagSize = t'.totalTagSize) :
    R (orsEffectSize m t).db (orsEffectSize m t').db ∧
      (orsEffectSize m t).totalTagSize = (orsEffectSize m t').totalTagSize := by
  cases m with
  | add setName es =>
    rw [orsEffectSize, orsEffectSize]
    split_ifs
    · exact ht
    · refine List.foldl_rel (r := fun (t : OrMeter D) (t' : OrMeter D') =>
        R t.db t'.db ∧ t.totalTagSize = t'.totalTagSize)
        ⟨h.update ht.1 _, ht.2⟩ fun en _ _ _ ht => orsaddEntrySize_rel h ht en
  | rem setName es =>
    rw [orsEffectSize, orsEffectSize]
    split_ifs
    · exact ht
    · refine List.foldl_rel (r := fun (t : OrMeter D) (t' : OrMeter D') =>
        R t.db t'.db ∧ t.totalTagSize = t'.totalTagSize)
        ⟨h.update ht.1 _, ht.2⟩ fun en _ _ _ ht => orsremEntrySize_rel h ht en

end

theorem orsEffect_rel {m : OrMsg} (h : Agrees m.setName R) (hd : R d d') :
    R (orsEffect m d) (orsEffect m d') := by
  have hzero : R (OrMeter.mk d 0).db (OrMeter.mk d' 0).db ∧ (0 : ℤ) = 0 := ⟨hd, rfl⟩
  have hsize := (orsEffectSize_rel h hzero).1
  rwa [db_orsEffectSize, db_orsEffectSize] at hsize

end

section

variable {N : ℕ} {lim : EncodingLimits} {peek : Fin N → Sds → Bool} {iter : Fin N → Iteration}
  {S S' : Set Sds}

theorem orFamily_names : (orFamily lim peek iter).Names (fun c => c.plain.named)
    (fun c => c.plain.target) OrMsg.setName where
  mem c := c.plain.target_mem_named
  prepare _ _ h hd hview := rel_map_result (orsPrepare_rel h hd hview)
  effect _ _ h hd := orsEffect_rel h hd

/-! ### Runs whose names are apart -/

theorem orServers_simulates (hS : Apart orSuffix S) :
    Simulates (orServers lim peek iter) (orSet iter)
      (fun _ => SetsHeld orSuffix S)
      (fun c => c.plain.NamedIn S) (fun m => m.setName ∈ S) := by
  rw [← orFamily_beside lim peek]
  exact orFamily_names.simulates hS fun r => updateSet_keeps_plain lim (peek r)

theorem readSets_ore {s : Option (Space Ore)} {db : OrDb}
    (h : SetsHeld orSuffix S s db) (n x : Sds) :
    (readSets orSuffix s).ore n x = db.ore n x := by
  rw [Db.ore, Db.ore, Db.elem, Db.elem, h.elems_eq]

variable {g g' : Net (Fin N) (Option (Space Ore)) OrMsg}

/-- The runs that are asked for: names are apart, and members have no NUL bytes. -/
theorem orServers_exists_net (hS : Apart orSuffix S)
    (hg : Reachable (orServers lim peek iter)
      (asking fun c => c.plain.NamedIn S ∧ ∀ x ∈ c.members, NulFree x) g) :
    ∃ h, Reachable (orSet iter) orNulFree h ∧
      Corresponds (fun _ => SetsHeld orSuffix S) g h := by
  refine (orServers_simulates hS).exists_net ?_ ?_ hg
  · intro g a g₁ ha
    cases a with
    | client r c => exact ha.1
    | deliver r i => trivial
  · intro g a g₁ g' g₁' _ _ ha
    cases a with
    | client r c => exact ha.2
    | deliver r i => trivial

/-- **The OR-Set is an add-wins set in any delivery order**, in runs whose names are apart. All
servers are up. No tag of a member is drawn twice in a run. At every server at every moment a member
is visible exactly when an applied message adds a tag of it that no applied message removes, and
exactly when its live set is not empty. So servers that have applied the same messages show the same
sets, and a member whose add has been applied stays visible as long as no remove lists its tag that
was issued after its origin had applied the add. Tags are drawn from an unbounded counter: in the
code it is exact below `INT_MAX`. -/
theorem orServers_addWins (hS : Apart orSuffix S) (hS' : Apart orSuffix S')
    (hg : Reachable (orServers lim peek iter)
      (asking fun c => c.plain.NamedIn S ∧ ∀ x ∈ c.members, NulFree x) g)
    (hg' : Reachable (orServers lim peek iter)
      (asking fun c => c.plain.NamedIn S' ∧ ∀ x ∈ c.members, NulFree x) g') :
    (∀ r, (g.state r).isSome) ∧
    (∀ s x, (tagsOf g.log s x).Nodup) ∧
    (∀ r s x,
      (x ∈ (readSets orSuffix (g.state r)).keys.visible s ↔
        ∃ t ∈ tagsOf (g.applied r) s x, t ∉ removedTagsOf (g.applied r) s x) ∧
      (x ∈ (readSets orSuffix (g.state r)).keys.visible s ↔
        ((readSets orSuffix (g.state r)).ore s x).aset.elems ≠ [])) ∧
    (∀ r r', (∀ e, e ∈ g.applied r ↔ e ∈ g'.applied r') → ∀ s x,
      (x ∈ (readSets orSuffix (g.state r)).keys.visible s ↔
        x ∈ (readSets orSuffix (g'.state r')).keys.visible s)) ∧
    ∀ r s x, ∀ e ∈ g.applied r, ∀ t ∈ e.msg.adds s x,
      (∀ d ∈ g.applied r, e ∈ d.deps → t ∉ d.msg.removes s x) →
        x ∈ (readSets orSuffix (g.state r)).keys.visible s := by
  obtain ⟨h, hh, hcorr⟩ := orServers_exists_net hS hg
  obtain ⟨h', hh', hcorr'⟩ := orServers_exists_net hS' hg'
  have hwins := orSet_addWins hh hh'
  simp only [hcorr.applied, hcorr'.applied, hcorr.log] at hwins
  simp only [fun r => Up.visible_eq (hcorr.state r),
    fun r => Up.visible_eq (hcorr'.state r), fun r => readSets_ore (hcorr.state r)]
  exact ⟨fun r => (hcorr.state r).isSome, hwins⟩

end

/-- Two servers add a member at the same time and one of them removes it again. The remove reaches
the other server before the add it cancels, and the other add survives at both. -/
theorem orServers_addWins_crossing :
    ∃ g, Reachable (orServers {} (fun _ _ => false) (inOrder 2))
        (asking fun c => c.plain.NamedIn {k | k ∈ [ofText "s"]} ∧ ∀ x ∈ c.members, NulFree x) g ∧
      g.appliedIds 0 = [0, 2, 1] ∧ g.appliedIds 1 = [1, 2, 0] ∧
      ofText "a" ∈ (readSets orSuffix (g.state 0)).keys.visible (ofText "s") ∧
      ofText "a" ∈ (readSets orSuffix (g.state 1)).keys.visible (ofText "s") := by
  obtain ⟨g, hg, h0, h1, hvis⟩ :=
    (orServers {} (fun _ _ => false) (inOrder 2)).exists_reachable
      (asking fun c => c.plain.NamedIn {k | k ∈ [ofText "s"]} ∧ ∀ x ∈ c.members, NulFree x)
      (fun g => g.appliedIds 0 = [0, 2, 1] ∧ g.appliedIds 1 = [1, 2, 0] ∧
        ofText "a" ∈ (readSets orSuffix (g.state 0)).keys.visible (ofText "s"))
      [.client 0 (.add (ofText "s") [ofText "a"]), .client 1 (.add (ofText "s") [ofText "a"]),
        .client 0 (.rem (ofText "s") [ofText "a"]), .deliver 1 2, .deliver 0 1, .deliver 1 0]
      (by decide)
  have hsame : ∀ e, e ∈ g.applied 0 ↔ e ∈ g.applied 1 :=
    (Reachable.wellFormed hg).mem_applied_congr (by simp [h0, h1]; tauto)
  have hS : Apart orSuffix {k | k ∈ [ofText "s"]} := by decide
  exact ⟨g, hg, h0, h1, hvis,
    ((orServers_addWins hS hS hg hg).2.2.2.1 0 1 hsame _ _).mp hvis⟩

/-- **A set at the key of a table.** `ORSADD s_orsets_ y` makes a set at the key where the table of
`s` is kept, so with `ORSADD s x` the member `x` gets into that set, where no message has added a
tag of it. -/
theorem orServers_meets_table :
    ∃ g, Reachable (orServers {} (fun _ _ => false) (inOrder 1))
        (asking fun c => ∀ x ∈ c.members, NulFree x) g ∧
      ofText "x" ∈ (readSets orSuffix (g.state 0)).keys.visible (ofText "s_orsets_") ∧
      tagsOf (g.applied 0) (ofText "s_orsets_") (ofText "x") = [] ∧
      ((readSets orSuffix (g.state 0)).ore (ofText "s_orsets_") (ofText "x")).aset.elems = [] :=
  (orServers {} (fun _ _ => false) (inOrder 1)).exists_reachable
    (asking fun c => ∀ x ∈ c.members, NulFree x) _
    [.client 0 (.add (ofText "s_orsets_") [ofText "y"]),
      .client 0 (.add (ofText "s") [ofText "x"])] (by decide)

/-! ### Servers that measure -/

/-- **Servers that hold OR-Sets and measure**: what they hold, and `total_tag_size`. -/
def orServersSize {N : ℕ} (lim : EncodingLimits) (peek : Fin N → Sds → Bool)
    (iter : Fin N → Iteration) : OpBased (Fin N) (OrMeter (Option (Space Ore))) OrCmd OrMsg where
  init _ := ⟨some fun _ => none, 0⟩
  prepare r c s := ((orServers lim peek iter).prepare r c s.db).map fun p =>
    ({ s with db := p.1 }, p.2)
  effect r m s := orsEffectSize (D := (orFamily lim peek iter).held r) m s

/-- What such a server holds, as it reads. -/
def readOrMeter (s : OrMeter (Option (Space Ore))) : OrMeter :=
  ⟨readSets orSuffix s.db, s.totalTagSize⟩

/-- A server that is up, and holds what a replica holds that measures. -/
def HoldsSize (S : Set Sds) (s : OrMeter (Option (Space Ore))) (t : OrMeter) : Prop :=
  SetsHeld orSuffix S s.db t.db ∧
    s.totalTagSize = t.totalTagSize

section

variable {N : ℕ} {lim : EncodingLimits} {peek : Fin N → Sds → Bool} {iter : Fin N → Iteration}
  {S : Set Sds}

theorem orServersSize_simulates (hS : Apart orSuffix S) :
    Simulates (orServersSize lim peek iter) (orSetSize iter) (fun _ => HoldsSize S)
      (fun c => c.plain.NamedIn S) (fun m => m.setName ∈ S) where
  init r := ⟨⟨_, rfl, Private.empty⟩, rfl⟩
  prepare {r c s t} hc hst := by
    have hsim : Simulates (orServers lim peek iter) (orSet iter) _ _ _ := orServers_simulates hS
    have hrel := hsim.prepare (r := r) hc hst.1
    show Option.Rel _ (((orServers lim peek iter).prepare r c s.db).map fun p =>
      ({ s with db := p.1 }, p.2)) ((orsPrepare (.of iter r) c t.db).map fun p =>
        ({ t with db := p.state }, p.msg))
    change Option.Rel _ _ ((orsPrepare (.of iter r) c t.db).map _) at hrel
    generalize (orServers lim peek iter).prepare r c s.db = x at hrel ⊢
    cases hT : orsPrepare (.of iter r) c t.db with
    | none =>
      rw [hT] at hrel
      rw [rel_none_right hrel]
      exact .none
    | some p =>
      rw [hT] at hrel
      obtain ⟨a, rfl, hstate, hmsg, hgood⟩ := rel_some_right hrel
      exact .some ⟨⟨hstate, hst.2⟩, hmsg, hgood⟩
  effect {r m s t} hm hst :=
    orsEffectSize_rel (D := (orFamily lim peek iter).held r)
      (Private.agrees hS (updateSet_keeps_plain lim (peek r)) lim hm) hst

theorem HoldsSize.readOrMeter_exact {s : OrMeter (Option (Space Ore))} {t : OrMeter}
    (h : HoldsSize S s t) : (readOrMeter s).Exact ↔ t.Exact := by
  have hore : ∀ k x, (readOrMeter s).db.ore k x = t.db.ore k x := by
    intro k x
    rw [Db.ore, Db.ore, Db.elem, Db.elem, readOrMeter, h.1.elems_eq]
  have htotal : (readOrMeter s).totalTagSize = t.totalTagSize := h.2
  simp only [OrMeter.Exact, hore, htotal]

variable {g : Net (Fin N) (OrMeter (Option (Space Ore))) OrMsg}

theorem exists_orSetSize_net (hS : Apart orSuffix S)
    (hg : Reachable (orServersSize lim peek iter) (asking fun c => c.plain.NamedIn S) g) :
    ∃ h, Reachable (orSetSize iter) anyOrder h ∧ Corresponds (fun _ => HoldsSize S) g h :=
  (orServersSize_simulates hS).exists_net id (fun _ _ _ => trivial) hg

/-- **When `total_tag_size` is exact**, in runs whose names are apart. All servers are up, and
whatever the order in which messages are applied, the counter of a server is the length of the tags
it stores if and only if, at no point of what the server has applied, a tag of a member has been
added two times more than removed or the other way round. Tags are drawn from unbounded counters: in
the code they are exact below `INT_MAX`. -/
theorem orServers_tag_size_iff (hS : Apart orSuffix S)
    (hg : Reachable (orServersSize lim peek iter) (asking fun c => c.plain.NamedIn S) g)
    (r : Fin N) :
    (g.state r).db.isSome ∧
      ((readOrMeter (g.state r)).Exact ↔ Level (tagMoves (g.applied r))) := by
  obtain ⟨h, hh, hcorr⟩ := exists_orSetSize_net hS hg
  refine ⟨(hcorr.state r).1.isSome, ?_⟩
  rw [(hcorr.state r).readOrMeter_exact, total_tag_size_exact_iff hh, hcorr.applied]

end

/-- The clients of three servers add a member to a set and remove it concurrently. -/
def concurrentRemoves : List (Act (Fin 3) OrCmd) :=
  [.client 0 (.add (ofText "s") [ofText "a"]), .deliver 1 0, .deliver 2 0,
    .client 0 (.rem (ofText "s") [ofText "a"]), .client 1 (.rem (ofText "s") [ofText "a"]),
    .client 2 (.rem (ofText "s") [ofText "a"]), .deliver 0 2]

/-- Two removes of a tag that was added once leave an exact counter behind. -/
theorem orServers_tag_size_twice : ∃ g,
    Reachable (orServersSize {} (fun _ _ => false) (inOrder 3))
        (asking fun c => c.plain.NamedIn {k | k ∈ [ofText "s"]}) g ∧
      (g.applied 0).length = 3 ∧ (readOrMeter (g.state 0)).Exact := by
  obtain ⟨g, hg, hlen, hlevel⟩ :=
    (orServersSize {} (fun _ _ => false) (inOrder 3)).exists_reachable
      (asking fun c => c.plain.NamedIn {k | k ∈ [ofText "s"]})
      (fun g => (g.applied 0).length = 3 ∧ Level (tagMoves (g.applied 0))) concurrentRemoves
      (by decide)
  exact ⟨g, hg, hlen, (orServers_tag_size_iff (by decide) hg 0).2.mpr hlevel⟩

/-- The third one is counted and not stored. -/
theorem orServers_tag_size_drifts : ∃ g,
    Reachable (orServersSize {} (fun _ _ => false) (inOrder 3))
        (asking fun c => c.plain.NamedIn {k | k ∈ [ofText "s"]}) g ∧
      ¬ (readOrMeter (g.state 0)).Exact := by
  obtain ⟨g, hg, hlevel⟩ :=
    (orServersSize {} (fun _ _ => false) (inOrder 3)).exists_reachable
      (asking fun c => c.plain.NamedIn {k | k ∈ [ofText "s"]})
      (fun g => ¬ Level (tagMoves (g.applied 0))) (concurrentRemoves ++ [.deliver 0 3])
      (by decide)
  obtain ⟨h, hh, hcorr⟩ := exists_orSetSize_net (by decide) hg
  refine ⟨g, hg, fun hexact => hlevel ?_⟩
  rw [(hcorr.state 0).readOrMeter_exact, total_tag_size_exact_iff hh, hcorr.applied] at hexact
  exact hexact

end RemoveWin
