import RemoveWin.BinarySafe

/-!
# The set families refine plain sets

A replica of the RWF-Set or the OR-Set that hears of nobody does to its visible sets what the
commands do to plain sets, as long as members have no NUL bytes and a store names its destination as
its first source. A destination that is the first source is on the right side of the result, and a
tag of the OR-Set that is drawn next has never been drawn, so it is not a tombstone.
-/

namespace RemoveWin

open Replicated

/-- A destination that is the first source is on the right side of the result. -/
theorem StoreOp.within_result (op : StoreOp) (S : PlainSets) (src : Sds) (srcs : List Sds) :
    op.Within (S src) (op.result S src srcs) := by
  cases op with
  | union => exact fun x hx => ⟨src, List.mem_cons_self, hx⟩
  | inter => exact fun x hx => hx src List.mem_cons_self
  | diff => exact fun x hx => hx.1

theorem StoreOp.nulFree_result (op : StoreOp) {S : PlainSets} (hS : ∀ k, ∀ x ∈ S k, NulFree x)
    (src : Sds) (srcs : List Sds) : ∀ x ∈ op.result S src srcs, NulFree x := by
  cases op with
  | union => exact fun x ⟨k, _, hx⟩ => hS k x hx
  | inter => exact fun x hx => hS src x (hx src List.mem_cons_self)
  | diff => exact fun x hx => hS src x hx.1

/-- **The RWF-Set refines the plain sets.** -/
theorem rwSet_refines {N : ℕ} (iter : Fin N → Iteration) :
    RefinesPlainSets (rwSet iter) Db.keys RwCmd.plain := by
  refine refinesPlainSets_of_step (fun r => Keys.sets_empty) ?_
  intro r cs db c hrun _ hnul hc
  obtain ⟨L, hok⟩ := rwOk_of_alone iter hrun
  have hid : 0 ≤ (Server.of iter r).p2pId := by simp [Server.of]
  have hlt : (Server.of iter r).p2pId.toNat < (Server.of iter r).p2pCount := by simp [Server.of]
  have hstore : ∀ (op : StoreOp) (src : Sds) (srcs : List Sds), db.keys src ≠ none →
      ∃ p, rwsPrepare (.of iter r) (op.rw src src srcs) db = some p ∧
        (RwDb.after (.of iter r) p).keys.sets =
          Function.update db.keys.sets src (op.result db.keys.sets src srcs) := by
    intro op src srcs hsrc
    obtain ⟨p, hp, hsets⟩ := hok.store hid hlt hsrc op src srcs
    refine ⟨p, hp, ?_⟩
    rw [hsets, op.leaves_copies_iff.mpr ⟨op.within_result .., fun x hx => ?_, fun x hx => ?_⟩]
    · exact op.nulFree_result hnul src srcs x hx.1
    · exact hnul src x hx.1
  obtain ⟨p, hp, hsets⟩ : ∃ p, rwsPrepare (.of iter r) c db = some p ∧
      (RwDb.after (.of iter r) p).keys.sets = c.plain.apply db.keys.sets := by
    cases c with
    | add key members => exact ⟨_, rfl, sets_rwsadd hok hid hlt key members⟩
    | rem key members => exact ⟨_, rfl, sets_rwsrem hok hid hlt fun x hx _ => hc.2 x hx⟩
    | unionstore dst src srcs =>
      obtain ⟨rfl, hdst⟩ := hc
      exact hstore .union src srcs hdst
    | diffstore dst src srcs =>
      obtain ⟨rfl, hdst⟩ := hc
      exact hstore .diff src srcs hdst
    | interstore dst src srcs =>
      obtain ⟨rfl, hdst⟩ := hc
      exact hstore .inter src srcs hdst
  exact ⟨_, OpBased.perform_eq (Option.map_eq_some_iff.mpr ⟨p, hp, rfl⟩), hsets⟩

/-! ### The OR-Set -/

section

variable {srv : Server} {db : OrDb} {key : Sds} {xs : List Sds}

/-- An `ORSADD` that sends nothing names visible members. -/
theorem orsadd_refused (ho : db.keys.OnlySets) {p : Prepared OrDb OrMsg}
    (hp : orsaddPrepare srv key xs db = some p) (hm : p.msg = none) :
    ∀ x ∈ xs, x ∈ db.keys.visible key := by
  have hround : ∀ x (db' : OrDb), Option.map OrAdd.member (if db.keys.lacks key x then
      drawTag srv key x x db' else (db', none)).2 =
        if db.keys.lacks key x then some (sdsnew x) else none := by
    intro x db'
    split <;> rfl
  rw [orsaddPrepare, Db.view_eq] at hp
  split at hp
  · next hother => exact absurd hother (ho key _)
  · dsimp only at hp
    split at hp
    · next hemp =>
      intro x hx
      have hmap := map_collect OrAdd.member hround xs db
      rw [List.isEmpty_iff.mp hemp] at hmap
      have hx' := List.filterMap_eq_nil_iff.mp hmap.symm x hx
      by_contra hvis
      rw [if_pos (ho.lacks_iff.mpr hvis)] at hx'
      cases hx'
    · cases hp
      cases hm

theorem exists_orsaddPrepare (srv : Server) (key : Sds) (xs : List Sds) (ho : db.keys.OnlySets) :
    ∃ p, orsaddPrepare srv key xs db = some p := by
  rw [orsaddPrepare, Db.view_eq]
  split
  · next hother => exact absurd hother (ho key _)
  · dsimp only
    split <;> exact ⟨_, rfl⟩

/-- An `ORSREM` that sends nothing names members that are not visible. -/
theorem orsrem_refused (ho : db.keys.OnlySets) (hm : (orsremPrepare srv key xs db).msg = none) :
    ∀ x ∈ xs, x ∉ db.keys.visible key := by
  intro x hx hvis
  rw [orsremPrepare, Db.view_eq] at hm
  split at hm
  · next hnone => simp [Keys.visible_of_none hnone] at hvis
  · next hother => exact absurd hother (ho key _)
  · next set hset =>
    dsimp only at hm
    split at hm
    · next hemp =>
      have hnil : (orsremLists srv key set xs db).2 = [] := List.isEmpty_iff.mp hemp
      have hmem : _ ∈ (orsremLists srv key set xs db).2 := (mem_orsremLists set db _).mpr
        ⟨x, hx, setTypeIsMember_iff.mpr ((Keys.mem_visible_set hset).mp hvis), rfl⟩
      rw [hnil] at hmem
      cases hmem
    · cases hm

end

section

variable {N : ℕ} {iter : Fin N → Iteration} {g : Net (Fin N) OrDb OrMsg}

theorem tagAfter_notMem_rset (hg : Reachable (orSet iter) orNulFree g) (r : Fin N) (s x : Sds)
    (i : ℕ) : (g.state r).tagAfter (.of iter r) s x i ∉ ((g.state r).ore s x).rset := by
  have w := Reachable.wellFormed hg
  have hfresh : ∀ e ∈ g.log, (g.state r).tagAfter (.of iter r) s x i ∉ e.msg.adds s x := by
    intro e he hadds
    obtain ⟨c, hc, heq⟩ := (drawn_of_reachable hg).origin e he s x _ hadds
    obtain ⟨hr, hcur⟩ := eq_of_lcToSds_eq heq
    rw [← hr, ← hcur] at hc
    omega
  have htracks := ((orOk_of_reachable hg r).tracks s x).dead_iff
    (t := (g.state r).tagAfter (.of iter r) s x i)
  rw [addsIn_orItems, removesIn_orItems] at htracks
  have hadds : (g.state r).tagAfter (.of iter r) s x i ∉ tagsOf (g.applied r) s x := by
    intro hadds
    obtain ⟨e, he, het⟩ := List.mem_flatMap.mp hadds
    exact hfresh e (w.applied_mem he) het
  intro hdead
  obtain ⟨d, hd, hdt⟩ := List.mem_flatMap.mp ((htracks hadds).mp hdead)
  obtain ⟨e, he, het⟩ := exists_add_mem_deps hg d (w.applied_mem hd) s x _ hdt
  exact hfresh e (w.deps_mem (w.applied_mem hd) he).1 het

theorem sets_of_refused {db : OrDb} {r : Fin N} {c : OrCmd} {p : Prepared OrDb OrMsg}
    (hp : orsPrepare (.of iter r) c db = some p) (hm : p.msg = none) :
    ∃ db', (orSet iter).perform r c db = some db' ∧ db'.keys.sets = db.keys.sets := by
  refine ⟨_, orSet_perform hp, ?_⟩
  rw [orAfter, hm, Option.elim_none, (orCopies_orsPrepare hp).same.keys]

/-- **The OR-Set refines the plain sets.** -/
theorem orSet_refines (iter : Fin N → Iteration) :
    RefinesPlainSets (orSet iter) Db.keys OrCmd.plain := by
  refine refinesPlainSets_of_step (fun r => Keys.sets_empty) ?_
  intro r cs db c hrun hcs hnul hc
  have hok := orSound_of_alone hrun
  obtain ⟨g, hg, rfl, -⟩ := hrun.exists_reachable (C := orNulFree) fun c' hc' _ _ x hx =>
    hcs c' hc' x (c'.members_plain ▸ hx)
  have hfresh := tagAfter_notMem_rset hg r
  have hstore : ∀ (op : StoreOp) (src : Sds) (srcs : List Sds), (g.state r).keys src ≠ none →
      ∃ db', (orSet iter).perform r (op.or src src srcs) (g.state r) = some db' ∧ db'.keys.sets =
        Function.update (g.state r).keys.sets src
          (op.result (g.state r).keys.sets src srcs) := by
    intro op src srcs hsrc
    obtain ⟨p, hp, hsets⟩ := hok.store (.of iter r) hsrc op src srcs
    refine ⟨_, orSet_perform hp, ?_⟩
    rw [hsets, op.leaves_some_iff.mpr ⟨op.within_result .., fun x _ => ?_⟩]
    simpa [Db.tagAfter, Db.nextTag] using hfresh src x 0
  cases c with
  | add key members =>
    obtain ⟨p, hp⟩ := exists_orsaddPrepare (.of iter r) key members hok.onlySets
    cases hm : p.msg with
    | none =>
      obtain ⟨db', hdb', hsets⟩ := sets_of_refused (c := .add key members) hp hm
      have hall := orsadd_refused hok.onlySets hp hm
      refine ⟨db', hdb', hsets.trans (Function.update_eq_self_iff.mpr ?_).symm⟩
      exact Set.union_eq_self_of_subset_right hall
    | some m =>
      have hprep : (orSet iter).prepare r (.add key members) (g.state r) = some (p.state, some m) :=
        Option.map_eq_some_iff.mpr ⟨p, hp, by rw [hm]⟩
      refine ⟨_, OpBased.perform_eq hprep,
        ((orSet_add_safeWhen iter r cs _ hrun key members _ m hprep).mpr ⟨hc.2, ?_⟩).sets⟩
      exact fun x hx _ => ⟨0, List.count_pos_iff.mpr hx, hfresh key x 0⟩
  | rem key members =>
    cases hm : (orsremPrepare (.of iter r) key members (g.state r)).msg with
    | none =>
      obtain ⟨db', hdb', hsets⟩ := sets_of_refused (c := .rem key members) rfl hm
      have hall := orsrem_refused hok.onlySets hm
      refine ⟨db', hdb', hsets.trans (Function.update_eq_self_iff.mpr ?_).symm⟩
      exact sdiff_eq_left.mpr (Set.disjoint_right.mpr hall)
    | some m =>
      have hprep : (orSet iter).prepare r (.rem key members) (g.state r) = some (_, some m) :=
        Option.map_eq_some_iff.mpr ⟨_, rfl, by rw [hm]⟩
      exact ⟨_, OpBased.perform_eq hprep,
        ((orSet_rem_safeWhen iter r cs _ hrun key members _ m hprep).mpr trivial).sets⟩
  | unionstore dst src srcs =>
    obtain ⟨rfl, hdst⟩ := hc
    exact hstore .union src srcs hdst
  | diffstore dst src srcs =>
    obtain ⟨rfl, hdst⟩ := hc
    exact hstore .diff src srcs hdst
  | interstore dst src srcs =>
    obtain ⟨rfl, hdst⟩ := hc
    exact hstore .inter src srcs hdst

end

end RemoveWin
