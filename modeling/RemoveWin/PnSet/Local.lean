import RemoveWin.PlainSet
import RemoveWin.PnSet.Convergence

/-!
# Updates of the positive-negative set at their own replica

An add raises the counter of a member to one, from whatever it is, and so the member is visible
where the add was accepted. A remove takes one off for each time it names the member. That is
enough if the counter is not greater, and it may be: increments of different replicas add up, and
so do those of one command that names a member twice. Then the member is still visible where its
remove was accepted. The same goes for the store commands that remove, which name every member of
the destination that they drop once.
-/

namespace RemoveWin

open Replicated

/-- What an accepted command should leave visible at its replica. -/
def PnCmd.TakesEffect (before after : PnDb) : PnCmd → Prop
  | .add key members => ∀ x ∈ members, x ∈ after.keys.visible key
  | .rem key members => ∀ x ∈ members, x ∉ after.keys.visible key
  | .unionstore _ _ _ => True
  | .diffstore dst src srcs => ∀ x ∈ after.keys.visible dst,
      x ∈ before.keys.visible src ∧ ∀ k ∈ srcs, x ∉ before.keys.visible k
  | .interstore dst src srcs => ∀ x ∈ after.keys.visible dst,
      ∀ k ∈ src :: srcs, x ∈ before.keys.visible k

/-- No counter exceeds what the command takes off it: one for each time a member is named by
`PNSREM`, one for a member that a store command drops. -/
def PnCmd.RemovesEnough (db : PnDb) : PnCmd → Prop
  | .add _ _ => True
  | .rem key members => ∀ x ∈ members, (db.pne key x).current ≤ members.count x
  | .unionstore _ _ _ => True
  | .diffstore dst src srcs => ∀ x ∈ db.keys.visible dst,
      ¬ (x ∈ db.keys.visible src ∧ ∀ k ∈ srcs, x ∉ db.keys.visible k) →
        (db.pne dst x).current ≤ 1
  | .interstore dst src srcs => ∀ x ∈ db.keys.visible dst,
      ¬ (∀ k ∈ src :: srcs, x ∈ db.keys.visible k) → (db.pne dst x).current ≤ 1

/-- The command on plain sets. -/
def PnCmd.plain : PnCmd → SetCmd
  | .add key members => .add key members
  | .rem key members => .rem key members
  | .unionstore dst src srcs => .unionstore dst src srcs
  | .diffstore dst src srcs => .diffstore dst src srcs
  | .interstore dst src srcs => .interstore dst src srcs

/-- The members given with a command. -/
def PnCmd.members : PnCmd → List Sds
  | .add _ members => members
  | .rem _ members => members
  | _ => []

/-! ### What a message takes off and adds -/

theorem delta_rem (s : Sds) (xs : List Sds) (x : Sds) :
    (PnMsg.rem s xs).delta s x = -(xs.count x : ℤ) := by
  induction xs with
  | nil => rfl
  | cons y xs ih =>
    have hcons : (PnMsg.rem s (y :: xs)).delta s x =
        (PnMsg.rem s xs).delta s x + total [⟨s, y, none⟩] s x := by
      rw [PnMsg.delta, PnMsg.items, List.reverse_cons, List.map_append, total_append]
      rfl
    rw [hcons, ih, List.count_cons]
    by_cases hy : y = x
    · subst hy
      rw [total_singleton_self ⟨s, y, none⟩, if_pos (beq_self_eq_true y), PnItem.delta]
      push_cast
      rw [Option.getD_none]
      ring
    · rw [total_singleton_of_ne fun h => hy (Prod.mk.inj h).2.symm, if_neg (by simpa using hy)]
      simp

theorem le_delta_add {s : Sds} {es : List PnAdd} (hpos : ∀ en ∈ es, 1 ≤ en.cnt) {x : Sds} :
    0 ≤ (PnMsg.add s es).delta s x ∧
      ∀ en ∈ es, en.member = x → en.cnt ≤ (PnMsg.add s es).delta s x := by
  have hnonneg : ∀ d ∈ ((PnMsg.add s es).items.filter fun it =>
      it.setName = s ∧ it.member = x).map PnItem.delta, 0 ≤ d := by
    intro d hd
    obtain ⟨it, hit, rfl⟩ := List.mem_map.mp hd
    obtain ⟨en, hen, rfl⟩ := List.mem_map.mp (List.mem_filter.mp hit).1
    exact le_trans (by decide) (hpos en (List.mem_reverse.mp hen))
  refine ⟨List.sum_nonneg hnonneg, fun en hen hx => ?_⟩
  refine List.single_le_sum hnonneg _ (List.mem_map.mpr ⟨⟨s, en.member, some en.cnt⟩, ?_, rfl⟩)
  refine List.mem_filter.mpr ⟨?_, by simp [hx]⟩
  exact List.mem_map.mpr ⟨en, List.mem_reverse.mpr hen, rfl⟩

theorem delta_add_eq_zero {s : Sds} {es : List PnAdd} {x : Sds} (h : ∀ en ∈ es, en.member ≠ x) :
    (PnMsg.add s es).delta s x = 0 := by
  have hnone : ((PnMsg.add s es).items.filter fun it => it.setName = s ∧ it.member = x) = [] := by
    rw [List.filter_eq_nil_iff]
    intro it hit
    obtain ⟨en, hen, rfl⟩ := List.mem_map.mp hit
    simpa using h en (List.mem_reverse.mp hen)
  rw [PnMsg.delta, total, hnone]
  rfl

section

variable {L : List PnItem} {db : PnDb} {p : Prepared PnDb PnMsg} {m : PnMsg}

/-- **After an own message** a member is visible if its counter, with what the message did to it,
is positive. -/
theorem PnOk.own (hok : PnOk L db) (hp : PnPrepared db p) (hm : p.msg = some m) (s x : Sds) :
    x ∈ (pnsEffect m p.state).keys.visible s ↔ 0 < (db.pne s x).current + m.delta s x := by
  have hafter := (hok.congr hp.keys hp.pne).effect (hp.sent m hm)
  rw [hafter.visible, hafter.counter, total_append, ← hok.counter]
  rfl

/-! ### The commands -/

/-- The entries of an adding loop: the members that are not visible, each with what its counter
lacks. `k` is what a member is looked up under. -/
theorem collect_raiseToOne {s : Sds} {k : Sds → Sds} {xs : List Sds} (hk : ∀ x ∈ xs, k x = x)
    (hnul : ∀ x ∈ xs, NulFree x) (db : PnDb) :
    (collect (fun x db' => if db.keys.lacks s x then raiseToOne s (k x) x db' else (db', none))
        xs db).2 =
      (xs.filter (db.keys.lacks s)).map fun x => ⟨x, 1 - (db.pne s x).current⟩ := by
  have hround : ∀ (x : Sds) (db' : PnDb),
      (if db.keys.lacks s x then raiseToOne s (k x) x db' else (db', none)).1.pne = db'.pne ∧
      (if db.keys.lacks s x then raiseToOne s (k x) x db' else (db', none)).2 =
        if db.keys.lacks s x then some ⟨sdsnew x, 1 - (db'.pne s (k x)).current⟩ else none := by
    intro x db'
    split
    · refine ⟨Db.elem_htGet .., ?_⟩
      show some (⟨sdsnew x, 1 - (pneHTGet db' s (k x)).1.current⟩ : PnAdd) = _
      rw [pneHTGet, Db.get_eq, Db.htGet_fst]
    · exact ⟨rfl, rfl⟩
  rw [collect_of_still (fun db' : PnDb => db'.pne) (f := fun x pne => if db.keys.lacks s x then
    some ⟨sdsnew x, 1 - (pne s (k x)).current⟩ else none) hround, filterMap_ite_some]
  refine List.map_congr_left fun x hx => ?_
  have hxs := (List.mem_filter.mp hx).1
  rw [hk x hxs, sdsnew_of_nulFree (hnul x hxs)]

/-- **Raising counters to one** makes what was not visible visible. -/
theorem PnOk.own_raise (hok : PnOk L db) (hp : PnPrepared db p) {s : Sds} {xs : List Sds}
    (hm : p.msg = some (.add s ((xs.filter (db.keys.lacks s)).map
      fun x => ⟨x, 1 - (db.pne s x).current⟩))) (x : Sds) :
    x ∈ (pnsEffect (.add s ((xs.filter (db.keys.lacks s)).map
        fun x => ⟨x, 1 - (db.pne s x).current⟩)) p.state).keys.visible s ↔
      x ∈ db.keys.visible s ∨ x ∈ xs := by
  rw [hok.own hp hm, hok.visible]
  have hpos : ∀ en ∈ (xs.filter (db.keys.lacks s)).map
      fun x => (⟨x, 1 - (db.pne s x).current⟩ : PnAdd), 1 ≤ en.cnt := by
    intro en hen
    have hit : (⟨s, en.member, some en.cnt⟩ : PnItem).Sent :=
      hp.sent _ hm _ (List.mem_map.mpr ⟨en, List.mem_reverse.mpr hen, rfl⟩)
    exact hit.pos en.cnt rfl
  obtain ⟨hnonneg, hle⟩ := le_delta_add hpos (s := s) (x := x)
  by_cases hcur : 0 < (db.pne s x).current
  · exact iff_of_true (by omega) (.inl hcur)
  · have hlacks : db.keys.lacks s x :=
      hok.onlySets.lacks_iff.mpr fun hvis => hcur ((hok.visible s x).mp hvis)
    by_cases hx : x ∈ xs
    · have hcnt := hle ⟨x, 1 - (db.pne s x).current⟩
        (List.mem_map.mpr ⟨x, List.mem_filter.mpr ⟨hx, hlacks⟩, rfl⟩) rfl
      dsimp only at hcnt
      exact iff_of_true (by omega) (.inr hx)
    · rw [delta_add_eq_zero, add_zero]
      · exact iff_of_false hcur (not_or.mpr ⟨hcur, hx⟩)
      · intro en hen hmem
        obtain ⟨y, hy, rfl⟩ := List.mem_map.mp hen
        exact hx (hmem ▸ (List.mem_filter.mp hy).1)

/-- **An accepted add is visible.** -/
theorem PnOk.add_takesEffect (hok : PnOk L db) {key : Sds} {members : List Sds}
    (hp : pnsaddPrepare key members db = some p) (hm : p.msg = some m)
    (hnul : ∀ x ∈ members, NulFree x) :
    ∀ x ∈ members, x ∈ (pnsEffect m p.state).keys.visible key := by
  have hspec := pnsaddPrepare_spec hok hp
  obtain rfl : m = .add key ((members.filter (db.keys.lacks key)).map
      fun x => ⟨x, 1 - (db.pne key x).current⟩) := by
    rw [← collect_raiseToOne (k := id) (fun _ _ => rfl) hnul]
    rw [pnsaddPrepare] at hp
    split at hp
    · split at hp
      · cases hp
        cases hm
      · cases hp
    · dsimp only at hp
      split at hp
      · cases hp
        cases hm
      · cases hp
        exact (Option.some.inj hm).symm
  exact fun x hx => (hok.own_raise hspec hm x).mpr (.inr hx)

/-- A remove takes a member out if and only if its counter is at most the number of times the
command names it. -/
theorem PnOk.rem_takesEffect_iff (hok : PnOk L db) {key : Sds} {members : List Sds}
    (hm : (pnsremPrepare key members db).msg = some m) (hnul : ∀ x ∈ members, NulFree x) :
    (∀ x ∈ members, x ∉ (pnsEffect m (pnsremPrepare key members db).state).keys.visible key) ↔
      ∀ x ∈ members, (db.pne key x).current ≤ members.count x := by
  have hprep : pnsPrepare ⟨0, 0, .insertion⟩ (.rem key members) db =
      some (pnsremPrepare key members db) := rfl
  have hspec := pnsPrepare_spec hok hprep
  have hown := hok.own hspec hm
  refine forall₂_congr fun x hx => ?_
  rw [hown]
  rw [pnsremPrepare, Db.view_eq] at hm
  split at hm
  · cases hm
  · cases hm
  · next set hset =>
    dsimp only at hm
    split at hm
    · cases hm
    · cases hm
      have hcopies : ((members.filter fun x => setTypeIsMember set x).map sdsnew) =
          members.filter fun x => setTypeIsMember set x :=
        map_sdsnew_of_nulFree fun y hy => hnul y (List.mem_filter.mp hy).1
      rw [hcopies, delta_rem]
      by_cases hvis : x ∈ set
      · rw [List.count_filter (by simpa using hvis)]
        omega
      · -- what is not visible is not named in the message, and has no counter to speak of
        have hcur : ¬ 0 < (db.pne key x).current := by
          rwa [← hok.visible, Keys.mem_visible_set hset]
        have hnot : x ∉ members.filter fun x => setTypeIsMember set x := by
          simp [hvis]
        rw [List.count_eq_zero_of_not_mem hnot]
        omega

/-- **A store command that removes** keeps what it computed and what counts more than one. -/
theorem PnOk.mem_visible_store (hok : PnOk L db) (srv : Server) {dst : Sds} {set : SetObj}
    (hset : db.keys dst = some (.set set)) (dstset : SetObj) (x : Sds) :
    x ∈ (pnsEffect (.rem dst (pnsstoreRemoves srv set dstset)) db).keys.visible dst ↔
      x ∈ db.keys.visible dst ∧ (x ∈ dstset ∨ 1 < (db.pne dst x).current) := by
  have hown : x ∈ (pnsEffect (.rem dst (pnsstoreRemoves srv set dstset)) db).keys.visible dst ↔
      0 < (db.pne dst x).current + (PnMsg.rem dst (pnsstoreRemoves srv set dstset)).delta dst x :=
    hok.own (PnPrepared.rem db [] dst _) rfl dst x
  have hcopies : pnsstoreRemoves srv set dstset =
      (srv.iter.order set.elems).filter fun x => !setTypeIsMember dstset x := by
    refine map_sdsnew_of_nulFree fun y hy => hok.nulFree dst y ?_
    rw [Keys.mem_visible_set hset]
    simpa using (List.mem_filter.mp hy).1
  have hnodup : (pnsstoreRemoves srv set dstset).Nodup := by
    rw [hcopies]
    exact ((srv.iter.perm set.elems).nodup_iff.mpr set.nodup).filter _
  have hmem : x ∈ pnsstoreRemoves srv set dstset ↔ x ∈ db.keys.visible dst ∧ x ∉ dstset := by
    rw [hcopies, List.mem_filter, Keys.mem_visible_set hset, Bool.not_eq_true',
      Bool.eq_false_iff, Ne, setTypeIsMember_iff, Iteration.mem_order, SetObj.mem_elems]
  have hvis := hok.visible dst x
  rw [hown, delta_rem]
  by_cases hx : x ∈ pnsstoreRemoves srv set dstset
  · obtain ⟨hin, hnot⟩ := hmem.mp hx
    rw [List.count_eq_one_of_mem hnodup hx, and_iff_right hin, or_iff_right hnot]
    omega
  · rw [List.count_eq_zero_of_not_mem hx, Nat.cast_zero, neg_zero, add_zero, ← hvis]
    refine ⟨fun hin => ⟨hin, .inl (by_contra fun hnot => hx (hmem.mpr ⟨hin, hnot⟩))⟩, And.left⟩

/-- A store command that removes leaves only what it computed if and only if the counters of what
it drops are at most one. -/
theorem PnOk.store_takesEffect_iff (hok : PnOk L db) {srv : Server} {dst : Sds}
    {set dstset : SetObj} (hset : db.keys dst = some (.set set)) :
    (∀ x ∈ (pnsEffect (.rem dst (pnsstoreRemoves srv set dstset)) db).keys.visible dst,
      x ∈ dstset) ↔
      ∀ x ∈ db.keys.visible dst, x ∉ dstset → (db.pne dst x).current ≤ 1 := by
  simp only [hok.mem_visible_store srv hset]
  refine forall_congr' fun x => ⟨fun h hin hnot => ?_, fun h ⟨hin, hcases⟩ => ?_⟩
  · exact not_lt.mp fun hcur => hnot (h ⟨hin, .inr hcur⟩)
  · exact hcases.elim id fun hcur => by_contra fun hnot => absurd (h hin hnot) (not_le.mpr hcur)

/-- **A command takes effect if and only if it removes enough**, where visibility follows the
counters. -/
theorem PnOk.takesEffect_iff (hok : PnOk L db) {srv : Server} {c : PnCmd}
    (hp : pnsPrepare srv c db = some p) (hm : p.msg = some m)
    (hnul : ∀ x ∈ c.members, NulFree x) :
    c.TakesEffect db (pnsEffect m p.state) ↔ c.RemovesEnough db := by
  cases c with
  | add key members => exact iff_of_true (hok.add_takesEffect hp hm hnul) trivial
  | rem key members =>
    cases hp
    exact hok.rem_takesEffect_iff hm hnul
  | unionstore dst src srcs => exact Iff.rfl
  | diffstore dst src srcs =>
    obtain ⟨o, replies, hres, hmem⟩ := hok.onlySets.mem_sdiffResult srv src srcs
    simp only [pnsPrepare, pnsdiffstorePrepare, Db.view_eq, hres] at hp
    split at hp
    · next hset =>
      obtain ⟨rfl, -⟩ := Prod.mk.inj (Option.some.inj ‹_›)
      cases hp
      cases hm
      simp only [PnCmd.TakesEffect, PnCmd.RemovesEnough, ← hmem]
      exact hok.store_takesEffect_iff (hok.onlySets.eq_set hset)
    · cases hp
  | interstore dst src srcs =>
    simp only [pnsPrepare, pnsinterstorePrepare] at hp
    split at hp
    · next hset =>
      cases hp
      cases hm
      have hmem : ∀ x, (∀ k ∈ src :: srcs, x ∈ db.keys.visible k) ↔
          x ∈ (sinterResult srv db.keys src srcs .empty).1 := by
        intro x
        rw [hok.onlySets.mem_sinterResult, List.forall_mem_cons]
      simp only [PnCmd.TakesEffect, PnCmd.RemovesEnough, hmem]
      exact hok.store_takesEffect_iff (hok.onlySets.eq_set hset)
    · cases hp

end

/-- **PN-Set updates take effect where they are accepted if and only if they remove enough.** In
any reachable state, in whatever order messages came, an accepted command is followed by its own
effect. Adds always take effect; a remove does if the counters are no greater than what it takes
off. -/
theorem pnSet_takes_effect_iff {N : ℕ} {iter : Fin N → Iteration} {g : Net (Fin N) PnDb PnMsg}
    (hg : Reachable (pnSet iter) anyOrder g) {r : Fin N} {c : PnCmd} {db : PnDb} {m : PnMsg}
    (hp : (pnSet iter).prepare r c (g.state r) = some (db, some m))
    (hnul : ∀ x ∈ c.members, NulFree x) :
    c.TakesEffect (g.state r) ((pnSet iter).effect r m db) ↔ c.RemovesEnough (g.state r) := by
  obtain ⟨p, hprep, heq⟩ := Option.map_eq_some_iff.mp hp
  obtain ⟨rfl, hm⟩ := Prod.mk.inj heq
  exact ((pnOk_of_reachable hg).2 r).takesEffect_iff hprep hm hnul

end RemoveWin
