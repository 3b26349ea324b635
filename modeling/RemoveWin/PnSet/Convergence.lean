import RemoveWin.PnSet.Model

/-!
# Convergence of the positive-negative set

The counter of a member at a replica is the sum of what the applied messages add to it and take
from it, in whatever order they came. That the visible set follows the sign of the counter is
less clear, because an add never deletes and a remove never inserts: it needs every increment to
be positive. An increment is one minus a counter of its origin, taken when the member was not
visible there, so it is positive if visibility followed the counter at the origin. The two facts
are proved by one induction over runs.

Nothing here needs members without NUL bytes. What is sent is always a truncated copy, so the
visible sets only ever have members the copy is faithful for.

## Main results

* `RemoveWin.PnOk.item` — one entry keeps the invariant
* `RemoveWin.pnOk_of_reachable` — the invariant of every replica of every run
* `RemoveWin.pnSet_convergence` — increments are positive, counters are sums, visibility is the
  sign, and replicas with the same messages agree
-/

namespace RemoveWin

open Replicated

/-- One entry of a message, with the set it came with and what it does to the counter. -/
structure PnItem where
  /-- The name of the set. -/
  setName : Sds
  /-- The member. -/
  member : Sds
  /-- The increment of an add, `none` for a remove. -/
  cnt : Option ℤ

/-- The items of a message, in the order the effect takes them. -/
def PnMsg.items : PnMsg → List PnItem
  | .add s es => es.reverse.map fun en => ⟨s, en.member, some en.cnt⟩
  | .rem s xs => xs.reverse.map fun x => ⟨s, x, none⟩

/-- What an item adds to the counter of its member. -/
def PnItem.delta (it : PnItem) : ℤ := it.cnt.getD (-1)

/-- What a list of items adds to the counter of member `x` of set `s`. -/
def total (L : List PnItem) (s x : Sds) : ℤ :=
  ((L.filter fun it => it.setName = s ∧ it.member = x).map PnItem.delta).sum

/-- What a message adds to the counter of member `x` of set `s`: its increments for `x`, or
minus one for each time it lists `x` for removal. -/
def PnMsg.delta (m : PnMsg) (s x : Sds) : ℤ := total m.items s x

/-- One round of either effect loop. -/
def pnsItem (db : PnDb) (it : PnItem) : PnDb :=
  match it.cnt with
  | some cnt => pnsaddEntry it.setName db ⟨it.member, cnt⟩
  | none => pnsremEntry it.setName db it.member

/-- The counter of a member, as `pneHTGet` returns it. -/
abbrev Db.pne (db : PnDb) (s x : Sds) : Pne := db.elem pneNew s x

theorem pnsaddEntry_eq (s : Sds) (db : PnDb) (en : PnAdd) : pnsaddEntry s db en =
    let e : Pne := ⟨(db.pne s en.member).current + en.cnt⟩
    let db := (db.htGet pneNew s en.member).2.setElem s en.member e
    if 0 < e.current then db.modifySet s (setTypeAdd · en.member) else db := by
  simp only [pnsaddEntry, pneHTGet, Db.get_eq, Db.put_eq, Db.update_add, Db.htGet_fst, Db.pne]

theorem pnsremEntry_eq (s : Sds) (db : PnDb) (x : Sds) : pnsremEntry s db x =
    let e : Pne := ⟨(db.pne s x).current - 1⟩
    let db := (db.htGet pneNew s x).2.setElem s x e
    if e.current ≤ 0 then db.modifySet s (setTypeRemove · x) else db := by
  simp only [pnsremEntry, pneHTGet, Db.get_eq, Db.put_eq, Db.update_remove, Db.htGet_fst, Db.pne]

theorem pnsEffect_eq_foldl (m : PnMsg) (db : PnDb) :
    ∃ db₀ : PnDb, pnsEffect m db = m.items.foldl pnsItem db₀ ∧
      (db₀ = db ∨ ∃ s, db₀ = db.modifySet s id) := by
  cases m with
  | add s es =>
    rw [pnsEffect]
    split
    · next he =>
      rw [List.isEmpty_iff] at he
      exact ⟨db, by simp [PnMsg.items, he], .inl rfl⟩
    · exact ⟨_, by rw [PnMsg.items, List.foldl_map]; rfl, .inr ⟨s, rfl⟩⟩
  | rem s xs =>
    rw [pnsEffect]
    split
    · next he =>
      rw [List.isEmpty_iff] at he
      exact ⟨db, by simp [PnMsg.items, he], .inl rfl⟩
    · exact ⟨_, by rw [PnMsg.items, List.foldl_map]; rfl, .inr ⟨s, rfl⟩⟩

theorem total_append (L L' : List PnItem) (s x : Sds) :
    total (L ++ L') s x = total L s x + total L' s x := by
  simp [total]

theorem total_singleton_self (it : PnItem) : total [it] it.setName it.member = it.delta := by
  simp [total]

theorem total_singleton_of_ne {it : PnItem} {s x : Sds} (hne : (s, x) ≠ (it.setName, it.member)) :
    total [it] s x = 0 := by
  have hne' : ¬ (it.setName = s ∧ it.member = x) := fun h => hne (by rw [h.1, h.2])
  simp [total, hne']

/-! ### One entry -/

section

variable {db : PnDb} {it : PnItem} {s y : Sds}

theorem pne_pnsItem_self (db : PnDb) (it : PnItem) :
    (pnsItem db it).pne it.setName it.member =
      ⟨(db.pne it.setName it.member).current + it.delta⟩ := by
  rcases it with ⟨s, x, _ | cnt⟩
  · simp only [pnsItem, pnsremEntry_eq]
    split <;> simp [Db.pne, PnItem.delta, sub_eq_add_neg]
  · simp only [pnsItem, pnsaddEntry_eq]
    split <;> simp [Db.pne, PnItem.delta]

theorem pne_pnsItem_of_ne (db : PnDb) (hne : (s, y) ≠ (it.setName, it.member)) :
    (pnsItem db it).pne s y = db.pne s y := by
  rcases it with ⟨s', x, _ | cnt⟩
  · simp only [pnsItem, pnsremEntry_eq]
    split <;> simp [Db.pne, Db.elem_setElem_of_ne _ _ _ hne]
  · simp only [pnsItem, pnsaddEntry_eq]
    split <;> simp [Db.pne, Db.elem_setElem_of_ne _ _ _ hne]

theorem onlySets_pnsItem (ho : db.keys.OnlySets) : (pnsItem db it).keys.OnlySets := by
  rcases it with ⟨s, x, _ | cnt⟩
  · simp only [pnsItem, pnsremEntry_eq]
    split
    · simpa using ho.modifySet s _
    · simpa using ho
  · simp only [pnsItem, pnsaddEntry_eq]
    split
    · simpa using ho.modifySet s _
    · simpa using ho

theorem mem_visible_pnsItem_of_ne (ho : db.keys.OnlySets)
    (hne : (s, y) ≠ (it.setName, it.member)) :
    y ∈ (pnsItem db it).keys.visible s ↔ y ∈ db.keys.visible s := by
  rcases it with ⟨s', x, _ | cnt⟩
  · simp only [pnsItem, pnsremEntry_eq]
    split
    · rw [Db.mem_visible_modifySet_of_ne (by simpa using ho) hne fun o hy => by simp [hy]]
      simp
    · simp
  · simp only [pnsItem, pnsaddEntry_eq]
    split
    · rw [Db.mem_visible_modifySet_of_ne (by simpa using ho) hne fun o hy => by simp [hy]]
      simp
    · simp

theorem mem_visible_pnsItem_self (ho : db.keys.OnlySets) (hcnt : ∀ c ∈ it.cnt, 1 ≤ c)
    (hv : it.member ∈ db.keys.visible it.setName ↔
      0 < (db.pne it.setName it.member).current) :
    it.member ∈ (pnsItem db it).keys.visible it.setName ↔
      0 < (db.pne it.setName it.member).current + it.delta := by
  rcases it with ⟨s, x, _ | cnt⟩
  · simp only [pnsItem, pnsremEntry_eq, PnItem.delta,
      Db.pne] at hv ⊢
    split
    · next hle =>
      rw [Db.mem_visible_modifySet_self (p := fun _ => False) (by simpa using ho)
        fun o => by simp]
      exact ⟨False.elim, fun h => absurd hle (not_le.mpr h)⟩
    · next hle =>
      -- a counter that is still positive was positive before
      simp only [Db.keys_setElem, Db.keys_htGet, hv]
      exact ⟨fun _ => not_le.mp hle, fun h => by simp only [Option.getD_none] at h; omega⟩
  · have hpos : 1 ≤ cnt := hcnt cnt rfl
    simp only [pnsItem, pnsaddEntry_eq, PnItem.delta,
      Db.pne] at hv ⊢
    split
    · next hlt =>
      rw [Db.mem_visible_modifySet_self (p := fun _ => True) (by simpa using ho)
        fun o => by simp]
      exact ⟨fun _ => hlt, fun _ => trivial⟩
    · next hlt =>
      -- a counter that is not positive yet was not positive before
      simp only [Db.keys_setElem, Db.keys_htGet, hv]
      exact ⟨fun h => absurd (by omega) hlt, fun h => absurd h hlt⟩

end

/-- The database of a replica that has received the items `L`, in whatever order. -/
structure PnOk (L : List PnItem) (db : PnDb) : Prop where
  /-- The visible keys hold sets. -/
  onlySets : db.keys.OnlySets
  counter : ∀ s x, (db.pne s x).current = total L s x
  visible : ∀ s x, x ∈ db.keys.visible s ↔ 0 < (db.pne s x).current
  nulFree : ∀ s, ∀ x ∈ db.keys.visible s, NulFree x

/-- An item as the prepare phases make them. -/
structure PnItem.Sent (it : PnItem) : Prop where
  pos : ∀ c ∈ it.cnt, 1 ≤ c
  /-- Members have no NUL bytes. -/
  nulFree : NulFree it.member

theorem pnOk_empty : PnOk [] .empty where
  onlySets _ := by simp [SetDb.empty]
  counter s x := by simp [total, pneNew]
  visible s x := by simp [SetDb.empty, Keys.visible, pneNew, Db.pne, Db.elem]
  nulFree s x := by simp [SetDb.empty, Keys.visible]

variable {L : List PnItem} {db db' : PnDb}

theorem PnOk.congr (h : PnOk L db) (hk : db'.keys = db.keys) (he : db'.pne = db.pne) :
    PnOk L db' where
  onlySets := hk ▸ h.onlySets
  counter := he ▸ h.counter
  visible := by rw [hk, he]; exact h.visible
  nulFree := hk ▸ h.nulFree

theorem PnOk.createSet (h : PnOk L db) (s : Sds) : PnOk L (db.modifySet s id) where
  onlySets := h.onlySets.modifySet _ _
  counter := h.counter
  visible s' x := by
    rw [Db.mem_visible_modifySet_id h.onlySets]
    exact h.visible s' x
  nulFree s' x hx := by
    rw [Db.mem_visible_modifySet_id h.onlySets] at hx
    exact h.nulFree s' x hx

/-- **One entry keeps the invariant**, whatever came before it. -/
theorem PnOk.item (h : PnOk L db) {it : PnItem} (hit : it.Sent) :
    PnOk (L ++ [it]) (pnsItem db it) where
  onlySets := onlySets_pnsItem h.onlySets
  counter s x := by
    rw [total_append]
    by_cases hne : (s, x) = (it.setName, it.member)
    · obtain ⟨rfl, rfl⟩ := Prod.mk.inj hne
      rw [pne_pnsItem_self, h.counter, total_singleton_self]
    · rw [pne_pnsItem_of_ne _ hne, h.counter, total_singleton_of_ne hne, add_zero]
  visible s x := by
    by_cases hne : (s, x) = (it.setName, it.member)
    · obtain ⟨rfl, rfl⟩ := Prod.mk.inj hne
      rw [pne_pnsItem_self]
      exact mem_visible_pnsItem_self h.onlySets hit.pos (h.visible _ _)
    · rw [mem_visible_pnsItem_of_ne h.onlySets hne, pne_pnsItem_of_ne _ hne]
      exact h.visible s x
  nulFree s x hx := by
    by_cases hne : (s, x) = (it.setName, it.member)
    · obtain ⟨rfl, rfl⟩ := Prod.mk.inj hne
      exact hit.nulFree
    · rw [mem_visible_pnsItem_of_ne h.onlySets hne] at hx
      exact h.nulFree s x hx

theorem PnOk.effect (h : PnOk L db) {m : PnMsg} (hm : ∀ it ∈ m.items, it.Sent) :
    PnOk (L ++ m.items) (pnsEffect m db) := by
  obtain ⟨db₀, heq, hdb₀⟩ := pnsEffect_eq_foldl m db
  rw [heq]
  refine foldl_received (P := PnOk) ?_ fun _ _ it hit hdb => hdb.item (hm it hit)
  rcases hdb₀ with rfl | ⟨s, rfl⟩
  · exact h
  · exact h.createSet s

/-! ### What a prepare phase sends -/

/-- What every prepare phase guarantees, where visibility follows the counters. -/
structure PnPrepared (db : PnDb) (p : Prepared PnDb PnMsg) : Prop where
  keys : p.state.keys = db.keys
  pne : p.state.pne = db.pne
  sent : ∀ m ∈ p.msg, ∀ it ∈ m.items, it.Sent

theorem PnPrepared.refused (db : PnDb) (replies : List Reply) :
    PnPrepared db ⟨db, replies, none⟩ := ⟨rfl, rfl, by simp⟩

theorem PnPrepared.rem (db : PnDb) (replies : List Reply) (s : Sds) (xs : List Sds) :
    PnPrepared db ⟨db, replies, some (.rem s (xs.map sdsnew))⟩ := by
  refine ⟨rfl, rfl, ?_⟩
  rintro _ ⟨⟩ it hit
  simp only [PnMsg.items, List.mem_map, List.mem_reverse] at hit
  obtain ⟨_, ⟨x, -, rfl⟩, rfl⟩ := hit
  exact ⟨by simp, nulFree_sdsnew x⟩

/-- What a loop that raises counters of `tname` to one does. -/
structure Raises (tname : Sds) (db : PnDb) (r : PnDb × List PnAdd) : Prop where
  keys : r.1.keys = db.keys
  pne : r.1.pne = db.pne
  pos : ∀ en ∈ r.2, 1 ≤ en.cnt
  nulFree : ∀ en ∈ r.2, NulFree en.member

theorem Raises.append {tname : Sds} {db₁ db₂ : PnDb} {es es' : List PnAdd}
    (h : Raises tname db (db₁, es)) (h' : Raises tname db₁ (db₂, es')) :
    Raises tname db (db₂, es ++ es') where
  keys := h'.keys.trans h.keys
  pne := h'.pne.trans h.pne
  pos en hen := (List.mem_append.mp hen).elim (h.pos en) (h'.pos en)
  nulFree en hen := (List.mem_append.mp hen).elim (h.nulFree en) (h'.nulFree en)

theorem raises_raiseToOne {tname x : Sds} (hnot : ¬ 0 < (db.pne tname x).current) :
    Raises tname db ((raiseToOne tname x x db).1, (raiseToOne tname x x db).2.toList) := by
  have hcnt : (pneHTGet db tname x).1 = db.pne tname x := Db.htGet_fst ..
  have hentry : ∀ en ∈ (raiseToOne tname x x db).2.toList,
      en = ⟨sdsnew x, 1 - (db.pne tname x).current⟩ := by
    intro en hen
    rw [← hcnt]
    exact List.eq_of_mem_singleton hen
  refine ⟨Db.keys_htGet .., Db.elem_htGet .., ?_, ?_⟩
  · intro en hen
    rw [hentry en hen]
    show 1 ≤ 1 - (db.pne tname x).current
    omega
  · intro en hen
    rw [hentry en hen]
    exact nulFree_sdsnew x

/-- The loop of the adding commands, over a database with the same counters as one in which
visibility follows them. `key` is where the counter is looked up. -/
theorem raises_collect {tname : Sds} (key : Sds → Sds) (hok : PnOk L db) :
    ∀ {xs : List Sds} {db' : PnDb}, db'.pne = db.pne → (∀ x ∈ xs, key x = x) →
      Raises tname db' (collect (fun x db' =>
        if db.keys.lacks tname x then raiseToOne tname (key x) x db' else (db', none)) xs db') := by
  intro xs
  induction xs with
  | nil => intro db' _ _; exact ⟨rfl, rfl, by simp [collect], by simp [collect]⟩
  | cons x xs ih =>
    intro db' hp hkey
    have htail : ∀ y ∈ xs, key y = y := fun y hy => hkey y (List.mem_cons_of_mem x hy)
    rw [collect]
    by_cases hl : db.keys.lacks tname x = true
    · -- the member is not visible here, so its counter is not positive
      have hnot : ¬ 0 < (db'.pne tname x).current := by
        rw [hp, ← hok.visible]
        exact hok.onlySets.lacks_iff.mp hl
      rw [if_pos hl, hkey x (by simp)]
      have hround := raises_raiseToOne hnot
      exact hround.append (ih (hround.pne.trans hp) htail)
    · rw [if_neg hl]
      exact ih hp htail

theorem Raises.prepared {tname : Sds} {r : PnDb × List PnAdd} (h : Raises tname db r)
    (replies : List Reply) {o : Option PnMsg} (ho : o = none ∨ o = some (.add tname r.2)) :
    PnPrepared db ⟨r.1, replies, o⟩ := by
  refine ⟨h.keys, h.pne, ?_⟩
  rcases ho with rfl | rfl
  · simp
  · rintro _ ⟨⟩ it hit
    simp only [PnMsg.items, List.mem_map, List.mem_reverse] at hit
    obtain ⟨en, hen, rfl⟩ := hit
    exact ⟨by simpa using h.pos en hen, h.nulFree en hen⟩

theorem pnsaddPrepare_spec {key : Sds} {members : List Sds} {p : Prepared PnDb PnMsg}
    (hok : PnOk L db) (hp : pnsaddPrepare key members db = some p) : PnPrepared db p := by
  have hloop : Raises key db (collect (fun x db' =>
      if db.keys.lacks key x then raiseToOne key x x db' else (db', none)) members db) :=
    raises_collect id hok rfl fun _ _ => rfl
  rw [pnsaddPrepare] at hp
  split at hp
  · split at hp
    · cases hp
      exact .refused ..
    · cases hp
  · dsimp only at hp
    split at hp
    · cases hp
      exact hloop.prepared _ (.inl rfl)
    · cases hp
      exact hloop.prepared _ (.inr rfl)

theorem pnsunionstorePrepare_spec {srv : Server} {dst : Sds} {srcs : List Sds}
    {p : Prepared PnDb PnMsg} (hok : PnOk L db)
    (hp : pnsunionstorePrepare srv dst srcs db = some p) : PnPrepared db p := by
  rw [pnsunionstorePrepare] at hp
  dsimp only at hp
  split at hp
  · split at hp
    · cases hp
      exact ⟨rfl, rfl, by simp [PnMsg.items]⟩
    · cases hp
  · cases hp
    refine (raises_collect sdsnew hok rfl fun x hx => sdsnew_of_nulFree ?_).prepared _ (.inr rfl)
    -- elements of the union are visible somewhere
    rw [Iteration.mem_order, SetObj.mem_elems, Db.view_eq, hok.onlySets.mem_sunionResult] at hx
    obtain ⟨k, -, hk⟩ := hx.resolve_left (SetObj.notMem_empty x)
    exact hok.nulFree k x hk

/-- **What a prepare phase sends.** -/
theorem pnsPrepare_spec {srv : Server} {c : PnCmd} {p : Prepared PnDb PnMsg} (hok : PnOk L db)
    (hp : pnsPrepare srv c db = some p) : PnPrepared db p := by
  cases c with
  | add key members => exact pnsaddPrepare_spec hok hp
  | rem key members =>
    cases hp
    rw [pnsremPrepare]
    split
    · exact .refused ..
    · exact .refused ..
    · dsimp only
      split
      · exact .refused ..
      · exact .rem ..
  | unionstore dst src srcs =>
    exact pnsunionstorePrepare_spec hok
      (show pnsunionstorePrepare srv dst (src :: srcs) db = _ from hp)
  | diffstore dst src srcs =>
    simp only [pnsPrepare, pnsdiffstorePrepare] at hp
    split at hp
    · cases hp
      exact .rem ..
    · cases hp
  | interstore dst src srcs =>
    simp only [pnsPrepare, pnsinterstorePrepare] at hp
    split at hp
    · cases hp
      exact .rem ..
    · cases hp

/-! ### Runs -/

section

variable {N : ℕ} {iter : Fin N → Iteration} {C : Cond (Fin N) PnDb PnCmd PnMsg}
  {g g' : Net (Fin N) PnDb PnMsg}

/-- The items of a list of events. -/
def pnItems (A : List (Event (Fin N) PnMsg)) : List PnItem := A.flatMap fun e => e.msg.items

theorem total_pnItems (A : List (Event (Fin N) PnMsg)) (s x : Sds) :
    total (pnItems A) s x = (A.map fun e => e.msg.delta s x).sum := by
  induction A with
  | nil => simp [pnItems, total]
  | cons e A ih =>
    rw [pnItems, List.flatMap_cons, total_append, List.map_cons, List.sum_cons, ← ih]
    rfl

theorem pnSet_prepare {r : Fin N} {c : PnCmd} {o : Option PnMsg} (hok : PnOk L db)
    (hp : (pnSet iter).prepare r c db = some (db', o)) :
    ∃ replies, PnPrepared db ⟨db', replies, o⟩ := by
  obtain ⟨⟨db', replies, o⟩, hspec, heq⟩ := Option.map_eq_some_iff.mp hp
  obtain ⟨rfl, rfl⟩ := Prod.mk.inj heq
  exact ⟨replies, pnsPrepare_spec hok hspec⟩

/-- **The invariant of every run**: what is sent is well formed because visibility follows the
counters at its origin, and visibility follows the counters because what is applied is well
formed. -/
theorem pnOk_of_reachable (hg : Reachable (pnSet iter) C g) :
    (∀ e ∈ g.log, ∀ it ∈ e.msg.items, it.Sent) ∧
      ∀ r, PnOk (pnItems (g.applied r)) (g.state r) := by
  refine hg.joint_invariant (I := fun _ A db => PnOk (pnItems A) db)
    (J := fun e => ∀ it ∈ e.msg.items, it.Sent) ?_ ?_ ?_ ?_ ?_
  · exact fun _ => pnOk_empty
  · simp [OpBased.start]
  · intro g g' r c db' o _ _ hp ih
    obtain ⟨_, hspec⟩ := pnSet_prepare ih hp
    exact ih.congr hspec.keys hspec.pne
  · intro g g' r c db' m _ _ hok _ _ hp
    obtain ⟨_, hspec⟩ := pnSet_prepare hok hp
    exact hspec.sent m rfl
  · intro g' r e A db _ hJ he _ ih
    rw [show pnItems (A ++ [e]) = pnItems A ++ e.msg.items by simp [pnItems]]
    exact ih.effect (hJ e he)

/-- **The PN-Set converges in any delivery order.** Every increment an add message carries is at
least one, the counter of a member is the sum of what the applied messages did to it, and a
member is visible exactly when its counter is positive. So replicas that have applied the same
messages show the same sets. -/
theorem pnSet_convergence (hg : Reachable (pnSet iter) anyOrder g)
    (hg' : Reachable (pnSet iter) anyOrder g') :
    (∀ e ∈ g.log, ∀ s es, e.msg = .add s es → ∀ en ∈ es, 1 ≤ en.cnt) ∧
    (∀ r s x, ((g.state r).pne s x).current = ((g.applied r).map fun e => e.msg.delta s x).sum ∧
      (x ∈ (g.state r).keys.visible s ↔ 0 < ((g.state r).pne s x).current)) ∧
    ∀ r r', (∀ e, e ∈ g.applied r ↔ e ∈ g'.applied r') → ∀ s x,
      (x ∈ (g.state r).keys.visible s ↔ x ∈ (g'.state r').keys.visible s) := by
  obtain ⟨hsent, hok⟩ := pnOk_of_reachable hg
  obtain ⟨-, hok'⟩ := pnOk_of_reachable hg'
  refine ⟨?_, ?_, ?_⟩
  · intro e he s es hmsg en hen
    have hit : (⟨s, en.member, some en.cnt⟩ : PnItem) ∈ e.msg.items := by
      rw [hmsg]
      exact List.mem_map.mpr ⟨en, List.mem_reverse.mpr hen, rfl⟩
    exact (hsent e he _ hit).pos en.cnt rfl
  · intro r s x
    exact ⟨by rw [(hok r).counter, total_pnItems], (hok r).visible s x⟩
  · intro r r' happ s x
    have hperm : (g.applied r).Perm (g'.applied r') :=
      (List.perm_ext_iff_of_nodup ((Reachable.wellFormed hg).applied_nodup r).of_map
        ((Reachable.wellFormed hg').applied_nodup r').of_map).mpr happ
    rw [(hok r).visible, (hok' r').visible, (hok r).counter, (hok' r').counter, total_pnItems,
      total_pnItems, (hperm.map _).sum_eq]

end

end RemoveWin
