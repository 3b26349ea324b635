import RemoveWin.Lib.Counters
import RemoveWin.OrSet.Model

/-!
# Tags of the observed-remove set

What a prepare phase sends. An adding command draws its tags from the counters of its origin and
moves each counter past the tags it drew (`Draws`); a removing command changes nothing and lists
tags that its origin has live (`ListsTags`). Since a counter never moves back and a tag names the
replica that drew it, no tag of a member is drawn twice in a run, by one command or by several.

Tags are stored under the copy `sdsnew` makes and looked up as they are. `OrShape` says that live
tags are free of NUL bytes, whatever messages carried, so that a listed copy of a live tag is
the tag.
-/

namespace RemoveWin

open Replicated

/-! ### What a message carries -/

/-- One entry of a message, with the set it came with. -/
inductive OrItem where
  | add (setName member tag : Sds)
  | rem (setName member : Sds) (tags : List Sds)

/-- The items of a message, in the order the effect takes them. -/
def OrMsg.items : OrMsg → List OrItem
  | .add setName es => es.reverse.map fun en => .add setName en.member en.tag
  | .rem setName es => es.reverse.map fun en => .rem setName en.member en.tags

/-- The tag an item adds to member `x` of set `s`. -/
def OrItem.added (s x : Sds) : OrItem → Option Sds
  | .add s' x' t => if s' = s ∧ x' = x then some t else none
  | .rem _ _ _ => none

/-- The tags an item removes from member `x` of set `s`. -/
def OrItem.removed (s x : Sds) : OrItem → List Sds
  | .add _ _ _ => []
  | .rem s' x' ts => if s' = s ∧ x' = x then ts else []

/-- The tags a message adds to member `x` of set `s`. -/
def OrMsg.adds (m : OrMsg) (s x : Sds) : List Sds := m.items.filterMap (·.added s x)

/-- The tags of member `x` of set `s` that a message lists for removal. -/
def OrMsg.removes (m : OrMsg) (s x : Sds) : List Sds := m.items.flatMap (·.removed s x)

theorem OrMsg.mem_adds_add {s s' x t : Sds} {es : List OrAdd} :
    t ∈ (OrMsg.add s' es).adds s x ↔ s' = s ∧ ∃ en ∈ es, en.member = x ∧ en.tag = t := by
  simp only [OrMsg.adds, OrMsg.items, List.mem_filterMap, List.mem_map, List.mem_reverse]
  constructor
  · rintro ⟨_, ⟨en, hen, rfl⟩, ht⟩
    simp only [OrItem.added, Option.ite_none_right_eq_some, Option.some.injEq] at ht
    exact ⟨ht.1.1, en, hen, ht.1.2, ht.2⟩
  · rintro ⟨rfl, en, hen, rfl, rfl⟩
    exact ⟨_, ⟨en, hen, rfl⟩, by simp [OrItem.added]⟩

@[simp] theorem OrMsg.adds_rem (s s' x : Sds) (es : List OrRem) :
    (OrMsg.rem s' es).adds s x = [] := by
  rw [OrMsg.adds, List.filterMap_eq_nil_iff]
  intro it hit
  obtain ⟨en, -, rfl⟩ := List.mem_map.mp hit
  rfl

theorem OrMsg.mem_removes_rem {s s' x t : Sds} {es : List OrRem} :
    t ∈ (OrMsg.rem s' es).removes s x ↔ s' = s ∧ ∃ en ∈ es, en.member = x ∧ t ∈ en.tags := by
  simp only [OrMsg.removes, OrMsg.items, List.mem_flatMap, List.mem_map, List.mem_reverse]
  constructor
  · rintro ⟨_, ⟨en, hen, rfl⟩, ht⟩
    simp only [OrItem.removed, List.mem_ite_nil_right] at ht
    exact ⟨ht.1.1, en, hen, ht.1.2, ht.2⟩
  · rintro ⟨rfl, en, hen, rfl, ht⟩
    exact ⟨_, ⟨en, hen, rfl⟩, by simpa [OrItem.removed] using ht⟩

@[simp] theorem OrMsg.removes_add (s s' x : Sds) (es : List OrAdd) :
    (OrMsg.add s' es).removes s x = [] := by
  rw [OrMsg.removes, List.flatMap_eq_nil_iff]
  intro it hit
  obtain ⟨en, -, rfl⟩ := List.mem_map.mp hit
  rfl

/-! ### The loops -/

/-- The entry of a member, as `oreHTGet` returns it. -/
abbrev Db.ore (db : OrDb) (s x : Sds) : Ore := db.elem oreNew s x

/-- What a loop that draws tags for members of `tname` does. -/
structure Draws (srv : Server) (tname : Sds) (db : OrDb) (r : OrDb × List OrAdd) : Prop where
  keys : r.1.keys = db.keys
  aset : ∀ s x, (r.1.ore s x).aset = (db.ore s x).aset
  rset : ∀ s x, (r.1.ore s x).rset = (db.ore s x).rset
  current_le : ∀ s x, (db.ore s x).current ≤ (r.1.ore s x).current
  drawn : ∀ en ∈ r.2, ∃ c, (db.ore tname en.member).current ≤ c ∧
    c < (r.1.ore tname en.member).current ∧ en.tag = lcToSds ⟨c, srv.p2pId⟩
  nodup : (r.2.map fun en => (en.member, en.tag)).Nodup

variable {srv : Server} {tname : Sds} {db db' : OrDb}

theorem Draws.nothing (srv : Server) (tname : Sds) (hk : db'.keys = db.keys)
    (he : db'.ore = db.ore) : Draws srv tname db (db', []) where
  keys := hk
  aset s x := by rw [he]
  rset s x := by rw [he]
  current_le s x := by rw [he]
  drawn := by simp
  nodup := by simp

theorem ore_drawTag (srv : Server) (s k x : Sds) (db : OrDb) (s' y : Sds) :
    (drawTag srv s k x db).1.ore s' y = if (s', y) = (s, k) then
      { db.ore s' y with current := (db.ore s' y).current + 1 } else db.ore s' y := by
  by_cases hne : (s', y) = (s, k)
  · obtain ⟨rfl, rfl⟩ := Prod.mk.inj hne
    rw [if_pos rfl]
    simp [drawTag, oreHTGet, Db.ore]
  · rw [if_neg hne]
    simp [drawTag, oreHTGet, Db.ore, Db.elem_setElem_of_ne _ _ _ hne]

theorem draws_drawTag (srv : Server) (tname x : Sds) (db : OrDb) :
    Draws srv tname db ((drawTag srv tname (sdsnew x) x db).1,
      (drawTag srv tname (sdsnew x) x db).2.toList) := by
  refine ⟨by simp [drawTag, oreHTGet], ?_, ?_, ?_, ?_, by simp [drawTag]⟩
  · intro s y
    rw [ore_drawTag]
    split <;> rfl
  · intro s y
    rw [ore_drawTag]
    split <;> rfl
  · intro s y
    rw [ore_drawTag]
    split
    · exact (lt_add_one (db.ore s y).current).le
    · exact le_rfl
  · intro en hen
    obtain rfl : en = ⟨sdsnew x, lcToSds ⟨(db.ore tname (sdsnew x)).current, srv.p2pId⟩⟩ := by
      simpa [drawTag, oreHTGet] using hen
    refine ⟨_, le_rfl, ?_, rfl⟩
    rw [ore_drawTag, if_pos rfl]
    exact lt_add_one _

/-- Loops one after the other: what the second draws lies past what the first drew. -/
theorem Draws.append {db₁ db₂ : OrDb} {es es' : List OrAdd} (h : Draws srv tname db (db₁, es))
    (h' : Draws srv tname db₁ (db₂, es')) : Draws srv tname db (db₂, es ++ es') where
  keys := h'.keys.trans h.keys
  aset s x := (h'.aset s x).trans (h.aset s x)
  rset s x := (h'.rset s x).trans (h.rset s x)
  current_le s x := (h.current_le s x).trans (h'.current_le s x)
  drawn en hen := by
    rcases List.mem_append.mp hen with hen | hen
    · obtain ⟨c, hle, hlt, ht⟩ := h.drawn en hen
      exact ⟨c, hle, hlt.trans_le (h'.current_le _ _), ht⟩
    · obtain ⟨c, hle, hlt, ht⟩ := h'.drawn en hen
      exact ⟨c, (h.current_le _ _).trans hle, hlt, ht⟩
  nodup := by
    rw [List.map_append]
    refine h.nodup.append h'.nodup ?_
    intro p hp hp'
    obtain ⟨en, hen, rfl⟩ := List.mem_map.mp hp
    obtain ⟨en', hen', heq⟩ := List.mem_map.mp hp'
    obtain ⟨hm, ht⟩ := Prod.mk.inj heq
    obtain ⟨c, -, hlt, hc⟩ := h.drawn en hen
    obtain ⟨c', hle, -, hc'⟩ := h'.drawn en' hen'
    rw [hc, hc'] at ht
    obtain rfl : c' = c := congrArg Lc.x (lcToSds_injective ht)
    rw [hm] at hle
    exact absurd hlt (not_lt.mpr hle)

theorem Draws.collect {round : Sds → OrDb → OrDb × Option OrAdd} :
    ∀ {xs : List Sds} {db : OrDb},
      (∀ x ∈ xs, ∀ db, Draws srv tname db ((round x db).1, (round x db).2.toList)) →
      Draws srv tname db (collect round xs db) := by
  intro xs
  induction xs with
  | nil => intro db _; exact .nothing srv tname rfl rfl
  | cons x xs ih =>
    intro db hround
    exact (hround x (by simp) db).append (ih fun y hy => hround y (List.mem_cons_of_mem x hy))

/-- What a loop that lists the tags of members of `tname` does. -/
structure ListsTags (tname : Sds) (db : OrDb) (r : OrDb × List OrRem) : Prop where
  keys : r.1.keys = db.keys
  ore : r.1.ore = db.ore
  listed : ∀ en ∈ r.2, ∀ t ∈ en.tags, ∃ t' ∈ (db.ore tname en.member).aset, t = sdsnew t'

theorem ListsTags.nothing (tname : Sds) (db : OrDb) : ListsTags tname db (db, []) :=
  ⟨rfl, rfl, by simp⟩

theorem listsTags_listTags (srv : Server) (tname x : Sds) (db : OrDb) :
    ListsTags tname db ((listTags srv tname (sdsnew x) x db).1,
      (listTags srv tname (sdsnew x) x db).2.toList) := by
  refine ⟨by simp [listTags, oreHTGet], Db.elem_htGet .., ?_⟩
  intro en hen t ht
  obtain rfl : en =
      ⟨sdsnew x, (srv.iter.order (db.ore tname (sdsnew x)).aset.elems).map sdsnew⟩ := by
    simpa [listTags, oreHTGet] using hen
  obtain ⟨t', ht', rfl⟩ := List.mem_map.mp ht
  exact ⟨t', by simpa using ht', rfl⟩

theorem ListsTags.append {db₁ db₂ : OrDb} {es es' : List OrRem} (h : ListsTags tname db (db₁, es))
    (h' : ListsTags tname db₁ (db₂, es')) : ListsTags tname db (db₂, es ++ es') where
  keys := h'.keys.trans h.keys
  ore := h'.ore.trans h.ore
  listed en hen := by
    rcases List.mem_append.mp hen with hen | hen
    · exact h.listed en hen
    · rw [← show _ = db.ore from h.ore]
      exact h'.listed en hen

theorem ListsTags.collect {round : Sds → OrDb → OrDb × Option OrRem} :
    ∀ {xs : List Sds} {db : OrDb},
      (∀ x ∈ xs, ∀ db, ListsTags tname db ((round x db).1, (round x db).2.toList)) →
      ListsTags tname db (collect round xs db) := by
  intro xs
  induction xs with
  | nil => intro db _; exact .nothing tname db
  | cons x xs ih =>
    intro db hround
    exact (hround x (by simp) db).append (ih fun y hy => hround y (List.mem_cons_of_mem x hy))

/-! ### What a prepare phase sends -/

/-- The members given with a command. -/
def OrCmd.members : OrCmd → List Sds
  | .add _ members => members
  | .rem _ members => members
  | _ => []

/-- What every prepare phase guarantees. -/
structure OrPrepared (srv : Server) (db : OrDb) (p : Prepared OrDb OrMsg) : Prop where
  keys : p.state.keys = db.keys
  aset : ∀ s x, (p.state.ore s x).aset = (db.ore s x).aset
  rset : ∀ s x, (p.state.ore s x).rset = (db.ore s x).rset
  current_le : ∀ s x, (db.ore s x).current ≤ (p.state.ore s x).current
  /-- Tags that are added come from what the counters moved over. -/
  adds : ∀ m ∈ p.msg, ∀ s x, ∀ t ∈ m.adds s x, ∃ c, (db.ore s x).current ≤ c ∧
    c < (p.state.ore s x).current ∧ t = lcToSds ⟨c, srv.p2pId⟩
  nodup : ∀ m ∈ p.msg, ∀ s x, (m.adds s x).Nodup
  removes : ∀ m ∈ p.msg, ∀ s x, ∀ t ∈ m.removes s x, ∃ t' ∈ (db.ore s x).aset, t = sdsnew t'

theorem OrMsg.nodup_adds_add {es : List OrAdd}
    (h : (es.map fun en => (en.member, en.tag)).Nodup) (s s' x : Sds) :
    ((OrMsg.add s' es).adds s x).Nodup := by
  have hitems : (OrMsg.add s' es).items =
      (es.map fun en => (en.member, en.tag)).reverse.map fun p => .add s' p.1 p.2 := by
    simp [OrMsg.items]
  rw [OrMsg.adds, hitems]
  refine ((List.nodup_reverse.mpr h).map ?_).filterMap ?_
  · rintro ⟨a, b⟩ ⟨a', b'⟩ heq
    obtain ⟨-, rfl, rfl⟩ := OrItem.add.inj heq
    rfl
  · intro a a' t ht ht'
    cases a with
    | rem s₁ x₁ ts => cases ht
    | add s₁ x₁ t₁ =>
      cases a' with
      | rem s₂ x₂ ts => cases ht'
      | add s₂ x₂ t₂ =>
        simp only [OrItem.added, Option.mem_def, Option.ite_none_right_eq_some,
          Option.some.injEq] at ht ht'
        obtain ⟨⟨rfl, rfl⟩, rfl⟩ := ht
        obtain ⟨⟨rfl, rfl⟩, rfl⟩ := ht'
        rfl

theorem OrPrepared.refused (srv : Server) (db : OrDb) (replies : List Reply) :
    OrPrepared srv db ⟨db, replies, none⟩ :=
  ⟨rfl, fun _ _ => rfl, fun _ _ => rfl, fun _ _ => le_rfl, by simp, by simp, by simp⟩

theorem Draws.prepared {r : OrDb × List OrAdd} (h : Draws srv tname db r) (replies : List Reply)
    {o : Option OrMsg} (ho : o = none ∨ o = some (.add tname r.2)) :
    OrPrepared srv db ⟨r.1, replies, o⟩ := by
  refine ⟨h.keys, h.aset, h.rset, h.current_le, ?_, ?_, ?_⟩
  · rcases ho with rfl | rfl
    · simp
    · rintro _ ⟨⟩ s x t ht
      obtain ⟨rfl, en, hen, rfl, rfl⟩ := OrMsg.mem_adds_add.mp ht
      exact h.drawn en hen
  · rcases ho with rfl | rfl
    · simp
    · rintro _ ⟨⟩ s x
      exact OrMsg.nodup_adds_add h.nodup s tname x
  · rcases ho with rfl | rfl <;> simp

theorem ListsTags.prepared {r : OrDb × List OrRem} (h : ListsTags tname db r) (replies : List Reply)
    {o : Option OrMsg} (ho : o = none ∨ o = some (.rem tname r.2)) :
    OrPrepared srv db ⟨r.1, replies, o⟩ := by
  refine ⟨h.keys, fun s x => by rw [h.ore], fun s x => by rw [h.ore], fun s x => by rw [h.ore],
    ?_, ?_, ?_⟩
  · rcases ho with rfl | rfl <;> simp
  · rcases ho with rfl | rfl <;> simp
  · rcases ho with rfl | rfl
    · simp
    · rintro _ ⟨⟩ s x t ht
      obtain ⟨rfl, en, hen, rfl, hten⟩ := OrMsg.mem_removes_rem.mp ht
      exact h.listed en hen t hten

theorem orPrepared_orsstoreRemoves (srv : Server) (dst : Sds) (set dstset : SetObj)
    (replies : List Reply) (db : OrDb) :
    OrPrepared srv db (orsstoreRemoves srv dst set dstset replies db) := by
  refine (ListsTags.collect fun x _ db' => ?_).prepared _ (.inr rfl)
  split
  · exact .nothing dst db'
  · exact listsTags_listTags srv dst x db'

theorem orsaddPrepare_spec {key : Sds} {members : List Sds} {p : Prepared OrDb OrMsg}
    (hn : ∀ x ∈ members, NulFree x) (hp : orsaddPrepare srv key members db = some p) :
    OrPrepared srv db p := by
  have hloop : Draws srv key db (collect (fun x db' =>
      if db.keys.lacks key x then drawTag srv key x x db' else (db', none)) members db) := by
    refine .collect fun x hx db' => ?_
    split
    · have hdraw := draws_drawTag srv key x db'
      rwa [sdsnew_of_nulFree (hn x hx)] at hdraw
    · exact .nothing srv key rfl rfl
  rw [orsaddPrepare] at hp
  split at hp
  · split at hp
    · cases hp
      exact .refused ..
    · cases hp
  · dsimp only at hp
    split at hp
    · cases hp
      exact hloop.prepared _ (.inl rfl)
    · cases hp
      exact hloop.prepared _ (.inr rfl)

theorem orsremPrepare_spec {key : Sds} {members : List Sds} (hn : ∀ x ∈ members, NulFree x) :
    OrPrepared srv db (orsremPrepare srv key members db) := by
  rw [orsremPrepare]
  split
  · exact .refused ..
  · exact .refused ..
  · next set hset =>
    have hloop : ListsTags key db (collect (fun x db' =>
        if setTypeIsMember set x then listTags srv key x x db' else (db', none)) members db) := by
      refine .collect fun x hx db' => ?_
      split
      · have hlist := listsTags_listTags srv key x db'
        rwa [sdsnew_of_nulFree (hn x hx)] at hlist
      · exact .nothing key db'
    dsimp only
    split
    · exact hloop.prepared _ (.inl rfl)
    · exact hloop.prepared _ (.inr rfl)

theorem orsunionstorePrepare_spec {dst : Sds} {srcs : List Sds} {p : Prepared OrDb OrMsg}
    (hp : orsunionstorePrepare srv dst srcs db = some p) : OrPrepared srv db p := by
  rw [orsunionstorePrepare] at hp
  dsimp only at hp
  split at hp
  · split at hp
    · cases hp
      exact (Draws.nothing srv dst rfl rfl).prepared _ (.inr rfl)
    · cases hp
  · cases hp
    refine (Draws.collect fun x _ db' => ?_).prepared _ (.inr rfl)
    have hget : Draws srv dst db' ((oreHTGet db' dst (sdsnew x)).2, []) :=
      .nothing srv dst (Db.keys_htGet ..) (Db.elem_htGet ..)
    split
    · exact hget.append (draws_drawTag srv dst x _)
    · exact hget

/-- **What a prepare phase sends.** -/
theorem orsPrepare_spec {c : OrCmd} {p : Prepared OrDb OrMsg} (hn : ∀ x ∈ c.members, NulFree x)
    (hp : orsPrepare srv c db = some p) : OrPrepared srv db p := by
  cases c with
  | add key members => exact orsaddPrepare_spec hn hp
  | rem key members =>
    cases hp
    exact orsremPrepare_spec hn
  | unionstore dst src srcs =>
    exact orsunionstorePrepare_spec (show orsunionstorePrepare srv dst (src :: srcs) db = _ from hp)
  | diffstore dst src srcs =>
    simp only [orsPrepare, orsdiffstorePrepare] at hp
    split at hp
    · cases hp
      exact orPrepared_orsstoreRemoves ..
    · cases hp
  | interstore dst src srcs =>
    simp only [orsPrepare, orsinterstorePrepare] at hp
    split at hp
    · cases hp
      exact orPrepared_orsstoreRemoves ..
    · cases hp

/-! ### Counters under effects -/

theorem Ore.current_add (e : Ore) (t : Sds) : (e.add t).current = e.current := by
  rw [Ore.add]
  split <;> rfl

theorem Ore.current_remove (e : Ore) (t : Sds) : (e.remove t).current = e.current := by
  rw [Ore.remove]
  split <;> rfl

theorem Ore.current_foldl_remove (ts : List Sds) (e : Ore) :
    (ts.foldl Ore.remove e).current = e.current := by
  induction ts generalizing e with
  | nil => rfl
  | cons t ts ih => rw [List.foldl_cons, ih, Ore.current_remove]

/-- One round of either effect loop. -/
def orsItem (db : OrDb) : OrItem → OrDb
  | .add s x t => orsaddEntry s db ⟨x, t⟩
  | .rem s x ts => orsremEntry s db ⟨x, ts⟩

/-- The set an item came with. -/
def OrItem.setName : OrItem → Sds
  | .add s _ _ => s
  | .rem s _ _ => s

/-- The member an item is about. -/
def OrItem.member : OrItem → Sds
  | .add _ x _ => x
  | .rem _ x _ => x

/-- What an item does to the entry of its member. -/
def OrItem.onOre : OrItem → Ore → Ore
  | .add _ _ t, e => e.add t
  | .rem _ _ ts, e => ts.foldl Ore.remove e

theorem orsaddEntry_eq (s : Sds) (db : OrDb) (en : OrAdd) : orsaddEntry s db en =
    let e := (db.ore s en.member).add en.tag
    let db := (db.htGet oreNew s en.member).2.setElem s en.member e
    if 0 < e.lookup then db.modifySet s (setTypeAdd · en.member) else db := by
  simp only [orsaddEntry, oreHTGet, Db.get_eq, Db.put_eq, Db.update_add, Db.htGet_fst, Db.ore]

theorem orsremEntry_eq (s : Sds) (db : OrDb) (en : OrRem) : orsremEntry s db en =
    let e := en.tags.foldl Ore.remove (db.ore s en.member)
    let db := (db.htGet oreNew s en.member).2.setElem s en.member e
    if e.lookup = 0 then db.modifySet s (setTypeRemove · en.member) else db := by
  simp only [orsremEntry, oreHTGet, Db.get_eq, Db.put_eq, Db.update_remove, Db.htGet_fst, Db.ore]

theorem ore_orsItem_self (db : OrDb) (it : OrItem) :
    (orsItem db it).ore it.setName it.member = it.onOre (db.ore it.setName it.member) := by
  cases it with
  | add s x t =>
    simp only [orsItem, orsaddEntry_eq, OrItem.setName, OrItem.member]
    split <;> simp [Db.ore, OrItem.onOre]
  | rem s x ts =>
    simp only [orsItem, orsremEntry_eq, OrItem.setName, OrItem.member]
    split <;> simp [Db.ore, OrItem.onOre]

theorem ore_orsItem_of_ne (db : OrDb) {it : OrItem} {s x : Sds}
    (hne : (s, x) ≠ (it.setName, it.member)) : (orsItem db it).ore s x = db.ore s x := by
  cases it with
  | add s' x' t =>
    have hne' : (s, x) ≠ (s', x') := hne
    simp only [orsItem, orsaddEntry_eq]
    split <;> simp [Db.ore, Db.elem_setElem_of_ne _ _ _ hne']
  | rem s' x' ts =>
    have hne' : (s, x) ≠ (s', x') := hne
    simp only [orsItem, orsremEntry_eq]
    split <;> simp [Db.ore, Db.elem_setElem_of_ne _ _ _ hne']

theorem OrItem.current_onOre (it : OrItem) (e : Ore) : (it.onOre e).current = e.current := by
  cases it with
  | add s x t => exact e.current_add t
  | rem s x ts => exact Ore.current_foldl_remove ts e

theorem orsEffect_eq_foldl (m : OrMsg) (db : OrDb) :
    ∃ db₀ : OrDb, orsEffect m db = m.items.foldl orsItem db₀ ∧
      (db₀ = db ∨ ∃ s, db₀ = db.modifySet s id) := by
  cases m with
  | add s es =>
    rw [orsEffect]
    split
    · next he =>
      rw [List.isEmpty_iff] at he
      exact ⟨db, by simp [OrMsg.items, he], .inl rfl⟩
    · exact ⟨_, by rw [OrMsg.items, List.foldl_map]; rfl, .inr ⟨s, rfl⟩⟩
  | rem s es =>
    rw [orsEffect]
    split
    · next he =>
      rw [List.isEmpty_iff] at he
      exact ⟨db, by simp [OrMsg.items, he], .inl rfl⟩
    · exact ⟨_, by rw [OrMsg.items, List.foldl_map]; rfl, .inr ⟨s, rfl⟩⟩

theorem current_orsEffect (m : OrMsg) (db : OrDb) (s x : Sds) :
    ((orsEffect m db).ore s x).current = (db.ore s x).current := by
  obtain ⟨db₀, heq, hdb₀⟩ := orsEffect_eq_foldl m db
  rw [heq]
  refine foldl_received
    (P := fun (_ : List OrItem) (db' : OrDb) => (db'.ore s x).current = (db.ore s x).current)
    (L := []) ?_ fun _ db' it _ ih => ?_
  · rcases hdb₀ with rfl | ⟨_, rfl⟩ <;> rfl
  · by_cases hne : (s, x) = (it.setName, it.member)
    · obtain ⟨rfl, rfl⟩ := Prod.mk.inj hne
      rw [ore_orsItem_self, OrItem.current_onOre, ih]
    · rw [ore_orsItem_of_ne _ hne, ih]

/-! ### Tags over a run -/

section

variable {N : ℕ}

/-- Members given to `ORSADD` and `ORSREM` have no NUL bytes. -/
def orNulFree : Cond (Fin N) OrDb OrCmd OrMsg
  | _, .client _ c, _ => ∀ x ∈ c.members, NulFree x
  | _, .deliver _ _, _ => True

/-- The tags drawn for member `x` of set `s` by the messages of a list, in order. -/
def tagsOf (A : List (Event (Fin N) OrMsg)) (s x : Sds) : List Sds :=
  A.flatMap fun e => e.msg.adds s x

variable {iter : Fin N → Iteration} {g : Net (Fin N) OrDb OrMsg}

theorem orSet_prepare {r : Fin N} {c : OrCmd} {db db' : OrDb} {o : Option OrMsg}
    (hn : ∀ x ∈ c.members, NulFree x) (hp : (orSet iter).prepare r c db = some (db', o)) :
    ∃ replies, OrPrepared (.of iter r) db ⟨db', replies, o⟩ := by
  obtain ⟨⟨db', replies, o⟩, hspec, heq⟩ := Option.map_eq_some_iff.mp hp
  obtain ⟨rfl, rfl⟩ := Prod.mk.inj heq
  exact ⟨replies, orsPrepare_spec hn hspec⟩

/-- The tags drawn so far: they name their origin, its counters are past them, and none was
drawn twice. -/
structure Drawn (g : Net (Fin N) OrDb OrMsg) : Prop where
  origin : ∀ e ∈ g.log, ∀ s x, ∀ t ∈ e.msg.adds s x,
    ∃ c, c < ((g.state e.origin).ore s x).current ∧ t = lcToSds ⟨c, e.origin.val⟩
  nodup : ∀ s x, (tagsOf g.log s x).Nodup

/-- The counters of the members, and the tags that messages draw from them. -/
def oreCounters (N : ℕ) : Counters (Fin N) OrDb OrMsg (Sds × Sds) Sds where
  cur db k := (db.ore k.1 k.2).current
  names m k := m.adds k.1 k.2
  name r c := lcToSds ⟨c, r.val⟩
  name_injective := eq_of_lcToSds_eq

theorem drawn_of_reachable (hg : Reachable (orSet iter) orNulFree g) : Drawn g := by
  have hdrawn : (oreCounters N).Drawn g := by
    refine Counters.drawn_of_reachable (fun hc hp => ?_) (fun r m db k => ?_) hg
    · obtain ⟨_, hspec⟩ := orSet_prepare hc hp
      exact ⟨fun k => hspec.current_le k.1 k.2, fun m hm k => hspec.adds m hm k.1 k.2,
        fun m hm k => hspec.nodup m hm k.1 k.2⟩
    · exact current_orsEffect m db k.1 k.2
  exact ⟨fun e he s x => hdrawn.origin e he (s, x), fun s x => hdrawn.nodup (s, x)⟩

end

end RemoveWin
