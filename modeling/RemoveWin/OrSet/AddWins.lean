import RemoveWin.Lib.Tombstones
import RemoveWin.OrSet.Tags

/-!
# The observed-remove set is an add-wins set

At every replica the live tags of a member are the tags that applied messages add and no applied
message removes, and the member is visible while it has a live tag (`OrOk`). The tombstones of
two replicas with the same messages may differ, but a tombstone only matters until the add it
waits for arrives, and no tag is added twice.

A remove lists tags that were live at its origin, so every tag it lists was added by a message
in its history (`exists_add_mem_deps`). An add the origin of a remove had not applied is
therefore untouched by it.

## Main results

* `RemoveWin.OrOk.item` — one entry keeps the invariant
* `RemoveWin.orOk_of_reachable` — the invariant of every replica of every run
* `RemoveWin.exists_add_mem_deps` — removes list what their origin had applied
* `RemoveWin.orSet_addWins` — tags are unique, visibility is a live tag, adds win
-/

namespace RemoveWin

open Replicated Tombstones

/-! ### One entry of the hidden table -/

/-- The dictionaries of a member that has received the adds `A` and the removes `R`. -/
def Ore.Tracks (e : Ore) (A R : Set Sds) : Prop :=
  Tombstones.Tracks A R {t | t ∈ e.aset} {t | t ∈ e.rset}

theorem Ore.lookup_pos_iff {e : Ore} : 0 < e.lookup ↔ ∃ t, t ∈ e.aset := by
  rw [Nat.pos_iff_ne_zero, Ne, Ore.lookup, setTypeSize_eq_zero_iff, not_forall_not]

section

variable {e : Ore} {A R : Set Sds} {t : Sds}

theorem Ore.Tracks.add (h : e.Tracks A R) (ht : NulFree t) (hfresh : t ∉ A) :
    (e.add t).Tracks (insert t A) R := by
  by_cases hmem : t ∈ e.rset
  · have hadd : e.add t = { e with rset := setTypeRemove e.rset t } := by
      simp [Ore.add, removeTag, hmem]
    rw [hadd, Ore.Tracks]
    convert Tombstones.Tracks.add_dead h hfresh hmem using 1
    ext u
    simp [and_comm]
  · have hadd : e.add t = { e with aset := setTypeAdd e.aset t } := by
      simp [Ore.add, removeTag, hmem, addTag, sdsnew_of_nulFree ht]
    rw [hadd, Ore.Tracks]
    convert Tombstones.Tracks.add_live h hfresh hmem using 1
    ext u
    simp

theorem Ore.Tracks.remove (h : e.Tracks A R) (ht : NulFree t) :
    (e.remove t).Tracks A (insert t R) := by
  by_cases hmem : t ∈ e.aset
  · have hrem : e.remove t = { e with aset := setTypeRemove e.aset t } := by
      simp [Ore.remove, removeTag, hmem]
    rw [hrem, Ore.Tracks]
    convert Tombstones.Tracks.remove_live h hmem using 1
    ext u
    simp [and_comm]
  · have hrem : e.remove t = { e with rset := setTypeAdd e.rset t } := by
      simp [Ore.remove, removeTag, hmem, addTag, sdsnew_of_nulFree ht]
    rw [hrem, Ore.Tracks]
    convert Tombstones.Tracks.remove_dead h hmem using 1
    ext u
    simp

theorem Ore.Tracks.foldl_remove {ts : List Sds} (hts : ∀ t ∈ ts, NulFree t) (h : e.Tracks A R) :
    (ts.foldl Ore.remove e).Tracks A (R ∪ {t | t ∈ ts}) := by
  induction ts generalizing e R with
  | nil => simpa using h
  | cons t ts ih =>
    have hcons : R ∪ {u | u ∈ t :: ts} = insert t R ∪ {u | u ∈ ts} := by
      ext u
      simp [or_left_comm, or_assoc]
    rw [hcons]
    exact ih (fun u hu => hts u (List.mem_cons_of_mem t hu)) (h.remove (hts t (by simp)))

theorem Ore.mem_aset_add {u : Sds} (h : u ∈ e.aset) : u ∈ (e.add t).aset := by
  rw [Ore.add]
  split
  · exact h
  · exact mem_setTypeAdd.mpr (.inr h)

theorem Ore.mem_aset_foldl_remove {ts : List Sds} {u : Sds} :
    u ∈ (ts.foldl Ore.remove e).aset ↔ u ∈ e.aset ∧ u ∉ ts := by
  induction ts generalizing e with
  | nil => simp
  | cons t ts ih =>
    rw [List.foldl_cons, ih, List.mem_cons, not_or, ← and_assoc, and_congr_left_iff]
    intro _
    by_cases hmem : t ∈ e.aset
    · simp [Ore.remove, removeTag, hmem, and_comm]
    · have hne : u ∈ e.aset → u ≠ t := fun hu hut => hmem (hut ▸ hu)
      simp only [Ore.remove, removeTag, if_neg hmem]
      exact ⟨fun hu => ⟨hu, hne hu⟩, And.left⟩

end

/-! ### One entry of a message -/

/-- The tags that items add to a member. -/
def addsIn (L : List OrItem) (s x : Sds) : List Sds := L.filterMap (·.added s x)

/-- The tags that items remove from a member. -/
def removesIn (L : List OrItem) (s x : Sds) : List Sds := L.flatMap (·.removed s x)

/-- The tags an item mentions. -/
def OrItem.tags : OrItem → List Sds
  | .add _ _ t => [t]
  | .rem _ _ ts => ts

/-- The database of a replica that has received the items `L`, in whatever order. -/
structure OrOk (L : List OrItem) (db : OrDb) : Prop where
  /-- The visible keys hold sets. -/
  onlySets : db.keys.OnlySets
  /-- The dictionaries of each member reflect what was received for it. -/
  tracks : ∀ s x, (db.ore s x).Tracks {t | t ∈ addsIn L s x} {t | t ∈ removesIn L s x}
  visible : ∀ s x, x ∈ db.keys.visible s ↔ ∃ t, t ∈ (db.ore s x).aset

theorem orOk_empty : OrOk [] .empty where
  onlySets _ := by simp [SetDb.empty]
  tracks s x := by
    show Tombstones.Tracks _ _ _ _
    convert tracks_empty using 1 <;> ext t <;> simp [addsIn, removesIn, oreNew]
  visible s x := by simp [SetDb.empty, Keys.visible, oreNew, Db.ore, Db.elem]

variable {L : List OrItem} {db db' : OrDb}

theorem OrOk.congr (h : OrOk L db) (hk : db'.keys = db.keys)
    (ha : ∀ s x, (db'.ore s x).aset = (db.ore s x).aset)
    (hr : ∀ s x, (db'.ore s x).rset = (db.ore s x).rset) : OrOk L db' where
  onlySets := hk ▸ h.onlySets
  tracks s x := by
    rw [Ore.Tracks, ha, hr]
    exact h.tracks s x
  visible s x := by
    rw [hk, ha]
    exact h.visible s x

theorem OrOk.createSet (h : OrOk L db) (s : Sds) : OrOk L (db.modifySet s id) where
  onlySets := h.onlySets.modifySet _ _
  tracks := h.tracks
  visible s' x := by
    rw [Db.mem_visible_modifySet_id h.onlySets]
    exact h.visible s' x

theorem onlySets_orsItem (ho : db.keys.OnlySets) (it : OrItem) : (orsItem db it).keys.OnlySets := by
  cases it with
  | add s x t =>
    simp only [orsItem, orsaddEntry_eq]
    split
    · simpa using ho.modifySet s _
    · simpa using ho
  | rem s x ts =>
    simp only [orsItem, orsremEntry_eq]
    split
    · simpa using ho.modifySet s _
    · simpa using ho

theorem mem_visible_orsItem_of_ne (ho : db.keys.OnlySets) {it : OrItem} {s y : Sds}
    (hne : (s, y) ≠ (it.setName, it.member)) :
    y ∈ (orsItem db it).keys.visible s ↔ y ∈ db.keys.visible s := by
  cases it with
  | add s' x t =>
    have hne' : (s, y) ≠ (s', x) := hne
    simp only [orsItem, orsaddEntry_eq]
    split
    · rw [Db.mem_visible_modifySet_of_ne (by simpa using ho) hne' fun o hy => by simp [hy]]
      simp
    · simp
  | rem s' x ts =>
    have hne' : (s, y) ≠ (s', x) := hne
    simp only [orsItem, orsremEntry_eq]
    split
    · rw [Db.mem_visible_modifySet_of_ne (by simpa using ho) hne' fun o hy => by simp [hy]]
      simp
    · simp

theorem mem_visible_orsItem_self (ho : db.keys.OnlySets) (it : OrItem)
    (hv : it.member ∈ db.keys.visible it.setName ↔
      ∃ t, t ∈ (db.ore it.setName it.member).aset) :
    it.member ∈ (orsItem db it).keys.visible it.setName ↔
      ∃ t, t ∈ ((orsItem db it).ore it.setName it.member).aset := by
  rw [ore_orsItem_self]
  cases it with
  | add s x t =>
    have hlive : ∀ {u : Sds}, u ∈ (db.ore s x).aset → u ∈ ((db.ore s x).add t).aset :=
      fun hu => Ore.mem_aset_add hu
    simp only [orsItem, orsaddEntry_eq, OrItem.setName, OrItem.member,
      OrItem.onOre] at hv ⊢
    split
    · next hpos =>
      rw [Db.mem_visible_modifySet_self (p := fun _ => True) (by simpa using ho)
        fun o => by simp]
      exact ⟨fun _ => Ore.lookup_pos_iff.mp hpos, fun _ => trivial⟩
    · next hpos =>
      rw [Ore.lookup_pos_iff] at hpos
      simp only [Db.keys_setElem, Db.keys_htGet]
      exact ⟨fun hx => (hv.mp hx).imp fun u hu => hlive hu, fun hx => absurd hx hpos⟩
  | rem s x ts =>
    have hlive : ∀ {u : Sds}, u ∈ (ts.foldl Ore.remove (db.ore s x)).aset → u ∈ (db.ore s x).aset :=
      fun hu => (Ore.mem_aset_foldl_remove.mp hu).1
    simp only [orsItem, orsremEntry_eq, OrItem.setName, OrItem.member,
      OrItem.onOre] at hv ⊢
    split
    · next hzero =>
      rw [Db.mem_visible_modifySet_self (p := fun _ => False) (by simpa using ho)
        fun o => by simp]
      rw [Ore.lookup, setTypeSize_eq_zero_iff] at hzero
      exact ⟨False.elim, fun ht => ht.elim hzero⟩
    · next hzero =>
      have hpos := Ore.lookup_pos_iff.mp (Nat.pos_of_ne_zero hzero)
      simp only [Db.keys_setElem, Db.keys_htGet]
      exact ⟨fun _ => hpos, fun hx => hv.mpr (hx.imp fun u hu => hlive hu)⟩

theorem mem_addsIn_concat {it : OrItem} {s x t : Sds} :
    t ∈ addsIn (L ++ [it]) s x ↔ t ∈ addsIn L s x ∨ it.added s x = some t := by
  simp [addsIn, eq_comm]

theorem mem_removesIn_concat {it : OrItem} {s x t : Sds} :
    t ∈ removesIn (L ++ [it]) s x ↔ t ∈ removesIn L s x ∨ t ∈ it.removed s x := by
  simp [removesIn]

theorem OrItem.added_of_ne {it : OrItem} {s x : Sds} (hne : (s, x) ≠ (it.setName, it.member)) :
    it.added s x = none := by
  cases it with
  | add s' x' t => exact if_neg fun h => hne (by rw [← h.1, ← h.2]; rfl)
  | rem s' x' ts => rfl

theorem OrItem.removed_of_ne {it : OrItem} {s x : Sds} (hne : (s, x) ≠ (it.setName, it.member)) :
    it.removed s x = [] := by
  cases it with
  | add s' x' t => rfl
  | rem s' x' ts => exact if_neg fun h => hne (by rw [← h.1, ← h.2]; rfl)

theorem Ore.Tracks.item {e : Ore} {A R : Set Sds} (h : e.Tracks A R) {it : OrItem}
    (hnul : ∀ t ∈ it.tags, NulFree t)
    (hfresh : ∀ t, it.added it.setName it.member = some t → t ∉ A) :
    (it.onOre e).Tracks (A ∪ {t | it.added it.setName it.member = some t})
      (R ∪ {t | t ∈ it.removed it.setName it.member}) := by
  cases it with
  | add s x t =>
    have hself : (OrItem.add s x t).added s x = some t := if_pos ⟨rfl, rfl⟩
    have hA : A ∪ {u | (OrItem.add s x t).added s x = some u} = insert t A := by
      ext u
      simp [hself, eq_comm]
    have hR : R ∪ {u | u ∈ (OrItem.add s x t).removed s x} = R := by
      ext u
      simp [OrItem.removed]
    show (e.add t).Tracks (A ∪ {u | (OrItem.add s x t).added s x = some u})
      (R ∪ {u | u ∈ (OrItem.add s x t).removed s x})
    rw [hA, hR]
    exact h.add (hnul t (by simp [OrItem.tags])) (hfresh t hself)
  | rem s x ts =>
    have hA : A ∪ {u | (OrItem.rem s x ts).added s x = some u} = A := by
      ext u
      simp [OrItem.added]
    have hself : (OrItem.rem s x ts).removed s x = ts := if_pos ⟨rfl, rfl⟩
    show (ts.foldl Ore.remove e).Tracks (A ∪ {u | (OrItem.rem s x ts).added s x = some u})
      (R ∪ {u | u ∈ (OrItem.rem s x ts).removed s x})
    rw [hA, hself]
    exact h.foldl_remove hnul

/-- **One entry keeps the invariant**, whatever came before it, if the tag it adds is new. -/
theorem OrOk.item (h : OrOk L db) {it : OrItem} (hnul : ∀ t ∈ it.tags, NulFree t)
    (hfresh : ∀ s x, (addsIn (L ++ [it]) s x).Nodup) : OrOk (L ++ [it]) (orsItem db it) where
  onlySets := onlySets_orsItem h.onlySets it
  tracks s x := by
    have hA : {t | t ∈ addsIn (L ++ [it]) s x} =
        {t | t ∈ addsIn L s x} ∪ {t | it.added s x = some t} := by
      ext t
      exact mem_addsIn_concat
    have hR : {t | t ∈ removesIn (L ++ [it]) s x} =
        {t | t ∈ removesIn L s x} ∪ {t | t ∈ it.removed s x} := by
      ext t
      exact mem_removesIn_concat
    rw [hA, hR]
    by_cases hne : (s, x) = (it.setName, it.member)
    · obtain ⟨rfl, rfl⟩ := Prod.mk.inj hne
      rw [ore_orsItem_self]
      refine (h.tracks _ _).item hnul fun t ht hmem => ?_
      have hnd := hfresh it.setName it.member
      rw [addsIn, List.filterMap_append] at hnd
      exact List.disjoint_of_nodup_append hnd hmem (by simp [ht])
    · rw [ore_orsItem_of_ne _ hne, OrItem.added_of_ne hne, OrItem.removed_of_ne hne]
      simpa using h.tracks s x
  visible s x := by
    by_cases hne : (s, x) = (it.setName, it.member)
    · obtain ⟨rfl, rfl⟩ := Prod.mk.inj hne
      exact mem_visible_orsItem_self h.onlySets it (h.visible _ _)
    · rw [mem_visible_orsItem_of_ne h.onlySets hne, ore_orsItem_of_ne _ hne]
      exact h.visible s x

theorem OrOk.effect (h : OrOk L db) {m : OrMsg} (hnul : ∀ it ∈ m.items, ∀ t ∈ it.tags, NulFree t)
    (hfresh : ∀ s x, (addsIn (L ++ m.items) s x).Nodup) :
    OrOk (L ++ m.items) (orsEffect m db) := by
  obtain ⟨db₀, heq, hdb₀⟩ := orsEffect_eq_foldl m db
  have hok₀ : OrOk L db₀ := by
    rcases hdb₀ with rfl | ⟨s, rfl⟩
    · exact h
    · exact h.createSet s
  rw [heq]
  -- the tags of a prefix of the items are new if those of all items are
  refine foldl_received (P := fun L' db' => (∀ s x, (addsIn L' s x).Nodup) → OrOk L' db')
    (fun _ => hok₀) (fun L' db' it hit ih hnd => ?_) hfresh
  refine (ih fun s x => ?_).item (hnul it hit) hnd
  have hnd' := hnd s x
  rw [addsIn, List.filterMap_append] at hnd'
  exact hnd'.of_append_left

/-! ### Runs -/

section

variable {N : ℕ} {iter : Fin N → Iteration} {g g' : Net (Fin N) OrDb OrMsg}

/-- The items of a list of events. -/
def orItems (A : List (Event (Fin N) OrMsg)) : List OrItem := A.flatMap fun e => e.msg.items

/-- The tags of member `x` of set `s` that the messages of a list remove. -/
def removedTagsOf (A : List (Event (Fin N) OrMsg)) (s x : Sds) : List Sds :=
  A.flatMap fun e => e.msg.removes s x

theorem addsIn_orItems (A : List (Event (Fin N) OrMsg)) (s x : Sds) :
    addsIn (orItems A) s x = tagsOf A s x := List.filterMap_flatMap

theorem removesIn_orItems (A : List (Event (Fin N) OrMsg)) (s x : Sds) :
    removesIn (orItems A) s x = removedTagsOf A s x := List.flatMap_assoc

theorem OrMsg.mem_adds_or_removes {m : OrMsg} {it : OrItem} (hit : it ∈ m.items) {t : Sds}
    (ht : t ∈ it.tags) :
    t ∈ m.adds it.setName it.member ∨ t ∈ m.removes it.setName it.member := by
  cases it with
  | add s x t' =>
    obtain rfl : t = t' := by simpa [OrItem.tags] using ht
    exact .inl (List.mem_filterMap.mpr ⟨_, hit, if_pos ⟨rfl, rfl⟩⟩)
  | rem s x ts =>
    have hself : (OrItem.rem s x ts).removed s x = ts := if_pos ⟨rfl, rfl⟩
    exact .inr (List.mem_flatMap.mpr ⟨_, hit, hself.symm ▸ ht⟩)

theorem nulFree_of_reachable (hg : Reachable (orSet iter) orNulFree g) :
    ∀ e ∈ g.log, ∀ it ∈ e.msg.items, ∀ t ∈ it.tags, NulFree t := by
  refine hg.log_invariant (by simp [OpBased.start]) ?_
  intro g g' r c db' m _ _ hc _ hp it hit t ht
  obtain ⟨_, hspec⟩ := orSet_prepare hc hp
  rcases OrMsg.mem_adds_or_removes hit ht with hmem | hmem
  · obtain ⟨c, -, -, rfl⟩ := hspec.adds m rfl _ _ t hmem
    exact nulFree_lcToSds _
  · obtain ⟨t', -, rfl⟩ := hspec.removes m rfl _ _ t hmem
    exact nulFree_sdsnew _

/-- **The invariant of every replica of every run.** -/
theorem orOk_of_reachable (hg : Reachable (orSet iter) orNulFree g) (r : Fin N) :
    OrOk (orItems (g.applied r)) (g.state r) := by
  revert r
  refine hg.local_invariant (I := fun _ A db => OrOk (orItems A) db) ?_ ?_ ?_
  · exact fun _ => orOk_empty
  · intro g g' r c db' o _ hc hp ih
    obtain ⟨_, hspec⟩ := orSet_prepare hc hp
    exact ih.congr hspec.keys hspec.aset hspec.rset
  · intro g' r e A db hg' he happ ih
    have hitems : orItems (A ++ [e]) = orItems A ++ e.msg.items := by simp [orItems]
    rw [hitems]
    refine ih.effect (nulFree_of_reachable hg' e he) fun s x => ?_
    rw [← hitems, addsIn_orItems, ← happ]
    exact (Reachable.wellFormed hg').nodup_items ((drawn_of_reachable hg').nodup s x) r

theorem mem_aset_iff (hg : Reachable (orSet iter) orNulFree g) (r : Fin N) (s x t : Sds) :
    t ∈ ((g.state r).ore s x).aset ↔
      t ∈ tagsOf (g.applied r) s x ∧ t ∉ removedTagsOf (g.applied r) s x := by
  have h := ((orOk_of_reachable hg r).tracks s x).live_iff (t := t)
  rwa [addsIn_orItems, removesIn_orItems] at h

/-- **Removes list what their origin had applied**: a tag that a remove lists was added by a
message in its history. -/
theorem exists_add_mem_deps (hg : Reachable (orSet iter) orNulFree g) :
    ∀ d ∈ g.log, ∀ s x, ∀ t ∈ d.msg.removes s x, ∃ e ∈ d.deps, t ∈ e.msg.adds s x := by
  refine hg.log_invariant (by simp [OpBased.start]) ?_
  intro g g' r c db' m hg _ hc _ hp s x t ht
  obtain ⟨_, hspec⟩ := orSet_prepare hc hp
  obtain ⟨t', ht', rfl⟩ := hspec.removes m rfl s x t ht
  obtain ⟨e, he, hadds⟩ := List.mem_flatMap.mp ((mem_aset_iff hg r s x t').mp ht').1
  obtain ⟨c, -, rfl⟩ :=
    (drawn_of_reachable hg).origin e ((Reachable.wellFormed hg).applied_mem he) s x t' hadds
  refine ⟨e, he, ?_⟩
  rwa [sdsnew_of_nulFree (nulFree_lcToSds _)]

theorem mem_visible_iff_exists_tag (hg : Reachable (orSet iter) orNulFree g) (r : Fin N)
    (s x : Sds) : x ∈ (g.state r).keys.visible s ↔
      ∃ t ∈ tagsOf (g.applied r) s x, t ∉ removedTagsOf (g.applied r) s x := by
  rw [(orOk_of_reachable hg r).visible]
  simp only [mem_aset_iff hg]

/-- **The OR-Set is an add-wins set in any delivery order.** No tag of a member is drawn twice in
a run. At every replica at every moment a member is visible exactly when an applied message adds
a tag of it that no applied message removes, and exactly when its live set is not empty. So
replicas that have applied the same messages show the same sets, and a member whose add has been
applied stays visible as long as no remove lists its tag that was issued after its origin had
applied the add. -/
theorem orSet_addWins (hg : Reachable (orSet iter) orNulFree g)
    (hg' : Reachable (orSet iter) orNulFree g') :
    (∀ s x, (tagsOf g.log s x).Nodup) ∧
    (∀ r s x,
      (x ∈ (g.state r).keys.visible s ↔
        ∃ t ∈ tagsOf (g.applied r) s x, t ∉ removedTagsOf (g.applied r) s x) ∧
      (x ∈ (g.state r).keys.visible s ↔ ((g.state r).ore s x).aset.elems ≠ [])) ∧
    (∀ r r', (∀ e, e ∈ g.applied r ↔ e ∈ g'.applied r') → ∀ s x,
      (x ∈ (g.state r).keys.visible s ↔ x ∈ (g'.state r').keys.visible s)) ∧
    ∀ r s x, ∀ e ∈ g.applied r, ∀ t ∈ e.msg.adds s x,
      (∀ d ∈ g.applied r, e ∈ d.deps → t ∉ d.msg.removes s x) →
        x ∈ (g.state r).keys.visible s := by
  refine ⟨(drawn_of_reachable hg).nodup, fun r s x => ⟨mem_visible_iff_exists_tag hg r s x, ?_⟩,
    ?_, ?_⟩
  · rw [(orOk_of_reachable hg r).visible, ne_eq, List.eq_nil_iff_forall_not_mem, not_forall_not]
    rfl
  · intro r r' happ s x
    rw [mem_visible_iff_exists_tag hg, mem_visible_iff_exists_tag hg']
    simp only [tagsOf, removedTagsOf, List.mem_flatMap, happ]
  · intro r s x e he t ht hsurvives
    have w := Reachable.wellFormed hg
    rw [mem_visible_iff_exists_tag hg]
    refine ⟨t, List.mem_flatMap.mpr ⟨e, he, ht⟩, fun hrem => ?_⟩
    obtain ⟨d, hd, htd⟩ := List.mem_flatMap.mp hrem
    obtain ⟨e', he', ht'⟩ := exists_add_mem_deps hg d (w.applied_mem hd) s x t htd
    -- tags are unique, so the add the remove had seen is this one
    obtain rfl : e' = e := eq_of_nodup_items ((drawn_of_reachable hg).nodup s x)
      (w.deps_mem (w.applied_mem hd) he').1 (w.applied_mem he) ht' ht
    exact hsurvives d hd he' htd

end

end RemoveWin
