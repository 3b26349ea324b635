import RemoveWin.OrSet.AddWins
import RemoveWin.PlainSet

/-!
# Own messages of the observed-remove set

What a replica of the OR-Set keeps whatever bytes its clients send. `ORSADD` draws from the counter
it finds under the whole argument and sends the truncated copy, so that two arguments with the same
copy draw the same tag. Then nothing is left of "no tag is drawn twice", but visibility still
follows the live tags, and what is visible or live has no NUL bytes.

That is enough to say what the store commands do at their own replica. A remove lists all live tags
of what it drops. A union draws one tag for everything it adds, and the tag is live afterwards
unless it is already a tombstone.
-/

namespace RemoveWin

open Replicated

/-- The command on plain sets. -/
def OrCmd.plain : OrCmd → SetCmd
  | .add key members => .add key members
  | .rem key members => .rem key members
  | .unionstore dst src srcs => .unionstore dst src srcs
  | .diffstore dst src srcs => .diffstore dst src srcs
  | .interstore dst src srcs => .interstore dst src srcs

theorem OrCmd.members_plain (c : OrCmd) : c.plain.members = c.members := by
  cases c <;> rfl

/-! ### Entries and live tags -/

section

variable {e : Ore} {t u : Sds}

theorem Ore.exists_mem_aset_add :
    (∃ u, u ∈ (e.add t).aset) ↔ (∃ u, u ∈ e.aset) ∨ t ∉ e.rset := by
  by_cases hmem : t ∈ e.rset
  · simp [Ore.add, removeTag, hmem]
  · simp only [Ore.add, removeTag, if_neg hmem, addTag, mem_setTypeAdd]
    exact iff_of_true ⟨_, .inl rfl⟩ (.inr hmem)

theorem Ore.nulFree_of_mem_aset_add (h : ∀ u ∈ e.aset, NulFree u) :
    ∀ u ∈ (e.add t).aset, NulFree u := by
  intro u hu
  rw [Ore.add] at hu
  split at hu
  · exact h u hu
  · rcases mem_setTypeAdd.mp hu with rfl | hu
    · exact nulFree_sdsnew t
    · exact h u hu

end

/-- **Items about different members of one set** reach their own entries only. -/
theorem ore_foldl_map_orsItem {s : Sds} {mk : Sds → OrItem} (hset : ∀ x, (mk x).setName = s)
    (hmem : ∀ x, (mk x).member = x) {xs : List Sds} (hnd : xs.Nodup) (db : OrDb) (k x : Sds) :
    ((xs.map mk).foldl orsItem db).ore k x =
      if k = s ∧ x ∈ xs then (mk x).onOre (db.ore k x) else db.ore k x := by
  induction xs generalizing db with
  | nil => simp
  | cons y xs ih =>
    obtain ⟨hy, hnd⟩ := List.nodup_cons.mp hnd
    rw [List.map_cons, List.foldl_cons, ih hnd]
    by_cases hne : (k, x) = ((mk y).setName, (mk y).member)
    · have hself := ore_orsItem_self db (mk y)
      rw [hset, hmem] at hne hself
      obtain ⟨rfl, rfl⟩ := Prod.mk.inj hne
      rw [if_neg fun h => hy h.2, if_pos ⟨rfl, List.mem_cons_self⟩, hself]
    · have hrest : k = s ∧ x ∈ y :: xs ↔ k = s ∧ x ∈ xs := by
        refine and_congr_right fun hk => List.mem_cons.trans (or_iff_right fun hx => hne ?_)
        rw [hset, hmem, hk, hx]
      simp only [ore_orsItem_of_ne db hne, hrest]

theorem ore_orsEffect_of_items {m : OrMsg} {s : Sds} (mk : Sds → OrItem) {xs : List Sds}
    (hitems : m.items = xs.reverse.map mk) (hset : ∀ x, (mk x).setName = s)
    (hmem : ∀ x, (mk x).member = x) (hnd : xs.Nodup) (db : OrDb) (k x : Sds) :
    (orsEffect m db).ore k x =
      if k = s ∧ x ∈ xs then (mk x).onOre (db.ore k x) else db.ore k x := by
  obtain ⟨db₀, heq, hdb₀⟩ := orsEffect_eq_foldl m db
  have hore : db₀.ore k x = db.ore k x := by rcases hdb₀ with rfl | ⟨_, rfl⟩ <;> rfl
  rw [heq, hitems, ore_foldl_map_orsItem hset hmem (List.nodup_reverse.mpr hnd), hore]
  simp only [List.mem_reverse]

/-! ### The invariant -/

/-- What a replica of the OR-Set keeps whatever its clients send. -/
structure OrSound (db : OrDb) : Prop where
  /-- The visible keys hold sets. -/
  onlySets : db.keys.OnlySets
  visible : ∀ s x, x ∈ db.keys.visible s ↔ ∃ t, t ∈ (db.ore s x).aset
  nulFree : ∀ s, ∀ x ∈ db.keys.visible s, NulFree x
  tags : ∀ s x, ∀ t ∈ (db.ore s x).aset, NulFree t

theorem orSound_empty : OrSound .empty where
  onlySets := orOk_empty.onlySets
  visible := orOk_empty.visible
  nulFree s x hx := by simp [SetDb.empty, Keys.visible] at hx
  tags s x t ht := by simp [oreNew, Db.ore] at ht

variable {db db' : OrDb}

theorem OrSound.congr (h : OrSound db) (hk : db'.keys = db.keys)
    (ha : ∀ s x, (db'.ore s x).aset = (db.ore s x).aset) : OrSound db' where
  onlySets := hk ▸ h.onlySets
  visible s x := by
    rw [hk, ha]
    exact h.visible s x
  nulFree := hk ▸ h.nulFree
  tags s x := by
    rw [ha]
    exact h.tags s x

theorem OrSound.item (h : OrSound db) {it : OrItem} (hx : NulFree it.member) :
    OrSound (orsItem db it) where
  onlySets := onlySets_orsItem h.onlySets it
  visible s x := by
    by_cases hne : (s, x) = (it.setName, it.member)
    · obtain ⟨rfl, rfl⟩ := Prod.mk.inj hne
      exact mem_visible_orsItem_self h.onlySets it (h.visible _ _)
    · rw [mem_visible_orsItem_of_ne h.onlySets hne, ore_orsItem_of_ne _ hne]
      exact h.visible s x
  nulFree s x hvis := by
    by_cases hne : (s, x) = (it.setName, it.member)
    · obtain ⟨rfl, rfl⟩ := Prod.mk.inj hne
      exact hx
    · exact h.nulFree s x ((mem_visible_orsItem_of_ne h.onlySets hne).mp hvis)
  tags s x := by
    by_cases hne : (s, x) = (it.setName, it.member)
    · obtain ⟨rfl, rfl⟩ := Prod.mk.inj hne
      rw [ore_orsItem_self]
      cases it with
      | add s x t => exact Ore.nulFree_of_mem_aset_add (h.tags s x)
      | rem s x ts => exact fun u hu => h.tags s x u (Ore.mem_aset_foldl_remove.mp hu).1
    · rw [ore_orsItem_of_ne _ hne]
      exact h.tags s x

theorem OrSound.effect (h : OrSound db) {m : OrMsg} (hm : ∀ it ∈ m.items, NulFree it.member) :
    OrSound (orsEffect m db) := by
  obtain ⟨db₀, heq, hdb₀⟩ := orsEffect_eq_foldl m db
  rw [heq]
  refine foldl_received (P := fun (_ : List OrItem) (db' : OrDb) => OrSound db') (L := []) ?_
    fun _ _ it hit ih => ih.item (hm it hit)
  rcases hdb₀ with rfl | ⟨s, rfl⟩
  · exact h
  · refine ⟨h.onlySets.modifySet _ _, fun s' x => ?_, fun s' x hx => ?_, h.tags⟩
    · exact (Db.mem_visible_modifySet_id h.onlySets).trans (h.visible s' x)
    · exact h.nulFree s' x ((Db.mem_visible_modifySet_id h.onlySets).mp hx)

section

variable {s : Sds} {xs : List Sds}

/-- **An add with one tag for each member.** -/
theorem OrSound.own_add (h : OrSound db) (hnd : xs.Nodup) (hnul : ∀ x ∈ xs, NulFree x)
    (tag : Sds → Sds) (k x : Sds) :
    x ∈ (orsEffect (.add s (xs.map fun y => ⟨y, tag y⟩)) db).keys.visible k ↔
      x ∈ db.keys.visible k ∨ (k = s ∧ x ∈ xs) ∧ tag x ∉ (db.ore k x).rset := by
  have hitems : (OrMsg.add s (xs.map fun y => ⟨y, tag y⟩)).items =
      xs.reverse.map fun y => .add s y (tag y) := by
    rw [OrMsg.items, ← List.map_reverse, List.map_map]
    rfl
  have hafter : OrSound (orsEffect (.add s (xs.map fun y => ⟨y, tag y⟩)) db) := by
    refine h.effect fun it hit => ?_
    rw [hitems] at hit
    obtain ⟨y, hy, rfl⟩ := List.mem_map.mp hit
    exact hnul y (List.mem_reverse.mp hy)
  rw [hafter.visible, h.visible,
    ore_orsEffect_of_items _ hitems (fun _ => rfl) (fun _ => rfl) hnd]
  split
  · next hx =>
    rw [and_iff_right hx]
    exact Ore.exists_mem_aset_add
  · next hx => rw [or_iff_left fun hright => hx hright.1]

/-- **A remove of different members**, each with a list of tags. -/
theorem OrSound.own_rem (h : OrSound db) (hnd : xs.Nodup) (hnul : ∀ x ∈ xs, NulFree x)
    (tags : Sds → List Sds) (k x : Sds) :
    x ∈ (orsEffect (.rem s (xs.map fun y => ⟨y, tags y⟩)) db).keys.visible k ↔
      ∃ t ∈ (db.ore k x).aset, ¬ ((k = s ∧ x ∈ xs) ∧ t ∈ tags x) := by
  have hitems : (OrMsg.rem s (xs.map fun y => ⟨y, tags y⟩)).items =
      xs.reverse.map fun y => .rem s y (tags y) := by
    rw [OrMsg.items, ← List.map_reverse, List.map_map]
    rfl
  have hafter : OrSound (orsEffect (.rem s (xs.map fun y => ⟨y, tags y⟩)) db) := by
    refine h.effect fun it hit => ?_
    rw [hitems] at hit
    obtain ⟨y, hy, rfl⟩ := List.mem_map.mp hit
    exact hnul y (List.mem_reverse.mp hy)
  rw [hafter.visible, ore_orsEffect_of_items _ hitems (fun _ => rfl) (fun _ => rfl) hnd]
  split
  · next hx => simp only [OrItem.onOre, Ore.mem_aset_foldl_remove, hx, true_and]
  · next hx => simp only [hx, false_and, not_false_iff, and_true]

end

/-! ### Prepare phases, whatever the arguments -/

/-- Visible sets, live tags and tombstones are those of `db`. -/
structure SameTags (db db' : OrDb) : Prop where
  keys : db'.keys = db.keys
  aset : ∀ s x, (db'.ore s x).aset = (db.ore s x).aset
  rset : ∀ s x, (db'.ore s x).rset = (db.ore s x).rset

theorem SameTags.refl (db : OrDb) : SameTags db db := ⟨rfl, fun _ _ => rfl, fun _ _ => rfl⟩

theorem SameTags.fetch (h : SameTags db db') (s x : Sds) : SameTags db (oreHTGet db' s x).2 := by
  have hore : (oreHTGet db' s x).2.ore = db'.ore := Db.elem_htGet ..
  refine ⟨(Db.keys_htGet ..).trans h.keys, fun s' y => ?_, fun s' y => ?_⟩
  · rw [hore, h.aset]
  · rw [hore, h.rset]

theorem SameTags.draw (h : SameTags db db') (srv : Server) (s k x : Sds) :
    SameTags db (drawTag srv s k x db').1 := by
  refine ⟨?_, fun s' y => ?_, fun s' y => ?_⟩
  · rw [← h.keys]
    simp [drawTag, oreHTGet]
  · rw [ore_drawTag, ← h.aset]
    split <;> rfl
  · rw [ore_drawTag, ← h.rset]
    split <;> rfl

/-- The item was put together from copies and fresh tags. -/
structure OrItem.Copied (db : OrDb) (it : OrItem) : Prop where
  /-- The member is a copy. -/
  nulFree : NulFree it.member
  tags : ∀ t ∈ it.tags, (∃ c, t = lcToSds c) ∨ ∃ s x, ∃ u ∈ (db.ore s x).aset, t = sdsnew u

/-- What every prepare phase guarantees, whatever bytes it was given. -/
structure OrCopies (db : OrDb) (p : Prepared OrDb OrMsg) : Prop where
  /-- Only counters change. -/
  same : SameTags db p.state
  copied : ∀ m ∈ p.msg, ∀ it ∈ m.items, it.Copied db

theorem OrCopies.refused (db : OrDb) (replies : List Reply) : OrCopies db ⟨db, replies, none⟩ :=
  ⟨.refl db, by simp⟩

theorem OrCopies.looped {m : OrMsg} (h : SameTags db db' ∧ ∀ it ∈ m.items, it.Copied db)
    (replies : List Reply) : OrCopies db ⟨db', replies, none⟩ ∧
      OrCopies db ⟨db', replies, some m⟩ := by
  refine ⟨⟨h.1, by simp⟩, h.1, ?_⟩
  rintro _ ⟨⟩
  exact h.2

theorem collect_drawTag (db : OrDb) (srv : Server) (s : Sds)
    {round : Sds → OrDb → OrDb × Option OrAdd}
    (hround : ∀ x db', SameTags db db' → ∃ db'', SameTags db db'' ∧
      (round x db' = (db'', none) ∨ ∃ k, round x db' = drawTag srv s k x db'')) (xs : List Sds) :
    SameTags db (collect round xs db).1 ∧
      ∀ it ∈ (OrMsg.add s (collect round xs db).2).items, it.Copied db := by
  have hloop : SameTags db (collect round xs db).1 ∧
      ∀ en ∈ (collect round xs db).2, (OrItem.add s en.member en.tag).Copied db := by
    refine collect_invariant (fun x _ db' hdb' => ?_) (.refl db)
    obtain ⟨db'', hdb'', heq | ⟨k, heq⟩⟩ := hround x db' hdb'
    · rw [heq]
      exact ⟨hdb'', by simp⟩
    · rw [heq]
      refine ⟨hdb''.draw srv s k x, ?_⟩
      rintro _ ⟨⟩
      refine ⟨nulFree_sdsnew x, fun t ht => .inl ?_⟩
      exact ⟨_, List.mem_singleton.mp ht⟩
  refine ⟨hloop.1, fun it hit => ?_⟩
  obtain ⟨en, hen, rfl⟩ := List.mem_map.mp hit
  exact hloop.2 en (List.mem_reverse.mp hen)

theorem collect_listTags (db : OrDb) (srv : Server) (s : Sds)
    {round : Sds → OrDb → OrDb × Option OrRem}
    (hround : ∀ x db', round x db' = (db', none) ∨ ∃ k, round x db' = listTags srv s k x db')
    (xs : List Sds) :
    SameTags db (collect round xs db).1 ∧
      ∀ it ∈ (OrMsg.rem s (collect round xs db).2).items, it.Copied db := by
  have hloop : SameTags db (collect round xs db).1 ∧
      ∀ en ∈ (collect round xs db).2, (OrItem.rem s en.member en.tags).Copied db := by
    refine collect_invariant (fun x _ db' hdb' => ?_) (.refl db)
    obtain heq | ⟨k, heq⟩ := hround x db'
    · rw [heq]
      exact ⟨hdb', by simp⟩
    · rw [heq]
      refine ⟨hdb'.fetch s k, ?_⟩
      rintro _ ⟨⟩
      refine ⟨nulFree_sdsnew x, fun t ht => .inr ?_⟩
      obtain ⟨u, hu, rfl⟩ := List.mem_map.mp ht
      refine ⟨s, k, u, ?_, rfl⟩
      rw [← hdb'.aset, Db.ore, ← Db.htGet_fst]
      exact (Iteration.mem_order _).mp hu
  refine ⟨hloop.1, fun it hit => ?_⟩
  obtain ⟨en, hen, rfl⟩ := List.mem_map.mp hit
  exact hloop.2 en (List.mem_reverse.mp hen)

theorem orCopies_orsstoreRemoves (srv : Server) (dst : Sds) (set dstset : SetObj)
    (replies : List Reply) (db : OrDb) :
    OrCopies db (orsstoreRemoves srv dst set dstset replies db) := by
  refine (OrCopies.looped (collect_listTags db srv dst (fun x db' => ?_) _) _).2
  split
  · exact .inl rfl
  · exact .inr ⟨_, rfl⟩

/-- **Prepare phases send copies**, whatever bytes they were given. -/
theorem orCopies_orsPrepare {srv : Server} {c : OrCmd} {p : Prepared OrDb OrMsg}
    (hp : orsPrepare srv c db = some p) : OrCopies db p := by
  cases c with
  | add key members =>
    have hloop := collect_drawTag db srv key (fun x db' hdb' => ⟨db', hdb', by
      show (if db.keys.lacks key x then drawTag srv key x x db' else (db', none)) = _ ∨ _
      split
      · exact .inr ⟨_, rfl⟩
      · exact .inl rfl⟩) members
    simp only [orsPrepare, orsaddPrepare] at hp
    split at hp
    · split at hp
      · cases hp
        exact .refused ..
      · cases hp
    · split at hp
      · cases hp
        exact (OrCopies.looped hloop _).1
      · cases hp
        exact (OrCopies.looped hloop _).2
  | rem key members =>
    cases hp
    rw [orsremPrepare]
    split
    · exact .refused ..
    · exact .refused ..
    · next set _ =>
      have hloop := collect_listTags db srv key (fun x db' => by
        show (if setTypeIsMember set x then listTags srv key x x db' else (db', none)) = _ ∨ _
        split
        · exact .inr ⟨_, rfl⟩
        · exact .inl rfl) members
      dsimp only
      split
      · exact (OrCopies.looped hloop _).1
      · exact (OrCopies.looped hloop _).2
  | unionstore dst src srcs =>
    simp only [orsPrepare, orsunionstorePrepare] at hp
    split at hp
    · split at hp
      · cases hp
        exact ⟨.refl db, by simp [OrMsg.items]⟩
      · cases hp
    · cases hp
      refine (OrCopies.looped (collect_drawTag db srv dst (fun x db' hdb' =>
        ⟨_, hdb'.fetch dst (sdsnew x), ?_⟩) _) _).2
      split
      · exact .inr ⟨_, rfl⟩
      · exact .inl rfl
  | diffstore dst src srcs =>
    simp only [orsPrepare, orsdiffstorePrepare] at hp
    split at hp
    · cases hp
      exact orCopies_orsstoreRemoves ..
    · cases hp
  | interstore dst src srcs =>
    simp only [orsPrepare, orsinterstorePrepare] at hp
    split at hp
    · cases hp
      exact orCopies_orsstoreRemoves ..
    · cases hp

/-- The database after a prepare phase and the effect of what it sends. -/
def orAfter (p : Prepared OrDb OrMsg) : OrDb := p.msg.elim p.state (orsEffect · p.state)

theorem orSet_perform {N : ℕ} {iter : Fin N → Iteration} {r : Fin N} {c : OrCmd}
    {p : Prepared OrDb OrMsg} (hp : orsPrepare (.of iter r) c db = some p) :
    (orSet iter).perform r c db = some (orAfter p) :=
  OpBased.perform_eq (Option.map_eq_some_iff.mpr ⟨p, hp, rfl⟩)

theorem exists_of_orSet_perform {N : ℕ} {iter : Fin N → Iteration} {r : Fin N} {c : OrCmd}
    (h : (orSet iter).perform r c db = some db') :
    ∃ p, orsPrepare (.of iter r) c db = some p ∧ orAfter p = db' := by
  cases hp : orsPrepare (.of iter r) c db with
  | none =>
    have hprep : (orSet iter).prepare r c db = none := Option.map_eq_none_iff.mpr hp
    rw [OpBased.perform, hprep] at h
    cases h
  | some p => exact ⟨p, rfl, Option.some.inj ((orSet_perform hp).symm.trans h)⟩

theorem OrSound.after (h : OrSound db) {srv : Server} {c : OrCmd} {p : Prepared OrDb OrMsg}
    (hp : orsPrepare srv c db = some p) : OrSound (orAfter p) := by
  obtain ⟨hsame, hcopied⟩ := orCopies_orsPrepare hp
  have hstate := h.congr hsame.keys hsame.aset
  rw [orAfter]
  cases hm : p.msg with
  | none => exact hstate
  | some m => exact hstate.effect fun it hit => (hcopied m hm it hit).nulFree

/-- **A replica by itself stays sound**, whatever its clients send. -/
theorem orSound_of_alone {N : ℕ} {iter : Fin N → Iteration} {r : Fin N} {cs : List OrCmd}
    (h : Alone (orSet iter) r cs db) : OrSound db := by
  induction h with
  | start => exact orSound_empty
  | step _ hc ih =>
    obtain ⟨p, hp, rfl⟩ := exists_of_orSet_perform hc
    exact ih.after hp

/-! ### The destination of a store command -/

section

variable {srv : Server} {dst : Sds} {xs : List Sds}

/-- The tag that is drawn next for member `x` of set `s`. -/
def Db.nextTag (srv : Server) (db : OrDb) (s x : Sds) : Sds :=
  lcToSds ⟨(db.ore s x).current, srv.p2pId⟩

/-- The entries of a union: each member is drawn for once, from the counter that its entry had
before the command. -/
theorem entries_unionstore (hnd : xs.Nodup) (hself : ∀ x ∈ xs, sdsnew x = x) (db : OrDb) :
    (collect (fun x db' => if db.keys.lacks dst x then
        drawTag srv dst (sdsnew x) x (oreHTGet db' dst (sdsnew x)).2
        else ((oreHTGet db' dst (sdsnew x)).2, none)) xs db).2 =
      (xs.filter (db.keys.lacks dst)).map fun y => ⟨y, db.nextTag srv dst y⟩ := by
  have hfetch : ∀ (db' : OrDb) k, (oreHTGet db' dst k).2.ore = db'.ore :=
    fun _ _ => Db.elem_htGet ..
  rw [collect_of_apart (fun x (db' : OrDb) => db'.ore dst x) (f := fun x e =>
    if db.keys.lacks dst x then some ⟨x, lcToSds ⟨e.current, srv.p2pId⟩⟩ else none) hnd]
  · exact filterMap_ite_some ..
  · intro x hx db'
    rw [hself x hx]
    split
    · refine ⟨?_, fun y _ hne => ?_⟩
      · simp [drawTag, oreHTGet, hself x hx]
      · rw [ore_drawTag, if_neg fun h => hne (Prod.mk.inj h).2, hfetch]
    · exact ⟨rfl, fun y _ _ => by rw [hfetch]⟩

/-- **`ORSUNIONSTORE`** adds what it finds in the sources, unless the tag it draws is a
tombstone. -/
theorem OrSound.unionstore (h : OrSound db) (srv : Server) (dst src : Sds) (srcs : List Sds) :
    ∃ p, orsPrepare srv (.unionstore dst src srcs) db = some p ∧
      (orAfter p).keys.sets = Function.update db.keys.sets dst {x | x ∈ db.keys.visible dst ∨
        ((∃ k ∈ src :: srcs, x ∈ db.keys.visible k) ∧ x ∉ db.keys.visible dst) ∧
          db.nextTag srv dst x ∉ (db.ore dst x).rset} := by
  set U := (sunionResult srv db.keys (src :: srcs) .empty).1 with hU
  have hunion : ∀ x, x ∈ srv.iter.order U.elems ↔ ∃ k ∈ src :: srcs, x ∈ db.keys.visible k := by
    intro x
    rw [Iteration.mem_order, SetObj.mem_elems, hU, h.onlySets.mem_sunionResult]
    simp only [SetObj.notMem_empty, false_or]
  have hself : ∀ x ∈ srv.iter.order U.elems, sdsnew x = x := by
    intro x hx
    obtain ⟨k, -, hk⟩ := (hunion x).mp hx
    exact sdsnew_of_nulFree (h.nulFree k x hk)
  have hnd : (srv.iter.order U.elems).Nodup := (srv.iter.perm U.elems).nodup_iff.mpr U.nodup
  obtain ⟨p, hp, hmsg⟩ : ∃ p, orsPrepare srv (.unionstore dst src srcs) db = some p ∧
      p.msg = some (.add dst (((srv.iter.order U.elems).filter (db.keys.lacks dst)).map
        fun y => ⟨y, db.nextTag srv dst y⟩)) := by
    rw [← entries_unionstore hnd hself db]
    simp only [orsPrepare, orsunionstorePrepare]
    split
    · next hother => exact absurd hother (h.onlySets dst _)
    · exact ⟨_, rfl, rfl⟩
  have hsame := (orCopies_orsPrepare hp).same
  have hnul : ∀ x ∈ (srv.iter.order U.elems).filter (db.keys.lacks dst), NulFree x := by
    intro x hx
    obtain ⟨k, -, hk⟩ := (hunion x).mp (List.mem_filter.mp hx).1
    exact h.nulFree k x hk
  refine ⟨p, hp, Keys.sets_eq_update fun k x => ?_⟩
  rw [orAfter, hmsg, Option.elim_some, (h.congr hsame.keys hsame.aset).own_add (hnd.filter _) hnul,
    hsame.keys, hsame.rset, List.mem_filter, hunion, h.onlySets.lacks_iff]
  split
  · next hk =>
    subst hk
    rw [and_iff_right rfl]
    rfl
  · next hk => rw [or_iff_left fun hright => hk hright.1.1]

theorem entries_listTags {c : Sds → Bool} {k : Sds → Sds}
    {round : Sds → OrDb → OrDb × Option OrRem}
    (hround : ∀ x db', round x db' = if c x then listTags srv dst (k x) x db' else (db', none))
    (xs : List Sds) (db : OrDb) : (collect round xs db).2 = (xs.filter c).map fun x =>
      ⟨sdsnew x, (srv.iter.order (db.ore dst (k x)).aset.elems).map sdsnew⟩ := by
  have hstill : ∀ x db', (round x db').1.ore = db'.ore ∧ (round x db').2 = if c x then
      some ⟨sdsnew x, (srv.iter.order (db'.ore dst (k x)).aset.elems).map sdsnew⟩ else none := by
    intro x db'
    rw [hround]
    split
    · exact ⟨Db.elem_htGet .., by simp [listTags, oreHTGet]⟩
    · exact ⟨rfl, rfl⟩
  rw [collect_of_still Db.ore (f := fun x ore => if c x then
    some ⟨sdsnew x, (srv.iter.order (ore dst (k x)).aset.elems).map sdsnew⟩ else none) hstill,
    filterMap_ite_some]

/-- The entries of a removing store: the members of the destination that are not in the scratch
set, with their live tags. -/
theorem entries_storeRemoves (hself : ∀ x ∈ xs, sdsnew x = x)
    (htags : ∀ x, ∀ t ∈ (db.ore dst x).aset, NulFree t) (dstset : SetObj) :
    (collect (fun x db' => if setTypeIsMember dstset x then (db', none)
        else listTags srv dst (sdsnew x) x db') xs db).2 =
      (xs.filter fun x => !setTypeIsMember dstset x).map
        fun y => ⟨y, srv.iter.order (db.ore dst y).aset.elems⟩ := by
  rw [entries_listTags (c := fun x => !setTypeIsMember dstset x) fun x db' => by
    cases setTypeIsMember dstset x <;> rfl]
  refine List.map_congr_left fun x hx => ?_
  rw [hself x (List.mem_filter.mp hx).1, map_sdsnew_of_nulFree]
  exact fun t ht => htags x t (by simpa using ht)

/-- **The removing store commands** keep of the destination what is in the scratch set. -/
theorem OrSound.storeRemoves (h : OrSound db) (srv : Server) {set : SetObj}
    (hset : db.keys dst = some (.set set)) (dstset : SetObj) (replies : List Reply) :
    (orAfter (orsstoreRemoves srv dst set dstset replies db)).keys.sets =
      Function.update db.keys.sets dst {x | x ∈ db.keys.visible dst ∧ x ∈ dstset} := by
  have hmem : ∀ x, x ∈ srv.iter.order set.elems ↔ x ∈ db.keys.visible dst := by
    intro x
    rw [Iteration.mem_order, SetObj.mem_elems, Keys.mem_visible_set hset]
  have hnul : ∀ x ∈ srv.iter.order set.elems, NulFree x :=
    fun x hx => h.nulFree dst x ((hmem x).mp hx)
  have hnd : (srv.iter.order set.elems).Nodup := (srv.iter.perm set.elems).nodup_iff.mpr set.nodup
  have hsame := (orCopies_orsstoreRemoves srv dst set dstset replies db).same
  have hmsg : (orsstoreRemoves srv dst set dstset replies db).msg =
      some (.rem dst (((srv.iter.order set.elems).filter fun x => !setTypeIsMember dstset x).map
        fun y => ⟨y, srv.iter.order (db.ore dst y).aset.elems⟩)) := by
    rw [← entries_storeRemoves (fun x hx => sdsnew_of_nulFree (hnul x hx)) (h.tags dst) dstset]
    rfl
  refine Keys.sets_eq_update fun k x => ?_
  rw [orAfter, hmsg, Option.elim_some, (h.congr hsame.keys hsame.aset).own_rem (hnd.filter _)
    fun x hx => hnul x (List.mem_filter.mp hx).1]
  simp only [hsame.aset, List.mem_filter, hmem, Iteration.mem_order, SetObj.mem_elems,
    Bool.not_eq_true', Bool.eq_false_iff, Ne, setTypeIsMember_iff]
  split
  · next hk =>
    subst hk
    constructor
    · rintro ⟨t, ht, hkept⟩
      have hvis := (h.visible k x).mpr ⟨t, ht⟩
      exact ⟨hvis, by_contra fun hx => hkept ⟨⟨rfl, hvis, hx⟩, ht⟩⟩
    · rintro ⟨hvis, hx⟩
      obtain ⟨t, ht⟩ := (h.visible k x).mp hvis
      exact ⟨t, ht, fun hlost => hlost.1.2.2 hx⟩
  · next hk => simp only [hk, false_and, not_false_iff, and_true, h.visible]

end

end RemoveWin
