import RemoveWin.RwSet.Model

/-!
# Convergence of the remove-win set

A replica of an RWF-Set receives *items*: an entry of a message, with the effect and the set name
it came with. What the items of one member do to its header is what a join register does, so the
header is a function of the set of items received (`RwOk.summary`), and the visible set follows
the header (`RwOk.visible`). Nothing here depends on the order in which messages arrive.

The argument has two layers because messages are only harmless when their clocks have the right
size and a replica's id. That is a fact about headers alone (`RwShape`), kept by every effect
whatever it carries; it gives the clocks of everything broadcast, and those give the rest.

## Main results

* `RemoveWin.RwOk.item` — one item keeps the invariant
* `RemoveWin.rwOk_of_reachable` — the invariant of every replica of every run
* `RemoveWin.rwSet_convergence` — replicas with the same messages agree, in any delivery order
-/

namespace RemoveWin

open Replicated JoinRegister

/-- An entry together with the effect and the set it came with. -/
structure RwItem where
  /-- Whether it came with an add. -/
  isAdd : Bool
  /-- The name of the set. -/
  setName : Sds
  /-- The member and the clock. -/
  entry : RwEntry

/-- The items of a message, in the order the effect takes them. -/
def RwMsg.items (m : RwMsg) : List RwItem :=
  m.entries.reverse.map fun en => ⟨m.isAdd, m.setName, en⟩

theorem RwMsg.mem_items {m : RwMsg} {it : RwItem} :
    it ∈ m.items ↔ it.isAdd = m.isAdd ∧ it.setName = m.setName ∧ it.entry ∈ m.entries := by
  simp only [RwMsg.items, List.mem_map, List.mem_reverse]
  constructor
  · rintro ⟨en, hen, rfl⟩
    exact ⟨rfl, rfl, hen⟩
  · rintro ⟨h₁, h₂, h₃⟩
    exact ⟨it.entry, h₃, by rw [← h₁, ← h₂]⟩

/-- One round of the effect loop. -/
def rwsItem (srv : Server) (db : RwDb) (it : RwItem) : RwDb :=
  rwsEntry srv it.isAdd it.setName db it.entry

theorem rwsEffect_eq_foldl (srv : Server) (m : RwMsg) (db : RwDb) :
    ∃ db₀ : RwDb, rwsEffect srv m db = m.items.foldl (rwsItem srv) db₀ ∧
      (db₀ = db ∨ db₀ = { db with keys := db.keys.modifySet m.setName id }) := by
  unfold rwsEffect
  split
  · next he =>
    rw [List.isEmpty_iff] at he
    exact ⟨db, by simp [RwMsg.items, he], .inl rfl⟩
  · exact ⟨_, by rw [RwMsg.items, List.foldl_map]; rfl, .inr rfl⟩

/-! ### Shape -/

/-- What holds of a database whatever has been received. -/
structure RwShape (srv : Server) (db : RwDb) : Prop where
  /-- The visible keys hold sets. -/
  onlySets : db.keys.OnlySets
  /-- Clocks have the size the server is configured with. -/
  size : ∀ s x, (db.header srv s x).current.size = srv.p2pCount
  keeper : ∀ s x, (db.header srv s x).current.id = srv.p2pId

variable {srv : Server} {db db' : RwDb}

theorem rwShape_empty (srv : Server) : RwShape srv .empty where
  onlySets _ := by simp [SetDb.empty]
  size _ _ := by simp [rehInit]
  keeper _ _ := by simp [rehInit]

theorem RwShape.congr (h : RwShape srv db) (hk : db'.keys = db.keys)
    (hh : db'.header srv = db.header srv) : RwShape srv db' where
  onlySets := hk ▸ h.onlySets
  size := hh ▸ h.size
  keeper := hh ▸ h.keeper

theorem RwShape.createSet (h : RwShape srv db) (s : Sds) :
    RwShape srv { db with keys := db.keys.modifySet s id } where
  onlySets := h.onlySets.modifySet _ _
  size := h.size
  keeper := h.keeper

/-- An item keeps the shape whatever clock it carries: a header only ever joins into its own
clock. -/
theorem RwShape.item (h : RwShape srv db) (it : RwItem) : RwShape srv (rwsItem srv db it) where
  onlySets := onlySets_rwsEntry h.onlySets
  size s x := by
    by_cases hne : (s, x) = (it.setName, it.entry.member)
    · obtain ⟨rfl, rfl⟩ := Prod.mk.inj hne
      rw [rwsItem, header_rwsEntry_self, Reh.size_receive, h.size]
    · rw [rwsItem, header_rwsEntry_of_ne hne, h.size]
  keeper s x := by
    by_cases hne : (s, x) = (it.setName, it.entry.member)
    · obtain ⟨rfl, rfl⟩ := Prod.mk.inj hne
      rw [rwsItem, header_rwsEntry_self, Reh.id_receive, h.keeper]
    · rw [rwsItem, header_rwsEntry_of_ne hne, h.keeper]

theorem RwShape.effect (h : RwShape srv db) (m : RwMsg) : RwShape srv (rwsEffect srv m db) := by
  obtain ⟨db₀, heq, hdb₀⟩ := rwsEffect_eq_foldl srv m db
  rw [heq]
  refine foldl_received (P := fun _ db => RwShape srv db) (L := []) ?_ fun _ _ it _ hdb =>
    hdb.item it
  rcases hdb₀ with rfl | rfl
  · exact h
  · exact h.createSet m.setName

/-! ### What a replica knows from what it received -/

/-- The entries received for one member, as the register of its header sees them. -/
def received (L : List RwItem) (s x : Sds) : Set (Entry (ℕ → ℤ) ℤ) :=
  {e | ∃ it ∈ L, it.setName = s ∧ it.entry.member = x ∧ e = it.entry.clock.toEntry it.isAdd}

@[simp] theorem received_nil (s x : Sds) : received [] s x = ∅ := by
  simp [received]

theorem received_concat_self (L : List RwItem) (it : RwItem) :
    received (L ++ [it]) it.setName it.entry.member =
      insert (it.entry.clock.toEntry it.isAdd) (received L it.setName it.entry.member) := by
  ext e
  simp only [received, Set.mem_ofPred_eq, List.mem_append, List.mem_singleton, Set.mem_insert_iff]
  constructor
  · rintro ⟨it', hit' | rfl, h₁, h₂, rfl⟩
    · exact .inr ⟨it', hit', h₁, h₂, rfl⟩
    · exact .inl rfl
  · rintro (rfl | ⟨it', hit', h⟩)
    · exact ⟨it, .inr rfl, rfl, rfl, rfl⟩
    · exact ⟨it', .inl hit', h⟩

theorem received_concat_of_ne (L : List RwItem) {it : RwItem} {s x : Sds}
    (hne : (s, x) ≠ (it.setName, it.entry.member)) :
    received (L ++ [it]) s x = received L s x := by
  ext e
  simp only [received, Set.mem_ofPred_eq, List.mem_append, List.mem_singleton]
  constructor
  · rintro ⟨it', hit' | rfl, h₁, h₂, he⟩
    · exact ⟨it', hit', h₁, h₂, he⟩
    · exact absurd (by rw [h₁, h₂]) hne
  · rintro ⟨it', hit', h⟩
    exact ⟨it', .inl hit', h⟩

/-- The database of a replica that has received the items `L`, in whatever order. -/
structure RwOk (srv : Server) (L : List RwItem) (db : RwDb) : Prop extends RwShape srv db where
  /-- Each header summarises the entries received for its member. -/
  summary : ∀ s x, Summary 0 (-1) (received L s x) (db.header srv s x).register
  visible : ∀ s x, x ∈ db.keys.visible s ↔ (db.header srv s x).Exists

/-- A clock fit to be received by `srv`: of its size and from a replica. -/
def VC.Fits (srv : Server) (t : VC) : Prop := t.size = srv.p2pCount ∧ 0 ≤ t.id

theorem rwOk_empty (srv : Server) : RwOk srv [] .empty where
  toRwShape := rwShape_empty srv
  summary s x := by
    rw [Db.header_empty, Reh.register_rehInit, received_nil]
    exact summary_empty _ _
  visible s x := by
    rw [Db.header_empty]
    simp [SetDb.empty, Keys.visible, Reh.Exists, rehInit]

variable {L : List RwItem}

theorem RwOk.congr (h : RwOk srv L db) (hk : db'.keys = db.keys)
    (hh : db'.header srv = db.header srv) : RwOk srv L db' where
  toRwShape := h.toRwShape.congr hk hh
  summary := hh ▸ h.summary
  visible := by rw [hk, hh]; exact h.visible

theorem RwOk.createSet (h : RwOk srv L db) (s : Sds) :
    RwOk srv L { db with keys := db.keys.modifySet s id } where
  toRwShape := h.toRwShape.createSet s
  summary := h.summary
  visible s' x := by
    rw [← show _ ↔ (Db.header srv { db with keys := db.keys.modifySet s id } s' x).Exists from
      h.visible s' x]
    by_cases hs : s' = s
    · subst hs
      exact h.onlySets.mem_visible_modifySet s' (p := id) fun _ => Iff.rfl
    · rw [Keys.visible_modifySet_of_ne _ _ hs]

/-- **One item keeps the invariant**, whatever came before it. -/
theorem RwOk.item (h : RwOk srv L db) {it : RwItem} (ht : it.entry.clock.Fits srv) :
    RwOk srv (L ++ [it]) (rwsItem srv db it) where
  toRwShape := h.toRwShape.item it
  summary s x := by
    by_cases hne : (s, x) = (it.setName, it.entry.member)
    · obtain ⟨rfl, rfl⟩ := Prod.mk.inj hne
      have hs : it.entry.clock.size = (db.header srv it.setName it.entry.member).current.size :=
        ht.1.trans (h.size _ _).symm
      rw [rwsItem, header_rwsEntry_self, received_concat_self, Reh.register_receive hs]
      exact (h.summary _ _).receive _ (lt_of_lt_of_le (by decide) ht.2)
    · rw [rwsItem, header_rwsEntry_of_ne hne, received_concat_of_ne L hne]
      exact h.summary s x
  visible s x := by
    by_cases hne : (s, x) = (it.setName, it.entry.member)
    · obtain ⟨rfl, rfl⟩ := Prod.mk.inj hne
      rw [rwsItem, mem_visible_rwsEntry_self h.onlySets, header_rwsEntry_self,
        Reh.exists_receive ht.2, h.visible]
    · rw [rwsItem, mem_visible_rwsEntry_of_ne h.onlySets hne, header_rwsEntry_of_ne hne, h.visible]

theorem RwOk.effect (h : RwOk srv L db) {m : RwMsg} (hm : ∀ en ∈ m.entries, en.clock.Fits srv) :
    RwOk srv (L ++ m.items) (rwsEffect srv m db) := by
  obtain ⟨db₀, heq, hdb₀⟩ := rwsEffect_eq_foldl srv m db
  rw [heq]
  refine foldl_received (P := RwOk srv) ?_ fun _ _ it hit hdb =>
    hdb.item (hm _ (RwMsg.mem_items.mp hit).2.2)
  rcases hdb₀ with rfl | rfl
  · exact h
  · exact h.createSet m.setName

/-! ### Runs -/

section

variable {N : ℕ} {iter : Fin N → Iteration} {C : Cond (Fin N) RwDb RwCmd RwMsg}
  {g g' : Net (Fin N) RwDb RwMsg}

/-- The items of a list of events. -/
def itemsOf (A : List (Event (Fin N) RwMsg)) : List RwItem := A.flatMap fun e => e.msg.items

theorem itemsOf_concat (A : List (Event (Fin N) RwMsg)) (e : Event (Fin N) RwMsg) :
    itemsOf (A ++ [e]) = itemsOf A ++ e.msg.items := by
  simp [itemsOf]

theorem mem_itemsOf {A : List (Event (Fin N) RwMsg)} {it : RwItem} :
    it ∈ itemsOf A ↔ ∃ e ∈ A, it ∈ e.msg.items := List.mem_flatMap

theorem RwShape.prepare {r : Fin N} {c : RwCmd} {db db' : RwDb} {o : Option RwMsg}
    (h : RwShape (.of iter r) db) (hp : (rwSet iter).prepare r c db = some (db', o)) :
    ∃ replies, RwPrepared (.of iter r) c db ⟨db', replies, o⟩ := by
  obtain ⟨⟨db', replies, o⟩, hspec, heq⟩ := Option.map_eq_some_iff.mp hp
  obtain ⟨rfl, rfl⟩ := Prod.mk.inj heq
  exact ⟨replies, rwsPrepare_spec h.onlySets hspec⟩

theorem rwShape_of_reachable (h : Reachable (rwSet iter) C g) (r : Fin N) :
    RwShape (.of iter r) (g.state r) := by
  revert r
  refine h.local_invariant (I := fun r _ db => RwShape (.of iter r) db)
    (fun r => rwShape_empty _) ?_ ?_
  · intro g g' r c db' o _ _ hp ih
    obtain ⟨_, hspec⟩ := ih.prepare hp
    exact ih.congr hspec.keys hspec.header
  · intro g' r e A db _ _ _ ih
    exact ih.effect e.msg

theorem rwClock_of_reachable (h : Reachable (rwSet iter) C g) :
    ∀ e ∈ g.log, ∀ en ∈ e.msg.entries, en.clock.size = N ∧ en.clock.id = e.origin.val := by
  refine h.log_invariant (by simp [OpBased.start]) ?_
  intro g g' r c db' m hg _ _ _ hp en hen
  have hshape := rwShape_of_reachable hg r
  obtain ⟨_, hspec⟩ := hshape.prepare hp
  obtain ⟨y, k, horigin⟩ := hspec.entries m rfl en hen
  rw [horigin.clock]
  have hs := hshape.size m.setName k
  have hi := hshape.keeper m.setName k
  unfold rwStamp
  split
  · exact ⟨hs, hi⟩
  · exact ⟨(size_nowVC _).trans hs, (id_nowVC _).trans hi⟩

/-- **The invariant of every replica of every run.** -/
theorem rwOk_of_reachable (h : Reachable (rwSet iter) C g) (r : Fin N) :
    RwOk (.of iter r) (itemsOf (g.applied r)) (g.state r) := by
  revert r
  refine h.local_invariant (I := fun r A db => RwOk (.of iter r) (itemsOf A) db)
    (fun r => rwOk_empty _) ?_ ?_
  · intro g g' r c db' o _ _ hp ih
    obtain ⟨_, hspec⟩ := ih.toRwShape.prepare hp
    exact ih.congr hspec.keys hspec.header
  · intro g' r e A db hg' he _ ih
    rw [itemsOf_concat]
    refine ih.effect fun en hen => ?_
    obtain ⟨hs, hi⟩ := rwClock_of_reachable hg' e he en hen
    exact ⟨hs, by rw [hi]; exact Int.natCast_nonneg _⟩

theorem RwOk.header_eq {srv srv' : Server} {L L' : List RwItem} {db db' : RwDb}
    (h : RwOk srv L db) (h' : RwOk srv' L' db') (hsize : srv.p2pCount = srv'.p2pCount)
    (hL : ∀ it, it ∈ L ↔ it ∈ L') (s x : Sds) :
    (db.header srv s x).pid = (db'.header srv' s x).pid ∧
      (db.header srv s x).current.vector = (db'.header srv' s x).current.vector := by
  have hrec : received L s x = received L' s x := by
    simp only [received, hL]
  have hreg : (db.header srv s x).register = (db'.header srv' s x).register :=
    (h.summary s x).unique (hrec ▸ h'.summary s x)
  refine ⟨congrArg Register.owner hreg, ?_⟩
  refine VC.vector_eq_of_entry_eq ?_ (congrArg Register.current hreg)
  rw [h.size, h'.size, hsize]

/-- **Strong eventual convergence of the RWF-Set.** Two replicas that have applied the same
messages, at the same or at different moments and in any orders, have for every set and member
the same header and the same visibility; and at every replica a member is visible exactly when
its header has an owner. A header that was never created reads as a fresh one. -/
theorem rwSet_convergence (hg : Reachable (rwSet iter) anyOrder g)
    (hg' : Reachable (rwSet iter) anyOrder g') :
    (∀ r r', (∀ e, e ∈ g.applied r ↔ e ∈ g'.applied r') → ∀ s x,
      ((g.state r).header (.of iter r) s x).pid = ((g'.state r').header (.of iter r') s x).pid ∧
      ((g.state r).header (.of iter r) s x).current.vector =
        ((g'.state r').header (.of iter r') s x).current.vector ∧
      (x ∈ (g.state r).keys.visible s ↔ x ∈ (g'.state r').keys.visible s)) ∧
    ∀ r s x, x ∈ (g.state r).keys.visible s ↔ 0 ≤ ((g.state r).header (.of iter r) s x).pid := by
  refine ⟨fun r r' happ s x => ?_, fun r => (rwOk_of_reachable hg r).visible⟩
  have hok := rwOk_of_reachable hg r
  have hok' := rwOk_of_reachable hg' r'
  obtain ⟨hpid, hvec⟩ := hok.header_eq hok' rfl (by simp [mem_itemsOf, happ]) s x
  refine ⟨hpid, hvec, ?_⟩
  rw [hok.visible, hok'.visible, Reh.Exists, Reh.Exists, hpid]

end

end RemoveWin
