import RemoveWin.PlainSet
import RemoveWin.RwSet.Convergence

/-!
# The remove-win set of a replica by itself

An add that its own replica applies carries the clock of the header, so it removes nothing and
puts its member in. A remove carries the next clock, so it takes its member out, once: when the
member is mentioned again the header already has that clock. So a message adds, or removes, the
members it mentions, and the prepare phases pick the members to mention from the visible sets.
-/

namespace RemoveWin

open Replicated

/-- The command on plain sets. -/
def RwCmd.plain : RwCmd → SetCmd
  | .add key members => .add key members
  | .rem key members => .rem key members
  | .unionstore dst src srcs => .unionstore dst src srcs
  | .diffstore dst src srcs => .diffstore dst src srcs
  | .interstore dst src srcs => .interstore dst src srcs

/-- The message mentions member `x` of set `s`. -/
def RwMentions (L : List RwItem) (s x : Sds) : Prop :=
  ∃ it ∈ L, it.setName = s ∧ it.entry.member = x

theorem rwMentions_concat {L : List RwItem} {it : RwItem} {s x : Sds} :
    RwMentions (L ++ [it]) s x ↔ RwMentions L s x ∨ (s, x) = (it.setName, it.entry.member) := by
  simp only [RwMentions, List.mem_append, List.mem_singleton, or_and_right, exists_or,
    exists_eq_left, Prod.mk.injEq]
  exact or_congr_right (and_congr eq_comm eq_comm)

theorem rwMentions_items {m : RwMsg} {s x : Sds} :
    RwMentions m.items s x ↔ s = m.setName ∧ ∃ en ∈ m.entries, en.member = x := by
  simp only [RwMentions, RwMsg.mem_items]
  constructor
  · rintro ⟨it, ⟨-, hs, hen⟩, rfl, rfl⟩
    exact ⟨hs, it.entry, hen, rfl⟩
  · rintro ⟨rfl, en, hen, rfl⟩
    exact ⟨⟨m.isAdd, m.setName, en⟩, ⟨rfl, rfl, hen⟩, rfl, rfl⟩

section

variable {srv : Server} {db : RwDb} {L : List RwItem} {m : RwMsg}

theorem rwsEffect_start (h : RwOk srv L db) {db₀ : RwDb}
    (hdb₀ : db₀ = db ∨ db₀ = { db with keys := db.keys.modifySet m.setName id }) :
    RwOk srv L db₀ ∧ db₀.header srv = db.header srv ∧
      ∀ s x, x ∈ db₀.keys.visible s ↔ x ∈ db.keys.visible s := by
  rcases hdb₀ with rfl | rfl
  · exact ⟨h, rfl, fun _ _ => Iff.rfl⟩
  · refine ⟨h.createSet m.setName, rfl, fun s x => ?_⟩
    rw [(h.createSet m.setName).visible, h.visible]
    rfl

/-- **An add with the clocks of the headers** adds what it mentions. -/
theorem mem_visible_rwsEffect_add (h : RwOk srv L db) (hid : 0 ≤ srv.p2pId) (hadd : m.isAdd = true)
    (hm : ∀ en ∈ m.entries, en.clock = (db.header srv m.setName en.member).current) (s x : Sds) :
    x ∈ (rwsEffect srv m db).keys.visible s ↔
      x ∈ db.keys.visible s ∨ RwMentions m.items s x := by
  obtain ⟨db₀, heq, hdb₀⟩ := rwsEffect_eq_foldl srv m db
  obtain ⟨hok₀, hheader₀, hvis₀⟩ := rwsEffect_start h hdb₀
  rw [heq]
  refine (foldl_received (L := []) (P := fun L' db' => (∃ L'', RwOk srv L'' db') ∧
    (∀ s x, (db'.header srv s x).current = (db.header srv s x).current) ∧
    ∀ s x, x ∈ db'.keys.visible s ↔ x ∈ db.keys.visible s ∨ RwMentions L' s x)
    ⟨⟨L, hok₀⟩, fun s x => by rw [hheader₀], fun s x => by simp [hvis₀, RwMentions]⟩ ?_).2.2 s x
  rintro L' db' it hit ⟨⟨L'', hok⟩, hcur, hvis⟩
  obtain ⟨hit₁, hit₂, hen⟩ := RwMsg.mem_items.mp hit
  have hclock : it.entry.clock = (db'.header srv it.setName it.entry.member).current := by
    rw [hcur, hit₂, hm _ hen]
  have hcid : 0 ≤ it.entry.clock.id := by rw [hclock, hok.keeper]; exact hid
  have hcalm := not_removeCheck_current (db'.header srv it.setName it.entry.member)
  rw [← hclock] at hcalm
  have hrmv : (db'.header srv it.setName it.entry.member).rmv it.entry.clock =
      db'.header srv it.setName it.entry.member := if_neg hcalm
  have hfits : it.entry.clock.Fits srv := ⟨by rw [hclock, hok.size], hcid⟩
  have hok' := hok.item hfits
  refine ⟨⟨_, hok'⟩, fun s x => ?_, fun s x => ?_⟩
  · by_cases hne : (s, x) = (it.setName, it.entry.member)
    · obtain ⟨rfl, rfl⟩ := Prod.mk.inj hne
      rw [rwsItem, header_rwsEntry_self, hit₁, hadd, Reh.receive, if_pos rfl, Reh.current_ins, hrmv,
        hcur]
    · rw [rwsItem, header_rwsEntry_of_ne hne, hcur]
  · rw [rwMentions_concat, ← or_assoc, ← hvis]
    by_cases hne : (s, x) = (it.setName, it.entry.member)
    · obtain ⟨rfl, rfl⟩ := Prod.mk.inj hne
      refine iff_of_true ?_ (.inr rfl)
      rw [hok'.visible, rwsItem, header_rwsEntry_self, hit₁, hadd, Reh.receive, if_pos rfl, hrmv,
        Reh.exists_ins (by rw [hclock]) hcid, hclock]
      exact .inr rfl
    · rw [rwsItem, mem_visible_rwsEntry_of_ne hok.onlySets hne]
      simp [hne]

/-- **A remove with the next clocks of the headers** removes what it mentions. -/
theorem mem_visible_rwsEffect_rem (h : RwOk srv L db) (hid : 0 ≤ srv.p2pId)
    (hlt : srv.p2pId.toNat < srv.p2pCount) (hrem : m.isAdd = false)
    (hm : ∀ en ∈ m.entries, en.clock = nowVC (db.header srv m.setName en.member).current)
    (s x : Sds) : x ∈ (rwsEffect srv m db).keys.visible s ↔
      x ∈ db.keys.visible s ∧ ¬ RwMentions m.items s x := by
  obtain ⟨db₀, heq, hdb₀⟩ := rwsEffect_eq_foldl srv m db
  obtain ⟨hok₀, hheader₀, hvis₀⟩ := rwsEffect_start h hdb₀
  rw [heq]
  refine (foldl_received (L := []) (P := fun L' db' => (∃ L'', RwOk srv L'' db') ∧
    (∀ s x, ¬ RwMentions L' s x → db'.header srv s x = db.header srv s x) ∧
    ∀ s x, x ∈ db'.keys.visible s ↔ x ∈ db.keys.visible s ∧ ¬ RwMentions L' s x)
    ⟨⟨L, hok₀⟩, fun s x _ => by rw [hheader₀], fun s x => by simp [hvis₀, RwMentions]⟩ ?_).2.2 s x
  rintro L' db' it hit ⟨⟨L'', hok⟩, hheader, hvis⟩
  obtain ⟨hit₁, hit₂, hen⟩ := RwMsg.mem_items.mp hit
  have hclock : it.entry.clock = nowVC (db.header srv it.setName it.entry.member).current := by
    rw [hit₂, hm _ hen]
  have hsize : it.entry.clock.size = srv.p2pCount := by
    rw [hclock, size_nowVC]
    exact h.size _ _
  have hcid : 0 ≤ it.entry.clock.id := by
    rw [hclock, id_nowVC, h.keeper]
    exact hid
  have hfits : it.entry.clock.Fits srv := ⟨hsize, hcid⟩
  have hok' := hok.item hfits
  refine ⟨⟨_, hok'⟩, fun s x hs => ?_, fun s x => ?_⟩
  · rw [rwMentions_concat, not_or] at hs
    rw [rwsItem, header_rwsEntry_of_ne hs.2, hheader s x hs.1]
  · by_cases hne : (s, x) = (it.setName, it.entry.member)
    · obtain ⟨rfl, rfl⟩ := Prod.mk.inj hne
      refine iff_of_false ?_ fun hs => hs.2 (rwMentions_concat.mpr (.inr rfl))
      rw [rwsItem, hit₁, hrem, mem_visible_rwsEntry_self hok.onlySets]
      rintro (⟨hf, -⟩ | ⟨hcalm, hv⟩)
      · cases hf
      · -- a member that is still visible has not been mentioned, so its header is as it was
        rw [hheader _ _ ((hvis _ _).mp hv).2, hclock] at hcalm
        exact hcalm (removeCheck_nowVC (by rwa [h.keeper, h.size]))
    · rw [rwsItem, mem_visible_rwsEntry_of_ne hok.onlySets hne, hvis, rwMentions_concat]
      simp [hne]

end

/-! ### Commands -/

section

variable {srv : Server} {db : RwDb} {L : List RwItem}

/-- The database after a prepare phase and the effect of what it sends. -/
def RwDb.after (srv : Server) (p : Prepared RwDb RwMsg) : RwDb :=
  p.msg.elim p.state (rwsEffect srv · p.state)

/-- The common end of the commands. `xs` are the members looked at, `out` the copies that are sent,
and `emit` says of which of them. What is sent was looked up under the copy. -/
theorem mem_visible_after_finish (h : RwOk srv L db) (hid : 0 ≤ srv.p2pId)
    (hlt : srv.p2pId.toNat < srv.p2pCount) {isAdd : Bool} {setName : Sds} {key out : Sds → Sds}
    {emit : Sds → Reh → Option VC} {xs : List Sds}
    (hkey : ∀ x ∈ xs, ∀ h, (emit x h).isSome → key x = out x)
    (hemit : ∀ x h, ∀ t ∈ emit x h, t = rwStamp isAdd h) (replies : List Reply) (refusal : Reply)
    (s x : Sds) :
    x ∈ (RwDb.after srv (rwsFinish isAdd setName replies refusal
        (entryLoop srv setName key out emit xs db))).keys.visible s ↔
      let mentions := s = setName ∧
        ∃ y ∈ xs, out y = x ∧ (emit y (db.header srv setName x)).isSome
      if isAdd then x ∈ db.keys.visible s ∨ mentions
      else x ∈ db.keys.visible s ∧ ¬ mentions := by
  obtain ⟨hk, hh, he⟩ := entryLoop_spec srv setName key out emit xs db
  set r := entryLoop srv setName key out emit xs db
  have hok : RwOk srv L r.1 := h.congr hk hh
  have hmem : ∀ en, en ∈ r.2 ↔ ∃ y ∈ xs, out y = en.member ∧
      emit y (db.header srv setName en.member) = some en.clock := by
    intro en
    rw [he]
    simp only [List.mem_filterMap, Option.map_eq_some_iff]
    constructor
    · rintro ⟨y, hy, t, ht, rfl⟩
      rw [hkey y hy _ (Option.isSome_of_mem ht)] at ht
      exact ⟨y, hy, rfl, ht⟩
    · rintro ⟨y, hy, hout, ht⟩
      have hsame := hkey y hy _ (Option.isSome_of_mem ht)
      exact ⟨y, hy, en.clock, by rwa [hsame, hout], by rw [hout]⟩
  have hstamp : ∀ en ∈ r.2, en.clock = rwStamp isAdd (r.1.header srv setName en.member) := by
    intro en hen
    obtain ⟨y, -, -, ht⟩ := (hmem en).mp hen
    rw [hh]
    exact hemit _ _ _ ht
  have hment : (∃ en ∈ r.2, en.member = x) ↔
      ∃ y ∈ xs, out y = x ∧ (emit y (db.header srv setName x)).isSome := by
    simp only [hmem]
    constructor
    · rintro ⟨en, ⟨y, hy, hout, ht⟩, rfl⟩
      exact ⟨y, hy, hout, by rw [ht]; rfl⟩
    · rintro ⟨y, hy, hout, ht⟩
      obtain ⟨t, ht⟩ := Option.isSome_iff_exists.mp ht
      exact ⟨⟨x, t⟩, ⟨y, hy, hout, ht⟩, rfl⟩
  dsimp only
  rw [← hment, rwsFinish]
  split
  · next hemp =>
    rw [List.isEmpty_iff] at hemp
    have hafter : RwDb.after srv ⟨r.1, replies ++ [refusal], none⟩ = r.1 := rfl
    rw [hafter, hk]
    cases isAdd <;> simp [hemp]
  · rw [RwDb.after, Option.elim_some]
    cases isAdd with
    | true => rw [mem_visible_rwsEffect_add hok hid rfl hstamp, rwMentions_items, hk, if_pos rfl]
    | false =>
      rw [mem_visible_rwsEffect_rem hok hid hlt rfl hstamp, rwMentions_items, hk,
        if_neg Bool.false_ne_true]

/-- The same, for the set that the command is about and members that are sent as they are. -/
theorem sets_after_finish (h : RwOk srv L db) (hid : 0 ≤ srv.p2pId)
    (hlt : srv.p2pId.toNat < srv.p2pCount) {isAdd : Bool} {setName : Sds} {key out : Sds → Sds}
    {emit : Sds → Reh → Option VC} {xs : List Sds}
    (hkey : ∀ x ∈ xs, ∀ h, (emit x h).isSome → key x = x)
    (hout : ∀ x ∈ xs, ∀ h, (emit x h).isSome → out x = x)
    (hemit : ∀ x h, ∀ t ∈ emit x h, t = rwStamp isAdd h) (replies : List Reply) (refusal : Reply)
    {T : Set Sds}
    (hT : ∀ x, x ∈ T ↔
      let mentions := x ∈ xs ∧ (emit x (db.header srv setName x)).isSome
      if isAdd then x ∈ db.keys.visible setName ∨ mentions
      else x ∈ db.keys.visible setName ∧ ¬ mentions) :
    (RwDb.after srv (rwsFinish isAdd setName replies refusal
      (entryLoop srv setName key out emit xs db))).keys.sets =
        Function.update db.keys.sets setName T := by
  refine Keys.sets_eq_update fun s x => ?_
  have hself : (∃ y ∈ xs, out y = x ∧ (emit y (db.header srv setName x)).isSome) ↔
      x ∈ xs ∧ (emit x (db.header srv setName x)).isSome := by
    constructor
    · rintro ⟨y, hy, rfl, ht⟩
      rw [hout y hy _ ht] at ht ⊢
      exact ⟨hy, ht⟩
    · rintro ⟨hx, ht⟩
      exact ⟨x, hx, hout x hx _ ht, ht⟩
  rw [mem_visible_after_finish h hid hlt
    (fun y hy h hs => (hkey y hy h hs).trans (hout y hy h hs).symm) hemit, hself, hT]
  by_cases hs : s = setName
  · subst hs
    simp
  · cases isAdd <;> simp [hs]

theorem sets_rwsadd (h : RwOk srv L db) (hid : 0 ≤ srv.p2pId)
    (hlt : srv.p2pId.toNat < srv.p2pCount) (key : Sds) (members : List Sds) :
    (RwDb.after srv (rwsaddPrepare srv key members db)).keys.sets =
      Function.update db.keys.sets key (db.keys.sets key ∪ {x | x ∈ members}) := by
  rw [rwsaddPrepare]
  split
  · next hother => exact absurd hother (h.onlySets key _)
  · refine sets_after_finish h hid hlt (fun _ _ _ _ => rfl) (fun _ _ _ _ => rfl) ?_ _ _ fun x => ?_
    · intro x h t ht
      simp only [Option.mem_def, Option.ite_none_left_eq_some, Option.some.injEq] at ht
      exact ht.2.symm
    · simp only [Set.mem_union, Keys.mem_sets, Set.mem_ofPred_eq, ← h.visible, if_true]
      by_cases hx : x ∈ db.keys.visible key <;> simp [hx]

theorem sets_rwsrem (h : RwOk srv L db) (hid : 0 ≤ srv.p2pId)
    (hlt : srv.p2pId.toNat < srv.p2pCount) {key : Sds} {members : List Sds}
    (hn : ∀ x ∈ members, x ∈ db.keys.visible key → NulFree x) :
    (RwDb.after srv (rwsremPrepare srv key members db)).keys.sets =
      Function.update db.keys.sets key (db.keys.sets key \ {x | x ∈ members}) := by
  rw [rwsremPrepare, Db.view_eq]
  split
  · next hnone =>
    refine Keys.sets_eq_update fun k x => ?_
    by_cases hk : k = key
    · subst hk
      simp [RwDb.after, Keys.mem_sets, Keys.visible_of_none hnone]
    · simp [RwDb.after, hk]
  · next hother => exact absurd hother (h.onlySets key _)
  · next set hset =>
    refine sets_after_finish h hid hlt (fun _ _ _ _ => rfl) (fun x hx _ hs => ?_) ?_ _ _
      fun x => ?_
    · refine sdsnew_of_nulFree (hn x hx ((Keys.mem_visible_set hset).mpr ?_))
      simpa using hs
    · intro x h t ht
      simp only [Option.mem_def, Option.ite_none_right_eq_some, Option.some.injEq] at ht
      exact ht.2.symm
    · simp only [Set.mem_sdiff, Keys.mem_sets, Set.mem_ofPred_eq, setTypeIsMember_iff,
        Keys.mem_visible_set hset, Bool.false_eq_true, if_false]
      by_cases hx : x ∈ set <;> simp [hx]

end

end RemoveWin
