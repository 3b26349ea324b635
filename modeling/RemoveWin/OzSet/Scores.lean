import RemoveWin.Lib.Counters
import RemoveWin.OzSet.Pointers

/-!
# Scores of the add-win priority queue

The runs of the add-win priority queue, in any delivery order. Entries and pointers are always
right, and an element is always in the sorted set exactly if it has an entry. Once everything has
been delivered, the entries are those of the tags that were added and never removed, so the queues
agree on which elements they hold.

They need not agree on the scores. An increment may overtake the add of the tag it lists, and a
remove of another tag come in between: `resort` caches the entry without a value as `innate`, and
the add that supplies the value does not rewrite the score. Where no add finds `innate` at its own
entry, the stored score is that of the live tags.
-/

namespace RemoveWin

open Replicated

/-! ### The effect -/

/-- What is kept for an element, as `ozeHTGet` returns it. -/
abbrev Db.oze (db : OzDb) (s x : Sds) : Oze := db.elem ozeNew s x

/-- A message is about an element. -/
def OzMsg.On (m : OzMsg) (s x : Sds) : Prop := m.key = s ∧ m.element = x

instance OzMsg.decidableOn (m : OzMsg) (s x : Sds) : Decidable (m.On s x) :=
  inferInstanceAs (Decidable (m.key = s ∧ m.element = x))

section

variable {db : OzDb} {m : OzMsg} {junk : Garbage} {s x : Sds}

/-- The database when the metadata of the element is up to date and the sorted set is not. -/
def ozStored (junk : Garbage) (m : OzMsg) (db : OzDb) : OzDb :=
  (db.htGet ozeNew m.key m.element).2.setElem m.key m.element
    ((db.oze m.key m.element).receive (junk m.key m.element) m.op)

/-- The effect leaves the sorted set at that, or writes a score, or deletes the element. -/
theorem ozEffect_cases (junk : Garbage) (m : OzMsg) (db : OzDb) :
    (ozEffect junk m db = ozStored junk m db ∧ ∀ score,
      (db.oze m.key m.element).receiveScore (junk m.key m.element) score m.op = score) ∨
    (∃ q, ozEffect junk m db = (ozStored junk m db).zadd m.key q m.element ∧ ∀ score,
      (db.oze m.key m.element).receiveScore (junk m.key m.element) score m.op = some q) ∨
    (ozEffect junk m db = (ozStored junk m db).zdel m.key m.element ∧ ∀ score,
      (db.oze m.key m.element).receiveScore (junk m.key m.element) score m.op = none) := by
  rcases m with ⟨⟨v, tag⟩ | ⟨v, tags⟩ | tags, key, element⟩
  · simp only [ozEffect, ozStored, Db.get_eq, Db.put_eq, Db.update_zadd, Db.htGet_fst, Oze.receive,
      Oze.receiveScore]
    split
    · exact .inr (.inl ⟨_, rfl, fun _ => rfl⟩)
    · exact .inl ⟨rfl, fun _ => rfl⟩
  · simp only [ozEffect, ozStored, Db.get_eq, Db.put_eq, Db.update_zadd, Db.htGet_fst, Oze.receive,
      Oze.receiveScore]
    split
    · exact .inr (.inl ⟨_, rfl, fun _ => rfl⟩)
    · exact .inl ⟨rfl, fun _ => rfl⟩
  · simp only [ozEffect, ozStored, Db.get_eq, Db.put_eq, Db.update_zadd, Db.htGet_fst, Oze.receive,
      Oze.receiveScore]
    split
    · split
      · exact .inr (.inl ⟨_, rfl, fun _ => rfl⟩)
      · exact .inr (.inr ⟨rfl, fun _ => rfl⟩)
    · next hn =>
      refine .inl ⟨?_, fun _ => rfl⟩
      rw [Oze.resort_of_some]
      simpa using hn

theorem onlyZsets_ozStored (h : db.keys.OnlyZsets) : (ozStored junk m db).keys.OnlyZsets := by
  rw [ozStored, Db.keys_setElem, Db.keys_htGet]
  exact h

theorem onlyZsets_ozEffect (h : db.keys.OnlyZsets) : (ozEffect junk m db).keys.OnlyZsets := by
  obtain ⟨heff, -⟩ | ⟨q, heff, -⟩ | ⟨heff, -⟩ := ozEffect_cases junk m db
  · rw [heff]
    exact onlyZsets_ozStored h
  · rw [heff]
    exact Db.onlyZsets_zadd (onlyZsets_ozStored h)
  · rw [heff]
    exact Db.onlyZsets_zdel (onlyZsets_ozStored h)

theorem elem_ozEffect (junk : Garbage) (m : OzMsg) (db : OzDb) :
    (ozEffect junk m db).oze = (ozStored junk m db).oze := by
  obtain ⟨heff, -⟩ | ⟨q, heff, -⟩ | ⟨heff, -⟩ := ozEffect_cases junk m db
  · rw [heff]
  · rw [heff]
    exact Db.elem_zadd ..
  · rw [heff]
    exact Db.elem_zdel ..

theorem oze_ozEffect_self (junk : Garbage) (m : OzMsg) (db : OzDb) :
    (ozEffect junk m db).oze m.key m.element =
      (db.oze m.key m.element).receive (junk m.key m.element) m.op := by
  rw [elem_ozEffect]
  exact Db.elem_setElem_self ..

theorem OzMsg.ne_of_not_on (hne : ¬ m.On s x) : (s, x) ≠ (m.key, m.element) := by
  intro heq
  obtain ⟨rfl, rfl⟩ := Prod.mk.inj heq
  exact hne ⟨rfl, rfl⟩

theorem oze_ozEffect_of_ne (junk : Garbage) (db : OzDb) (hne : ¬ m.On s x) :
    (ozEffect junk m db).oze s x = db.oze s x := by
  rw [elem_ozEffect, ozStored, Db.oze, Db.elem_setElem_of_ne _ _ _ (OzMsg.ne_of_not_on hne)]
  exact congrFun (congrFun (Db.elem_htGet ..) s) x

theorem score_ozStored (junk : Garbage) (m : OzMsg) (db : OzDb) :
    (ozStored junk m db).keys.score = db.keys.score := by
  rw [ozStored, Db.keys_setElem, Db.keys_htGet]

theorem score_ozEffect_self (h : db.keys.OnlyZsets) :
    (ozEffect junk m db).keys.score m.key m.element =
      (db.oze m.key m.element).receiveScore (junk m.key m.element)
        (db.keys.score m.key m.element) m.op := by
  obtain ⟨heff, hscore⟩ | ⟨q, heff, hscore⟩ | ⟨heff, hscore⟩ := ozEffect_cases junk m db
  · rw [heff, hscore, score_ozStored]
  · rw [heff, hscore]
    exact Db.score_zadd_self (onlyZsets_ozStored h)
  · rw [heff, hscore]
    exact Db.score_zdel_self (onlyZsets_ozStored h)

theorem score_ozEffect_of_ne (h : db.keys.OnlyZsets) (hne : ¬ m.On s x) :
    (ozEffect junk m db).keys.score s x = db.keys.score s x := by
  have hne' := OzMsg.ne_of_not_on hne
  obtain ⟨heff, -⟩ | ⟨q, heff, -⟩ | ⟨heff, -⟩ := ozEffect_cases junk m db
  · rw [heff, score_ozStored]
  · rw [heff, Db.score_zadd_of_ne (onlyZsets_ozStored h) hne', score_ozStored]
  · rw [heff, Db.score_zdel_of_ne (onlyZsets_ozStored h) hne', score_ozStored]

end

/-! ### Counters -/

section

variable {e : Oze} {t : Lc} {v : ℚ}

theorem Oze.current_touch (e : Oze) (t : Lc) (junk : ℚ) (f : Ase → Ase) :
    (e.touch t junk f).current = e.current := by rw [touch_eq]

theorem Oze.current_removeTag (e : Oze) (t : Lc) : (e.removeTag t).current = e.current := by
  rw [removeTag]
  split <;> rfl

theorem Oze.current_increase (junk : Lc → ℚ) (v : ℚ) (ts : List Lc) (e : Oze) :
    (e.increase junk v ts).1.current = e.current := by
  induction ts generalizing e with
  | nil => rfl
  | cons t ts ih =>
    rw [increase_cons, ih]
    obtain ⟨-, heq⟩ | ⟨-, -, heq⟩ | ⟨-, -, -, heq⟩ | ⟨-, -, -, heq⟩ :=
      e.updateAcquiredValue_cases t v (junk t)
    · rw [heq]
    · rw [heq, current_touch]
    · rw [heq]
      exact current_touch e t (junk t) (bump v)
    · rw [heq, current_touch]

theorem Oze.current_resort (e : Oze) : e.resort.current = e.current := by
  rw [resort]
  split
  · rfl
  · exact foldl_received (P := fun (_ : List Ase) (e' : Oze) => e'.current = e.current) (L := [])
      rfl fun _ _ _ _ ih => ih

theorem Oze.current_receive (junk : Lc → ℚ) (e : Oze) (op : OzOp) :
    (e.receive junk op).current = e.current := by
  cases op with
  | add v tag =>
    rw [receive]
    obtain ⟨-, heq⟩ | ⟨-, -, heq⟩ | ⟨-, -, heq⟩ :=
      e.updateInnateValue_cases (sdsToLc tag) v (junk (sdsToLc tag))
    · rw [heq]
    · rw [heq]
      exact current_touch e _ _ (setX v)
    · rw [heq, current_touch]
  | incrby v tags => exact current_increase ..
  | rem tags =>
    rw [receive, current_resort]
    exact foldl_received (P := fun (_ : List Lc) (e' : Oze) => e'.current = e.current) (L := [])
      rfl fun _ e' t _ ih => (e'.current_removeTag t).trans ih

end

/-! ### The prepare phase -/

/-- What every prepare phase guarantees. -/
structure OzPrepared (srv : Server) (db : OzDb) (p : ZPrepared OzDb OzMsg) : Prop where
  keys : p.state.keys = db.keys
  oze : ∀ s x, ∃ c, (db.oze s x).current ≤ c ∧ p.state.oze s x = { db.oze s x with current := c }
  add : ∀ m ∈ p.msg, ∀ v tag, m.op = .add v tag → ¬ (db.oze m.key m.element).Lookup ∧
    ∃ c, (db.oze m.key m.element).current ≤ c ∧ c < (p.state.oze m.key m.element).current ∧
      tag = lcToSds ⟨c, srv.p2pId⟩
  listed : ∀ m ∈ p.msg, ∀ i ∈ m.op.items, (∃ t v, i = .add t v) ∨
    ((db.oze m.key m.element).asetGet i.tag).isSome

theorem OzPrepared.refused (srv : Server) (db : OzDb) (reply : ZReply) :
    OzPrepared srv db ⟨db, reply, none⟩ :=
  ⟨rfl, fun _ _ => ⟨_, le_rfl, rfl⟩, by simp, by simp⟩

theorem mem_listed {db : OzDb} {key element : Sds} {e : Oze} (he : db.elems key element = some e)
    {f : Lc → OzItem} (hf : ∀ t, (f t).tag = t) {i : OzItem}
    (hi : i ∈ ((e.aset.map fun a => lcToSds a.t).map sdsToLc).map f) :
    ((db.oze key element).asetGet i.tag).isSome := by
  have hoze : db.oze key element = e := by rw [Db.oze, Db.elem, he, Option.getD_some]
  obtain ⟨t, ht, rfl⟩ := List.mem_map.mp hi
  obtain ⟨_, ha, rfl⟩ := List.mem_map.mp ht
  obtain ⟨a, hmem, rfl⟩ := List.mem_map.mp ha
  rw [hoze, hf, sdsToLc_lcToSds, Oze.asetGet_isSome_iff]
  exact List.mem_map_of_mem hmem

theorem ozPrepare_spec (srv : Server) (c : OzCmd) (db : OzDb) :
    OzPrepared srv db (ozPrepare srv c db) := by
  cases c with
  | add key element value more =>
    simp only [ozPrepare, ozaddPrepare, Db.get_eq, Db.put_eq]
    split
    · exact .refused ..
    · exact .refused ..
    · next v _ =>
      have hkeys : (db.htGet ozeNew key element).2.keys = db.keys := Db.keys_htGet ..
      have hoze : (db.htGet ozeNew key element).2.oze = db.oze := Db.elem_htGet ..
      have hfst : (db.htGet ozeNew key element).1 = db.oze key element := Db.htGet_fst ..
      split
      · exact ⟨hkeys, fun s x => ⟨_, le_rfl, by rw [hoze]⟩, by simp, by simp⟩
      · next hl =>
        rw [hfst] at hl ⊢
        refine ⟨hkeys, fun s x => ?_, ?_, ?_⟩
        · by_cases hne : (s, x) = (key, element)
          · obtain ⟨rfl, rfl⟩ := Prod.mk.inj hne
            exact ⟨_, (lt_add_one _).le, Db.elem_setElem_self ..⟩
          · refine ⟨_, le_rfl, ?_⟩
            rw [Db.oze, Db.elem_setElem_of_ne _ _ _ hne]
            exact congrFun (congrFun hoze s) x
        · rintro _ ⟨⟩ v' tag ⟨⟩
          refine ⟨hl, _, le_rfl, ?_, rfl⟩
          dsimp only [Db.oze]
          rw [Db.elem_setElem_self]
          exact lt_add_one _
        · rintro _ ⟨⟩ i hi
          exact .inl ⟨_, _, List.eq_of_mem_singleton hi⟩
  | incrby key element value more =>
    simp only [ozPrepare, ozincrbyPrepare, Db.find_eq]
    split
    · exact .refused ..
    · exact .refused ..
    · cases he : db.elems key element with
      | none => exact .refused ..
      | some e =>
        dsimp only
        split
        · refine ⟨rfl, fun _ _ => ⟨_, le_rfl, rfl⟩, ?_, ?_⟩
          · rintro _ ⟨⟩ v' tag ⟨⟩
          · rintro _ ⟨⟩ i hi
            exact .inr (mem_listed he (fun _ => rfl) hi)
        · exact .refused ..
  | rem key element more =>
    simp only [ozPrepare, ozremPrepare, Db.find_eq]
    split
    · exact .refused ..
    · cases he : db.elems key element with
      | none => exact .refused ..
      | some e =>
        dsimp only
        split
        · refine ⟨rfl, fun _ _ => ⟨_, le_rfl, rfl⟩, ?_, ?_⟩
          · rintro _ ⟨⟩ v' tag ⟨⟩
          · rintro _ ⟨⟩ i hi
            exact .inr (mem_listed he (fun _ => rfl) hi)
        · exact .refused ..

/-! ### Runs -/

section

variable {N : ℕ} {iter : Fin N → Iteration} {junk : Fin N → Garbage}
  {C : Cond (Fin N) OzDb OzCmd OzMsg} {g : Net (Fin N) OzDb OzMsg}

theorem ozSet_prepare {r : Fin N} {c : OzCmd} {db db' : OzDb} {o : Option OzMsg}
    (hp : (ozSet iter junk).prepare r c db = some (db', o)) :
    ∃ reply, OzPrepared (.of iter r) db ⟨db', reply, o⟩ := by
  obtain ⟨rfl, rfl⟩ := Prod.mk.inj (Option.some.inj hp)
  exact ⟨_, ozPrepare_spec (.of iter r) c db⟩

/-- What a list of events says about the tags of an element. -/
def ozItems (A : List (Event (Fin N) OzMsg)) (s x : Sds) : List OzItem :=
  A.flatMap fun d => if d.msg.On s x then d.msg.op.items else []

theorem mem_ozItems {A : List (Event (Fin N) OzMsg)} {s x : Sds} {i : OzItem} :
    i ∈ ozItems A s x ↔ ∃ d ∈ A, d.msg.On s x ∧ i ∈ d.msg.op.items := by
  simp only [ozItems, List.mem_flatMap, List.mem_ite_nil_right]

theorem ozItems_concat (A : List (Event (Fin N) OzMsg)) (d : Event (Fin N) OzMsg) (s x : Sds) :
    ozItems (A ++ [d]) s x = ozItems A s x ++ if d.msg.On s x then d.msg.op.items else [] := by
  simp [ozItems]

theorem OzOp.eq_add_of_mem_items {op : OzOp} {t : Lc} {v : ℚ} (h : .add t v ∈ op.items) :
    ∃ tag, t = sdsToLc tag ∧ op = .add v tag := by
  rcases op with ⟨v', tag⟩ | ⟨v', tags⟩ | tags
  · obtain ⟨rfl, rfl⟩ := OzItem.add.inj (List.eq_of_mem_singleton h)
    exact ⟨tag, rfl, rfl⟩
  · simp [OzOp.items] at h
  · simp [OzOp.items] at h

/-- The counters of the elements, and the tags that adds draw from them. -/
def ozeCounters (N : ℕ) : Counters (Fin N) OzDb OzMsg (Sds × Sds) Sds where
  cur db k := (db.oze k.1 k.2).current
  names m k := match m.op with
    | .add _ tag => if m.On k.1 k.2 then [tag] else []
    | _ => []
  name r c := lcToSds ⟨c, r.val⟩
  name_injective := eq_of_lcToSds_eq

theorem mem_names {m : OzMsg} {k : Sds × Sds} {t : Sds} :
    t ∈ (ozeCounters N).names m k ↔ m.On k.1 k.2 ∧ ∃ v, m.op = .add v t := by
  rcases m with ⟨⟨v, tag⟩ | ⟨v, tags⟩ | tags, key, element⟩
  · simp [ozeCounters, eq_comm]
  · simp [ozeCounters]
  · simp [ozeCounters]

theorem ozDrawn_of_reachable (hg : Reachable (ozSet iter junk) C g) :
    (ozeCounters N).Drawn g := by
  refine Counters.drawn_of_reachable (fun _ hp => ?_) (fun r m db k => ?_) hg
  · obtain ⟨_, hspec⟩ := ozSet_prepare hp
    refine ⟨fun k => ?_, fun m hm k t ht => ?_, fun m _ k => ?_⟩
    · obtain ⟨c, hle, heq⟩ := hspec.oze k.1 k.2
      exact hle.trans_eq (congrArg Oze.current heq).symm
    · obtain ⟨hon, v, hop⟩ := mem_names.mp ht
      obtain ⟨-, c, hle, hlt, htag⟩ := hspec.add m hm v t hop
      rw [hon.1, hon.2] at hle hlt
      exact ⟨c, hle, hlt, htag⟩
    · rcases m with ⟨⟨v, tag⟩ | ⟨v, tags⟩ | tags, key, element⟩
      · simp only [ozeCounters]
        split <;> simp
      · exact List.nodup_nil
      · exact List.nodup_nil
  · by_cases hon : m.On k.1 k.2
    · show (((ozEffect (junk r) m db).oze k.1 k.2).current : ℤ) = (db.oze k.1 k.2).current
      rw [← hon.1, ← hon.2, oze_ozEffect_self, Oze.current_receive]
    · exact congrArg Oze.current (oze_ozEffect_of_ne (junk r) db hon)

theorem ozAdd_unique (hg : Reachable (ozSet iter junk) C g) {d d' : Event (Fin N) OzMsg}
    (hd : d ∈ g.log) (hd' : d' ∈ g.log) {s x : Sds} (hon : d.msg.On s x) (hon' : d'.msg.On s x)
    {v v' : ℚ} {tag tag' : Sds} (hop : d.msg.op = .add v tag) (hop' : d'.msg.op = .add v' tag')
    (htag : sdsToLc tag = sdsToLc tag') : d = d' := by
  have hdrawn := ozDrawn_of_reachable hg
  have hmem : tag ∈ (ozeCounters N).names d.msg (s, x) := mem_names.mpr ⟨hon, v, hop⟩
  have hmem' : tag' ∈ (ozeCounters N).names d'.msg (s, x) := mem_names.mpr ⟨hon', v', hop'⟩
  obtain ⟨c, -, rfl⟩ := hdrawn.origin d hd (s, x) tag hmem
  obtain ⟨c', -, rfl⟩ := hdrawn.origin d' hd' (s, x) tag' hmem'
  have hname : ∀ r c, sdsToLc ((ozeCounters N).name r c) = ⟨c, r.val⟩ :=
    fun r c => sdsToLc_lcToSds _
  have heq : (ozeCounters N).name d.origin c = (ozeCounters N).name d'.origin c' := by
    rw [hname, hname] at htag
    show lcToSds _ = lcToSds _
    rw [htag]
  refine eq_of_nodup_items (hdrawn.nodup (s, x)) hd hd' hmem ?_
  rw [heq]
  exact hmem'

/-- The database of a replica that has applied the events `A`, in whatever order. -/
structure OzDbOk (A : List (Event (Fin N) OzMsg)) (db : OzDb) : Prop where
  /-- The visible keys hold sorted sets. -/
  onlyZsets : db.keys.OnlyZsets
  entries : ∀ s x, OzOk (ozItems A s x) (db.oze s x)
  pointers : ∀ s x, OzSorted (ozItems A s x) (db.oze s x)
  shown : ∀ s x, Shown (db.oze s x) (db.keys.score s x)

theorem ozDbOk_empty : OzDbOk (N := N) [] .empty where
  onlyZsets _ := by simp [ZDb.empty]
  entries _ _ := ozOk_new
  pointers _ _ := ozSorted_new
  shown _ _ := iff_of_false (by simp [ZDb.empty, ZKeys.score]) fun h => h rfl

theorem OzDbOk.prepared {A : List (Event (Fin N) OzMsg)} {db : OzDb} {srv : Server}
    {p : ZPrepared OzDb OzMsg} (h : OzDbOk A db) (hp : OzPrepared srv db p) : OzDbOk A p.state where
  onlyZsets := hp.keys ▸ h.onlyZsets
  entries s x := by
    obtain ⟨c, -, heq⟩ := hp.oze s x
    rw [heq]
    exact (h.entries s x).setCurrent c
  pointers s x := by
    obtain ⟨c, -, heq⟩ := hp.oze s x
    rw [heq]
    exact ⟨(h.pointers s x).innate, (h.pointers s x).acquired⟩
  shown s x := by
    obtain ⟨c, -, heq⟩ := hp.oze s x
    rw [heq, hp.keys]
    exact h.shown s x

theorem OzDbOk.effect {A : List (Event (Fin N) OzMsg)} {db : OzDb} (h : OzDbOk A db)
    {d : Event (Fin N) OzMsg} (junk : Garbage)
    (hfresh : ∀ v tag, d.msg.op = .add v tag →
      ∀ w, .add (sdsToLc tag) w ∉ ozItems A d.msg.key d.msg.element) :
    OzDbOk (A ++ [d]) (ozEffect junk d.msg db) := by
  have hself : OzOk _ _ ∧ OzSorted _ _ :=
    (h.entries d.msg.key d.msg.element).receive (junk d.msg.key d.msg.element) d.msg.op
      (h.pointers d.msg.key d.msg.element) hfresh
  refine ⟨onlyZsets_ozEffect h.onlyZsets, fun s x => ?_, fun s x => ?_, fun s x => ?_⟩
  · rw [ozItems_concat]
    by_cases hon : d.msg.On s x
    · rw [if_pos hon, ← hon.1, ← hon.2, oze_ozEffect_self]
      exact hself.1
    · rw [if_neg hon, List.append_nil, oze_ozEffect_of_ne junk db hon]
      exact h.entries s x
  · rw [ozItems_concat]
    by_cases hon : d.msg.On s x
    · rw [if_pos hon, ← hon.1, ← hon.2, oze_ozEffect_self]
      exact hself.2
    · rw [if_neg hon, List.append_nil, oze_ozEffect_of_ne junk db hon]
      exact h.pointers s x
  · by_cases hon : d.msg.On s x
    · rw [← hon.1, ← hon.2, oze_ozEffect_self, score_ozEffect_self h.onlyZsets]
      exact shown_receive (h.entries _ _) (h.shown _ _)
    · rw [oze_ozEffect_of_ne junk db hon, score_ozEffect_of_ne h.onlyZsets hon]
      exact h.shown s x

/-- **Entries and pointers in every run.** -/
theorem ozOk_of_reachable (hg : Reachable (ozSet iter junk) C g) (r : Fin N) :
    OzDbOk (g.applied r) (g.state r) := by
  revert r
  refine hg.local_invariant (I := fun _ A db => OzDbOk A db) ?_ ?_ ?_
  · exact fun _ => ozDbOk_empty
  · intro g g' r c db' o _ _ hp ih
    obtain ⟨_, hspec⟩ := ozSet_prepare hp
    exact ih.prepared hspec
  · intro g' r d A db hg' hd happ ih
    refine ih.effect (junk r) fun v tag hop w hw => ?_
    -- the add whose tag this is would be the same event, applied twice
    obtain ⟨d', hd', hon', hitem⟩ := mem_ozItems.mp hw
    have hlog : d' ∈ g'.log := (Reachable.wellFormed hg').applied_mem (r := r) (by simp [happ, hd'])
    have hnodup := ((Reachable.wellFormed hg').applied_nodup r).of_map
    rw [happ] at hnodup
    obtain ⟨tag', htag, hop'⟩ := OzOp.eq_add_of_mem_items hitem
    obtain rfl := ozAdd_unique hg' hd hlog ⟨rfl, rfl⟩ hon' hop hop' htag
    exact (List.nodup_append.mp hnodup).2.2 _ hd' _ (List.mem_singleton_self _) rfl

theorem added_of_reachable (hg : Reachable (ozSet iter junk) C g) :
    ∀ s x, ∀ i ∈ ozItems g.log s x, ∃ v, .add i.tag v ∈ ozItems g.log s x := by
  refine hg.invariant (P := fun g => ∀ s x, ∀ i ∈ ozItems g.log s x, ∃ v,
    .add i.tag v ∈ ozItems g.log s x) (by simp [OpBased.start, ozItems]) ?_
  intro g g' a hg ih _ hs
  obtain ⟨r, c, db', rfl, hp, rfl⟩ | ⟨r, c, db', m, rfl, hp, rfl⟩ | ⟨r, k, d, rfl, hd, hk, rfl⟩ :=
    OpBased.step_cases _ hs
  · exact ih
  · intro s x i hi
    rw [Net.apply_log, Net.announce_log, ozItems_concat] at hi ⊢
    obtain ⟨_, hspec⟩ := ozSet_prepare hp
    rcases List.mem_append.mp hi with hi | hi
    · obtain ⟨v, hv⟩ := ih s x i hi
      exact ⟨v, List.mem_append_left _ hv⟩
    · obtain ⟨hon, hmem⟩ := (List.mem_ite_nil_right ..).mp hi
      rcases hspec.listed m rfl i hmem with ⟨t, v, rfl⟩ | hlive
      · exact ⟨v, List.mem_append_right _ hi⟩
      · -- a listed tag has an entry at the origin, so something was said about it before
        rw [show m.key = s from hon.1, show m.element = x from hon.2] at hlive
        obtain ⟨⟨j, hj, htag, -⟩, -⟩ := (((ozOk_of_reachable hg r).entries s x).aset i.tag).mp hlive
        obtain ⟨d, hd, hon', hj⟩ := mem_ozItems.mp hj
        obtain ⟨v, hv⟩ := ih s x j
          (mem_ozItems.mpr ⟨d, (Reachable.wellFormed hg).applied_mem hd, hon', hj⟩)
        exact ⟨v, List.mem_append_left _ (htag ▸ hv)⟩
  · exact ih

/-! ### Stored scores -/

/-- No add is applied to the entry that `innate` points to. -/
def ozClear : Cond (Fin N) OzDb OzCmd OzMsg
  | g, .deliver r i, _ =>
    ∀ d ∈ g.log[i]?, d.msg.op.Clear ((g.state r).oze d.msg.key d.msg.element)
  | _, .client _ _, _ => True

theorem fresh_ozEffect {A : List (Event (Fin N) OzMsg)} {db : OzDb} {junk : Garbage} {m : OzMsg}
    (h : OzDbOk A db) (hf : ∀ s x, Fresh (db.oze s x) (db.keys.score s x))
    (hclear : m.op.Clear (db.oze m.key m.element)) (s x : Sds) :
    Fresh ((ozEffect junk m db).oze s x) ((ozEffect junk m db).keys.score s x) := by
  by_cases hon : m.On s x
  · rw [← hon.1, ← hon.2, oze_ozEffect_self, score_ozEffect_self h.onlyZsets]
    exact fresh_receive (h.entries _ _) (hf _ _) hclear
  · rw [oze_ozEffect_of_ne junk db hon, score_ozEffect_of_ne h.onlyZsets hon]
    exact hf s x

theorem OzPrepared.fresh {db : OzDb} {srv : Server} {p : ZPrepared OzDb OzMsg}
    (hp : OzPrepared srv db p) (hf : ∀ s x, Fresh (db.oze s x) (db.keys.score s x)) (s x : Sds) :
    Fresh (p.state.oze s x) (p.state.keys.score s x) := by
  obtain ⟨c, -, heq⟩ := hp.oze s x
  rw [heq, hp.keys]
  exact hf s x

/-- The origin of an add has no entry for the element, so `innate` points nowhere. -/
theorem OzPrepared.clear {A : List (Event (Fin N) OzMsg)} {db : OzDb} {srv : Server}
    {p : ZPrepared OzDb OzMsg} (hp : OzPrepared srv db p) (h : OzDbOk A db) {m : OzMsg}
    (hm : m ∈ p.msg) : m.op.Clear (p.state.oze m.key m.element) := by
  rcases hop : m.op with ⟨v, tag⟩ | ⟨v, tags⟩ | tags
  · obtain ⟨c, -, heq⟩ := hp.oze m.key m.element
    rw [heq]
    intro hinnate
    exact (hp.add m hm v tag hop).1 ((h.entries _ _).lookup_of_innate hinnate)
  · trivial
  · trivial

/-- **The stored scores are up to date** in every run that meets the condition. -/
theorem fresh_of_reachable (hg : Reachable (ozSet iter junk) ozClear g) (r : Fin N) (s x : Sds) :
    Fresh ((g.state r).oze s x) ((g.state r).keys.score s x) := by
  revert r s x
  refine hg.invariant (P := fun g => ∀ r s x,
    Fresh ((g.state r).oze s x) ((g.state r).keys.score s x)) (fun _ _ _ h => (h rfl).elim) ?_
  intro g g' a hg ih hc hs r' s x
  obtain ⟨r, c, db', rfl, hp, rfl⟩ | ⟨r, c, db', m, rfl, hp, rfl⟩ | ⟨r, k, d, rfl, hd, hk, rfl⟩ :=
    OpBased.step_cases _ hs
  · by_cases hr : r' = r
    · subst hr
      obtain ⟨_, hspec⟩ := ozSet_prepare hp
      rw [Net.setState_state_self]
      exact hspec.fresh (ih r') s x
    · rw [Net.setState_state_of_ne _ _ hr]
      exact ih r' s x
  · by_cases hr : r' = r
    · subst hr
      obtain ⟨_, hspec⟩ := ozSet_prepare hp
      have hok := ozOk_of_reachable hg r'
      rw [Net.apply_state_self]
      exact fresh_ozEffect (hok.prepared hspec) (hspec.fresh (ih r')) (hspec.clear hok rfl) s x
    · rw [Net.apply_state_of_ne _ _ _ hr]
      exact ih r' s x
  · by_cases hr : r' = r
    · subst hr
      rw [Net.apply_state_self]
      exact fresh_ozEffect (ozOk_of_reachable hg r') (ih r') (hc d hd) s x
    · rw [Net.apply_state_of_ne _ _ _ hr]
      exact ih r' s x

theorem ozItems_perm (hg : Reachable (ozSet iter junk) C g) (hd : Delivered g) (r : Fin N)
    (s x : Sds) : (ozItems (g.applied r) s x).Perm (ozItems g.log s x) := by
  exact (hd.perm (Reachable.wellFormed hg) r).flatMap_right _

theorem ozAdd_value_unique (hg : Reachable (ozSet iter junk) C g) {s x : Sds} {t : Lc} {v v' : ℚ}
    (h : .add t v ∈ ozItems g.log s x) (h' : .add t v' ∈ ozItems g.log s x) : v = v' := by
  obtain ⟨d, hd, hon, hi⟩ := mem_ozItems.mp h
  obtain ⟨d', hd', hon', hi'⟩ := mem_ozItems.mp h'
  obtain ⟨tag, rfl, hop⟩ := OzOp.eq_add_of_mem_items hi
  obtain ⟨tag', htag, hop'⟩ := OzOp.eq_add_of_mem_items hi'
  obtain rfl := ozAdd_unique hg hd hd' hon hon' hop hop' htag
  rw [hop] at hop'
  exact (OzOp.add.inj hop').1

/-- **The add-win priority queue converges where no add finds `innate` at its own entry.** Once
everything has been delivered, an element is in the sorted set of every replica exactly if one of
its tags was added and never removed; its score is the value of the greatest live tag plus the
increments of the live tag with the greatest count; and so the replicas agree. -/
theorem ozSet_scores (hg : Reachable (ozSet iter junk) ozClear g) (hd : Delivered g) (r : Fin N)
    (s x : Sds) :
    (((g.state r).keys.score s x).isSome ↔ ∃ t, LiveTag (ozItems g.log s x) t) ∧
    (∀ q, (g.state r).keys.score s x = some q → OzScore (ozItems g.log s x) q) ∧
    ∀ r', (g.state r).keys.score s x = (g.state r').keys.score s x := by
  have hadded : ∀ r, ∀ i ∈ ozItems (g.applied r) s x, ∃ v,
      .add i.tag v ∈ ozItems (g.applied r) s x := by
    intro r i hi
    have hperm := ozItems_perm hg hd r s x
    obtain ⟨v, hv⟩ := added_of_reachable hg s x i (hperm.mem_iff.mp hi)
    exact ⟨v, hperm.mem_iff.mpr hv⟩
  have hpresent : ∀ r, ((g.state r).keys.score s x).isSome ↔
      ∃ t, LiveTag (ozItems g.log s x) t := by
    intro r
    have hperm := ozItems_perm hg hd r s x
    have hok := ozOk_of_reachable hg r
    refine (hok.shown s x).trans (((hok.entries s x).lookup_iff_live (hadded r)).trans ?_)
    simp only [liveTag_perm hperm]
  have hscore : ∀ r q, (g.state r).keys.score s x = some q → OzScore (ozItems g.log s x) q := by
    intro r q hq
    have hperm := ozItems_perm hg hd r s x
    have hok := ozOk_of_reachable hg r
    have hl : ((g.state r).oze s x).Lookup := (hok.shown s x).mp (by rw [hq]; rfl)
    obtain rfl : q = _ := Option.some.inj (hq.symm.trans (fresh_of_reachable hg r s x hl))
    refine OzScore.perm hperm ?_
    exact OzSorted.ozScore (hok.entries s x) (hadded r) (hok.pointers s x) hl
  refine ⟨hpresent r, hscore r, fun r' => ?_⟩
  cases hq : (g.state r).keys.score s x with
  | none =>
    have hnone : ¬ ((g.state r').keys.score s x).isSome := by
      rw [hpresent r', ← hpresent r, hq]
      simp
    exact (Option.not_isSome_iff_eq_none.mp hnone).symm
  | some q =>
    obtain ⟨q', hq'⟩ := Option.isSome_iff_exists.mp
      ((hpresent r').mpr ((hpresent r).mp (Option.isSome_of_eq_some hq)))
    rw [hq', (hscore r q hq).unique (hscore r' q' hq') fun t v v' => ozAdd_value_unique hg]

end

end RemoveWin
