import RemoveWin.KeySpace.Model
import RemoveWin.Lib.Simulation

/-!
# Names under which tables are private

The handlers were written as if the table of a container were private to it. That is so as long as
no name that is used is another such name with the suffix appended. Then containers and tables do
not meet in the key space, and the operations on them do there what they do on private tables.

## Main definitions

* `RemoveWin.Apart` — no name is another with the suffix appended
* `RemoveWin.RedisObj.Opens` — an object that can be read as a table
* `RemoveWin.Tabled` — containers and tables at some names are those of a database with private
  tables
* `RemoveWin.Private` — and there is nothing else
* `RemoveWin.Up` — a server that is up, with such a key space

## Main results

* `RemoveWin.Tabled.agrees`, `Private.agrees` — the operations do the same in both
* `RemoveWin.Private.table_eq` — what is read from the tables
* `RemoveWin.updateSet_keeps`, `updateZset_keeps` — updates of containers
-/

namespace RemoveWin

open Containers Replicated

/-- **No name is another with the suffix appended.** -/
def Apart (suffix : Sds) (S : Set Sds) : Prop := ∀ n ∈ S, n ++ suffix ∉ S

instance (suffix : Sds) (names : List Sds) : Decidable (Apart suffix {k | k ∈ names}) :=
  inferInstanceAs (Decidable (∀ n ∈ names, n ++ suffix ∉ names))

/-! ### Tables -/

namespace RedisObj

variable {ε : Type}

section

variable (o : RedisObj ε) (x y : Sds) (v : FieldValue ε)

theorem get_put : (o.put x v).get y = if y = x then some v else o.get y := by
  by_cases hy : y = x
  · subst hy
    simp [get, put]
  · simp [get, put, hy]

theorem entry_put_ptr (e : ε) :
    (o.put x (.ptr e)).entry y = if y = x then some e else o.entry y := by
  rw [entry, get_put]
  split_ifs <;> rfl

theorem entry_convert (enc : Encoding) : (o.convert enc).entry = o.entry := rfl

theorem entry_createHashObject : (createHashObject : RedisObj ε).entry x = none := rfl

end

/-- An object that can be read as a table: it has one of the two encodings of hashes, and pointers
beside its fields. In a hash table fields without a value do no harm. -/
structure Opens (o : RedisObj ε) : Prop where
  encoding : o.encoding = .ziplist ∨ o.encoding = .ht
  value : ∀ x ∈ o.fields, (∃ e, o.value x = .ptr e) ∨ o.encoding = .ht ∧ o.value x = .null

theorem opens_createHashObject : (createHashObject : RedisObj ε).Opens :=
  ⟨.inl rfl, fun _ hx => absurd hx (SetObj.notMem_empty _)⟩

variable {o : RedisObj ε}

/-- Reading such an object does not fail. -/
theorem Opens.hashTypeGetValue (h : o.Opens) (x : Sds) :
    o.hashTypeGetValue x = some ((o.entry x).map .ptr) := by
  by_cases hx : x ∈ o.fields
  · have hget : o.get x = some (o.value x) := if_pos hx
    rcases h.value x hx with ⟨e, he⟩ | ⟨henc, hnull⟩
    · rcases h.encoding with henc | henc <;>
        simp [RedisObj.hashTypeGetValue, entry, henc, hget, he]
    · simp [RedisObj.hashTypeGetValue, entry, henc, hget, hnull]
  · have hget : o.get x = none := if_neg hx
    rcases h.encoding with henc | henc <;> simp [RedisObj.hashTypeGetValue, entry, henc, hget]

theorem Opens.put (h : o.Opens) (x : Sds) (e : ε) : (o.put x (.ptr e)).Opens := by
  refine ⟨h.encoding, fun y hy => ?_⟩
  by_cases hyx : y = x
  · subst hyx
    exact .inl ⟨e, Function.update_self ..⟩
  · have hvalue : (o.put x (.ptr e)).value y = o.value y := Function.update_of_ne hyx ..
    rw [hvalue]
    exact h.value y ((mem_setTypeAdd.mp hy).resolve_left hyx)

theorem Opens.convert (h : o.Opens) : (o.convert .ht).Opens :=
  ⟨.inr rfl, fun x hx => (h.value x hx).imp_right fun hnull => ⟨rfl, hnull.2⟩⟩

/-- Writing a pointer keeps it a table, whether or not its encoding is changed. -/
theorem Opens.hashTypeSet (h : o.Opens) (lim : EncodingLimits) (x : Sds) (e : ε) :
    ∃ o', o.hashTypeSet lim x (.ptr e) = some o' ∧ o'.Opens ∧ o'.type = o.type ∧
      ∀ y, o'.entry y = if y = x then some e else o.entry y := by
  have hput := h.put x e
  rcases h.encoding with henc | henc
  · by_cases hlim : lim.hashMaxZiplistEntries < setTypeSize (o.put x (.ptr e)).fields
    · refine ⟨(o.put x (.ptr e)).convert .ht, ?_, hput.convert, rfl, fun y => ?_⟩
      · simp only [RedisObj.hashTypeSet, henc, if_pos hlim]
      · rw [entry_convert, entry_put_ptr]
    · refine ⟨o.put x (.ptr e), ?_, hput, rfl, fun y => entry_put_ptr ..⟩
      simp only [RedisObj.hashTypeSet, henc, if_neg hlim]
  · refine ⟨o.put x (.ptr e), ?_, hput, rfl, fun y => entry_put_ptr ..⟩
    simp only [RedisObj.hashTypeSet, henc]

end RedisObj

namespace Space

variable {ε : Type}

/-- What writing an entry of the table of `n` does to the key space. -/
structure Writes (suffix : Sds) (sp : Space ε) (n x : Sds) (e : ε) (sp' : Space ε) : Prop where
  /-- Only the table is changed. -/
  other : ∀ k, k ≠ n ++ suffix → sp' k = sp k
  /-- It can still be read. -/
  opens : ∀ o ∈ sp' (n ++ suffix), o.Opens
  /-- It is a hash if it was one or was not there. -/
  type : (∀ o ∈ sp (n ++ suffix), o.type = .hash) → ∀ o ∈ sp' (n ++ suffix), o.type = .hash
  /-- The entry has been written. -/
  entry : ∀ y, sp'.table suffix n y = if y = x then some e else sp.table suffix n y

section

variable {suffix : Sds} {sp : Space ε} {n : Sds} (h : ∀ o ∈ sp (n ++ suffix), o.Opens)
include h

/-- The table, created if need be. -/
theorem getInnerHT_spec : ∃ ht sp₁, getInnerHT suffix sp n = (ht, sp₁) ∧ ht.Opens ∧
    (∀ k, k ≠ n ++ suffix → sp₁ k = sp k) ∧ sp₁ (n ++ suffix) = some ht ∧
    ((∀ o ∈ sp (n ++ suffix), o.type = .hash) → ht.type = .hash) ∧
    ∀ y, ht.entry y = sp.table suffix n y := by
  cases hsp : sp (n ++ suffix) with
  | none =>
    refine ⟨_, _, by rw [getInnerHT, hsp], RedisObj.opens_createHashObject, fun k hk => ?_, ?_,
      fun _ => rfl, fun y => ?_⟩
    · exact Function.update_of_ne hk ..
    · exact Function.update_self ..
    · rw [table, hsp, RedisObj.entry_createHashObject]
      rfl
  | some ht =>
    refine ⟨ht, sp, by rw [getInnerHT, hsp], h ht hsp, fun _ _ => rfl, hsp,
      fun htype => htype ht rfl, fun y => ?_⟩
    rw [table, hsp]
    rfl

/-- Writing an entry. -/
theorem htPut_spec (lim : EncodingLimits) (x : Sds) (e : ε) :
    ∃ sp', sp.htPut lim suffix n x e = some sp' ∧ Writes suffix sp n x e sp' := by
  obtain ⟨ht, sp₁, hinner, hopens, hother, -, htype, hentry⟩ := getInnerHT_spec h
  obtain ⟨ht', hset, hopens', htype', hentry'⟩ := hopens.hashTypeSet lim x e
  refine ⟨Function.update sp₁ (n ++ suffix) (some ht'), ?_, ?_⟩
  · simp only [htPut, hinner, hset, Option.map_some]
  · refine ⟨fun k hk => ?_, ?_, ?_, fun y => ?_⟩
    · rw [Function.update_of_ne hk, hother k hk]
    · rw [Function.update_self]
      rintro o ⟨⟩
      exact hopens'
    · rw [Function.update_self]
      rintro hhash o ⟨⟩
      exact htype'.trans (htype hhash)
    · rw [table, Function.update_self, Option.bind_some, hentry', hentry]

/-- Looking up an entry, which creates it. -/
theorem htGet_spec (lim : EncodingLimits) (fresh : ε) (x : Sds) :
    ∃ sp', sp.htGet lim suffix fresh n x = some ((sp.table suffix n x).getD fresh, sp') ∧
      Writes suffix sp n x ((sp.table suffix n x).getD fresh) sp' := by
  obtain ⟨ht, sp₁, hinner, hopens, hother, hht, htype, hentry⟩ := getInnerHT_spec h
  have hget := hopens.hashTypeGetValue x
  rw [hentry] at hget
  cases htab : sp.table suffix n x with
  | none =>
    obtain ⟨sp', hput, hwrites⟩ := htPut_spec h lim x fresh
    rw [htab] at hget
    refine ⟨sp', ?_, hwrites⟩
    simp only [htPut, hinner, Option.map_eq_some_iff] at hput
    obtain ⟨ht', hset, hsp'⟩ := hput
    simp only [htGet, hinner, hget, Option.map_none, hset, Option.map_some, hsp',
      Option.getD_none]
  | some e =>
    rw [htab] at hget
    refine ⟨sp₁, ?_, hother, ?_, ?_, fun y => ?_⟩
    · simp only [htGet, hinner, hget, Option.map_some, Option.getD_some]
    · rw [hht]
      rintro o ⟨⟩
      exact hopens
    · rw [hht]
      rintro hhash o ⟨⟩
      exact htype hhash
    · rw [table, hht, Option.bind_some, hentry]
      split_ifs with hy
      · rw [hy, htab]
        rfl
      · rfl

theorem htFind_eq (x : Sds) : sp.htFind suffix n x = some (sp.table suffix n x) := by
  cases hsp : sp (n ++ suffix) with
  | none => simp only [htFind, table, hsp, Option.bind_none]
  | some ht =>
    have hget := (h ht hsp).hashTypeGetValue x
    simp only [htFind, table, hsp, Option.bind_some]
    cases he : ht.entry x with
    | none =>
      rw [he] at hget
      simp only [hget, Option.map_none]
    | some e =>
      rw [he] at hget
      simp only [hget, Option.map_some]

end

end Space

/-- A lookup that creates writes what it returns. -/
theorem Db.htGet_eq {κ ε : Type} (fresh : ε) (db : Db κ ε) (n x : Sds) :
    db.htGet fresh n x = (db.elem fresh n x, db.setElem n x (db.elem fresh n x)) := by
  cases h : db.elems n x with
  | none => simp [Db.htGet, Db.elem, h]
  | some e =>
    have hsame : db.setElem n x e = db := by
      rw [Db.setElem, ← h, Function.update_eq_self, Function.update_eq_self]
    simp [Db.htGet, Db.elem, h, hsame]

theorem Db.elems_setElem {κ ε : Type} (db : Db κ ε) (n x : Sds) (e : ε) (n' y : Sds) :
    (db.setElem n x e).elems n' y = if n' = n ∧ y = x then some e else db.elems n' y := by
  by_cases hn : n' = n
  · subst hn
    by_cases hy : y = x
    · subst hy
      simp [Db.setElem]
    · simp [Db.setElem, hy]
  · simp [Db.setElem, hn]

/-! ### Containers and their tables -/

section

variable {V U ε : Type} {view : RedisObj ε → V}
  {update : Sds → U → Option (RedisObj ε) → Option (RedisObj ε)} {suffix : Sds}
  {P : RedisObj ε → Prop} {S : Set Sds}

/-- Objects with `P` are containers: updating them does not fail, and does to what is seen of them
what it should. -/
def Keeps [Updates V U] (view : RedisObj ε → V)
    (update : Sds → U → Option (RedisObj ε) → Option (RedisObj ε)) (P : RedisObj ε → Prop) : Prop :=
  ∀ (k : Sds) (u : U) (o : Option (RedisObj ε)), (∀ o' ∈ o, P o') →
    ∃ o', update k u o = some o' ∧ P o' ∧ some (view o') = Updates.apply u (o.map view)

/-- **The containers of some names, and their tables**, are those of a database with private
tables. -/
structure Tabled (view : RedisObj ε → V) (suffix : Sds) (P : RedisObj ε → Prop) (S : Set Sds)
    (sp : Space ε) (db : Db (Sds → Option V) ε) : Prop where
  view : ∀ k ∈ S, (sp k).map view = db.keys k
  container : ∀ k ∈ S, ∀ o ∈ sp k, P o
  opens : ∀ n ∈ S, ∀ o ∈ sp (n ++ suffix), o.Opens
  entry : ∀ n ∈ S, ∀ x, sp.table suffix n x = db.elems n x

/-- A server that is up, with a key space in the relation `R` to `t`. -/
def Up {τ : Type} (R : Space ε → τ → Prop) (s : Option (Space ε)) (t : τ) : Prop :=
  ∃ sp, s = some sp ∧ R sp t

theorem Up.isSome {τ : Type} {R : Space ε → τ → Prop} {s : Option (Space ε)} {t : τ}
    (h : Up R s t) : s.isSome := by
  obtain ⟨sp, rfl, -⟩ := h
  rfl

namespace Tabled

variable {sp sp' : Space ε} {db : Db (Sds → Option V) ε}

/-- Writing an entry in both. -/
theorem writes (hS : Apart suffix S) (h : Tabled view suffix P S sp db) {n : Sds} (hn : n ∈ S)
    {x : Sds} {e : ε} (hw : Space.Writes suffix sp n x e sp') :
    Tabled view suffix P S sp' (db.setElem n x e) := by
  have hkey : ∀ k ∈ S, sp' k = sp k := fun k hk => hw.other k fun heq => hS n hn (heq ▸ hk)
  refine ⟨fun k hk => ?_, fun k hk => ?_, fun m hm => ?_, fun m hm y => ?_⟩
  · rw [hkey k hk]
    exact h.view k hk
  · rw [hkey k hk]
    exact h.container k hk
  · by_cases hmn : m = n
    · subst hmn
      exact hw.opens
    · rw [hw.other _ fun heq => hmn (List.append_left_injective suffix heq)]
      exact h.opens m hm
  · rw [Db.elems_setElem]
    by_cases hmn : m = n
    · subst hmn
      rw [hw.entry, h.entry m hm]
      simp only [true_and]
    · rw [if_neg fun hboth => hmn hboth.1, ← h.entry m hm, Space.table, Space.table,
        hw.other _ fun heq => hmn (List.append_left_injective suffix heq)]

variable [Updates V U]

/-- Updating a container in both. -/
theorem updateKey (hS : Apart suffix S) (hP : Keeps view update P)
    (h : Tabled view suffix P S sp db) {k : Sds} (hk : k ∈ S) (u : U) :
    ∃ o', update k u (sp k) = some o' ∧
      Tabled view suffix P S (Function.update sp k (some o')) (Tables.update db k u) := by
  obtain ⟨o', hupdate, ho', hview⟩ := hP k u (sp k) (h.container k hk)
  have htable : ∀ n ∈ S, Function.update sp k (some o') (n ++ suffix) = sp (n ++ suffix) := by
    intro n hn
    have hne : n ++ suffix ≠ k := fun heq => hS n hn (heq ▸ hk)
    exact Function.update_of_ne hne ..
  refine ⟨o', hupdate, ⟨fun k' hk' => ?_, fun k' hk' => ?_, fun n hn => ?_, fun n hn x => ?_⟩⟩
  · by_cases hkk : k' = k
    · subst hkk
      simp only [Tables.update, Function.update_self, Option.map_some, hview, h.view k' hk']
    · simp only [Tables.update, Function.update_of_ne hkk]
      exact h.view k' hk'
  · by_cases hkk : k' = k
    · subst hkk
      rw [Function.update_self]
      rintro o ⟨⟩
      exact ho'
    · rw [Function.update_of_ne hkk]
      exact h.container k' hk'
  · rw [htable n hn]
    exact h.opens n hn
  · rw [Space.table, htable n hn]
    exact h.entry n hn x

/-- What is needed of a relation for the operations on one of these names to do the same in
both. -/
theorem agrees_of {R : Space ε → Db (Sds → Option V) ε → Prop} {lim : EncodingLimits} {n : Sds}
    (hn : n ∈ S) (htabled : ∀ {sp db}, R sp db → Tabled view suffix P S sp db)
    (hwrites : ∀ {sp sp' db x e}, R sp db → Space.Writes suffix sp n x e sp' →
      R sp' (db.setElem n x e))
    (hupdate : ∀ {sp db} (u : U), R sp db → ∃ o', update n u (sp n) = some o' ∧
      R (Function.update sp n (some o')) (Tables.update db n u)) :
    Agrees (D := Held lim suffix view update) n (Up R) where
  update := by
    rintro _ db ⟨sp, rfl, h⟩ u
    obtain ⟨o', ho', hnext⟩ := hupdate u h
    exact ⟨_, by simp only [Tables.update, Option.bind_some, ho', Option.map_some], hnext⟩
  get := by
    rintro _ db ⟨sp, rfl, h⟩ e x
    obtain ⟨sp', hget, hw⟩ := Space.htGet_spec ((htabled h).opens n hn) lim e x
    have helem : (sp.table suffix n x).getD e = db.elem e n x := by
      rw [(htabled h).entry n hn, Db.elem]
    rw [helem] at hget hw
    simp only [Db.get_eq, Db.htGet_eq]
    simp only [Tables.get, Option.bind_some, hget]
    exact ⟨trivial, sp', rfl, hwrites h hw⟩
  find := by
    rintro _ db ⟨sp, rfl, h⟩ x
    simp only [Db.find_eq]
    simp only [Tables.find, Option.bind_some, Space.htFind_eq ((htabled h).opens n hn),
      (htabled h).entry n hn]
    exact ⟨trivial, sp, rfl, h⟩
  put := by
    rintro _ db ⟨sp, rfl, h⟩ x e
    obtain ⟨sp', hput, hw⟩ := Space.htPut_spec ((htabled h).opens n hn) lim x e
    exact ⟨sp', hput, hwrites h hw⟩

/-- **The operations on one of these names do the same in both.** -/
theorem agrees (hS : Apart suffix S) (hP : Keeps view update P) (lim : EncodingLimits) {n : Sds}
    (hn : n ∈ S) :
    Agrees (D := Held lim suffix view update) n (Up (Tabled view suffix P S)) :=
  agrees_of hn id (fun h hw => h.writes hS hn hw) fun u h => h.updateKey hS hP hn u

end Tabled

/-- **The key space is a database with private tables**: it holds the containers of some names and
their tables, which are hashes, and nothing else. -/
structure Private (view : RedisObj ε → V) (suffix : Sds) (P : RedisObj ε → Prop) (S : Set Sds)
    (sp : Space ε) (db : Db (Sds → Option V) ε) : Prop extends Tabled view suffix P S sp db where
  keys_outside : ∀ k ∉ S, db.keys k = none
  elems_outside : ∀ n ∉ S, ∀ x, db.elems n x = none
  hidden : ∀ k ∉ S, ∀ o ∈ sp k, o.type = .hash
  rest : ∀ k ∉ S, (∀ n ∈ S, k ≠ n ++ suffix) → sp k = none

namespace Private

variable {sp : Space ε} {db : Db (Sds → Option V) ε}

theorem empty : Private view suffix P S (fun _ => none) ⟨fun _ => none, fun _ _ => none⟩ :=
  ⟨⟨fun _ _ => rfl, fun _ _ _ h => absurd h nofun, fun _ _ _ h => absurd h nofun,
      fun _ _ _ => rfl⟩,
    fun _ _ => rfl, fun _ _ _ => rfl, fun _ _ _ h => absurd h nofun, fun _ _ _ => rfl⟩

theorem writes (hS : Apart suffix S) (h : Private view suffix P S sp db) {n : Sds} (hn : n ∈ S)
    {x : Sds} {e : ε} {sp' : Space ε} (hw : Space.Writes suffix sp n x e sp') :
    Private view suffix P S sp' (db.setElem n x e) := by
  refine ⟨h.toTabled.writes hS hn hw, h.keys_outside, fun m hm y => ?_, fun k hk => ?_,
    fun k hk hout => ?_⟩
  · have hne : ¬ (m = n ∧ y = x) := fun hboth => hm (hboth.1 ▸ hn)
    rw [Db.elems_setElem, if_neg hne]
    exact h.elems_outside m hm y
  · by_cases hkn : k = n ++ suffix
    · subst hkn
      exact hw.type (h.hidden _ hk)
    · rw [hw.other k hkn]
      exact h.hidden k hk
  · rw [hw.other k (hout n hn)]
    exact h.rest k hk hout

variable [Updates V U]

theorem updateKey (hS : Apart suffix S) (hP : Keeps view update P)
    (h : Private view suffix P S sp db) {k : Sds} (hk : k ∈ S) (u : U) :
    ∃ o', update k u (sp k) = some o' ∧
      Private view suffix P S (Function.update sp k (some o')) (Tables.update db k u) := by
  obtain ⟨o', hupdate, hnext⟩ := h.toTabled.updateKey hS hP hk u
  have hne : ∀ k' ∉ S, k' ≠ k := fun k' hk' heq => hk' (heq ▸ hk)
  refine ⟨o', hupdate, hnext, fun k' hk' => ?_, h.elems_outside, fun k' hk' => ?_,
    fun k' hk' hout => ?_⟩
  · simp only [Tables.update, Function.update_of_ne (hne k' hk')]
    exact h.keys_outside k' hk'
  · rw [Function.update_of_ne (hne k' hk')]
    exact h.hidden k' hk'
  · rw [Function.update_of_ne (hne k' hk')]
    exact h.rest k' hk' hout

/-- **The operations on one of these names do the same in both**, and leave nothing elsewhere. -/
theorem agrees (hS : Apart suffix S) (hP : Keeps view update P) (lim : EncodingLimits) {n : Sds}
    (hn : n ∈ S) :
    Agrees (D := Held lim suffix view update) n (Up (Private view suffix P S)) :=
  Tabled.agrees_of hn toTabled (fun h hw => h.writes hS hn hw) fun u h => h.updateKey hS hP hn u

omit [Updates V U]

/-- **What is read from the tables**, of any name. A name that is not used has no table: what stands
at that name with the suffix is nothing, or a container without metadata. -/
theorem table_eq (hP : ∀ o, P o → ∀ x, o.entry x = none) (h : Private view suffix P S sp db) :
    sp.table suffix = db.elems := by
  funext n x
  by_cases hn : n ∈ S
  · exact h.entry n hn x
  · rw [h.elems_outside n hn, Space.table, Option.bind_eq_none_iff]
    intro o ho
    by_cases hname : n ++ suffix ∈ S
    · exact hP o (h.container _ hname o ho) x
    · have hnone : sp (n ++ suffix) = none := h.rest _ hname fun m hm heq =>
        hn ((List.append_left_injective suffix heq) ▸ hm)
      rw [hnone] at ho
      cases ho

/-- What is seen of a key: what is seen of the container there, or of a hash. -/
theorem views_eq (h : Private view suffix P S sp db) (k : Sds) :
    (sp k).map view = db.keys k ∨
      db.keys k = none ∧ ∃ o, o.type = .hash ∧ (sp k).map view = some (view o) := by
  by_cases hk : k ∈ S
  · exact .inl (h.view k hk)
  · cases hsp : sp k with
    | none => exact .inl (h.keys_outside k hk).symm
    | some o => exact .inr ⟨h.keys_outside k hk, o, h.hidden k hk o hsp, rfl⟩

end Private

end

/-! ### Sets -/

section

variable {ε : Type} {o : RedisObj ε}

/-- A set in one of its two encodings. -/
structure RedisObj.IsSet (o : RedisObj ε) : Prop where
  type : o.type = .set
  encoding : o.encoding = .ht ∨ o.encoding = .intset ∧ ∀ x ∈ o.fields, isInteger x = true

/-- A set whose members stand without values. -/
structure RedisObj.IsPlainSet (o : RedisObj ε) : Prop extends IsSet o where
  value : ∀ x ∈ o.fields, o.value x = .null

theorem RedisObj.IsPlainSet.entry_eq_none (h : o.IsPlainSet) (x : Sds) : o.entry x = none := by
  rw [entry, get]
  split_ifs with hx
  · rw [h.value x hx]
  · rfl

theorem isPlainSet_create (integers : Bool) :
    (if integers then .createIntsetObject else .createSetObject : RedisObj ε).IsPlainSet := by
  have hnone : ∀ x, x ∉ SetObj.empty := SetObj.notMem_empty
  cases integers
  · exact ⟨⟨rfl, .inl rfl⟩, fun x hx => absurd hx (hnone x)⟩
  · exact ⟨⟨rfl, .inr ⟨rfl, fun x hx => absurd hx (hnone x)⟩⟩, fun x hx => absurd hx (hnone x)⟩

/-- An update of a set does what it does to its members, and gives nothing a value. -/
theorem RedisObj.IsSet.onObj (h : o.IsSet) (lim : EncodingLimits) (u : SetUpdate) :
    ∃ o', u.onObj lim o = some o' ∧ o'.IsSet ∧ o'.fields = u.onSet o.fields ∧
      ∀ x ∈ o'.fields, o'.value x = .null ∨ x ∈ o.fields ∧ o'.value x = o.value x := by
  have hsame : ∀ x ∈ o.fields, o.value x = .null ∨ x ∈ o.fields ∧ o.value x = o.value x :=
    fun x hx => .inr ⟨hx, rfl⟩
  have hput : ∀ x, ∀ y ∈ (o.put x .null).fields,
      (o.put x .null).value y = .null ∨ y ∈ o.fields ∧ (o.put x .null).value y = o.value y := by
    intro x y hy
    by_cases hyx : y = x
    · subst hyx
      exact .inl (Function.update_self ..)
    · exact .inr ⟨(mem_setTypeAdd.mp hy).resolve_left hyx, Function.update_of_ne hyx ..⟩
  have hdel : ∀ x, ∀ y ∈ (o.del x).fields,
      (o.del x).value y = .null ∨ y ∈ o.fields ∧ (o.del x).value y = o.value y :=
    fun x y hy => .inr ⟨(mem_setTypeRemove.mp hy).2, rfl⟩
  cases u with
  | create integers => exact ⟨o, rfl, h, rfl, hsame⟩
  | add x =>
    have hmem : x ∈ o.fields → RemoveWin.setTypeAdd o.fields x = o.fields := fun hx => dif_pos hx
    simp only [SetUpdate.onObj, SetUpdate.onSet, setTypeAdd]
    rcases h.encoding with henc | ⟨henc, hint⟩
    · simp only [henc]
      by_cases hx : x ∈ o.fields
      · simp only [if_pos hx]
        exact ⟨o, rfl, h, (hmem hx).symm, hsame⟩
      · simp only [if_neg hx]
        exact ⟨o.put x .null, rfl, ⟨h.type, .inl henc⟩, rfl, hput x⟩
    · simp only [henc]
      by_cases hxi : isInteger x = true
      · simp only [if_pos hxi]
        by_cases hx : x ∈ o.fields
        · simp only [if_pos hx]
          exact ⟨o, rfl, h, (hmem hx).symm, hsame⟩
        · simp only [if_neg hx]
          split_ifs
          · exact ⟨(o.put x .null).convert .ht, rfl, ⟨h.type, .inl rfl⟩, rfl, hput x⟩
          · refine ⟨o.put x .null, rfl, ⟨h.type, .inr ⟨henc, fun y hy => ?_⟩⟩, rfl, hput x⟩
            rcases mem_setTypeAdd.mp hy with rfl | hy
            · exact hxi
            · exact hint y hy
      · simp only [if_neg hxi]
        exact ⟨(o.convert .ht).put x .null, rfl, ⟨h.type, .inl rfl⟩, rfl, hput x⟩
  | remove x =>
    simp only [SetUpdate.onObj, SetUpdate.onSet, setTypeRemove]
    rcases h.encoding with henc | ⟨henc, hint⟩
    · simp only [henc]
      exact ⟨o.del x, rfl, ⟨h.type, .inl henc⟩, rfl, hdel x⟩
    · simp only [henc]
      by_cases hxi : isInteger x = true
      · simp only [if_pos hxi]
        refine ⟨o.del x, rfl, ⟨h.type, .inr ⟨henc, fun y hy => ?_⟩⟩, rfl, hdel x⟩
        exact hint y (mem_setTypeRemove.mp hy).2
      · simp only [if_neg hxi]
        refine ⟨o, rfl, h, SetObj.ext (Eq.symm ?_), hsame⟩
        -- an array of integers has no other members
        refine List.filter_eq_self.mpr fun y hy => ?_
        have hyx : y ≠ x := fun heq => hxi (heq ▸ hint y hy)
        simpa using hyx

theorem updateSet_spec (lim : EncodingLimits) (peek : Sds → Bool) {o : Option (RedisObj ε)}
    (h : ∀ o' ∈ o, o'.IsSet) (k : Sds) (u : SetUpdate) :
    ∃ o', updateSet lim peek k u o = some o' ∧ o'.IsSet ∧
      some o'.asRObj = Updates.apply u (o.map RedisObj.asRObj) ∧
      ((∀ o' ∈ o, o'.IsPlainSet) → o'.IsPlainSet) := by
  cases o with
  | none =>
    have hfresh := isPlainSet_create (ε := ε) (u.integers (peek k))
    obtain ⟨o', ho', hset, hfields, hvalue⟩ := hfresh.toIsSet.onObj lim u
    refine ⟨o', ho', hset, ?_, fun _ => ⟨hset, fun x hx => ?_⟩⟩
    · have hempty : (if u.integers (peek k) then .createIntsetObject else .createSetObject :
          RedisObj ε).fields = .empty := by split_ifs <;> rfl
      rw [RedisObj.asRObj, if_pos hset.type, hfields, hempty]
      rfl
    · rcases hvalue x hx with hnull | ⟨hmem, heq⟩
      · exact hnull
      · rw [heq]
        exact hfresh.value x hmem
  | some o₀ =>
    obtain ⟨o', ho', hset, hfields, hvalue⟩ := (h o₀ rfl).onObj lim u
    refine ⟨o', ho', hset, ?_, fun hplain => ⟨hset, fun x hx => ?_⟩⟩
    · simp only [RedisObj.asRObj, if_pos hset.type, hfields, Option.map_some,
        if_pos (h o₀ rfl).type]
      rfl
    · rcases hvalue x hx with hnull | ⟨hmem, heq⟩
      · exact hnull
      · rw [heq]
        exact (hplain o₀ rfl).value x hmem

theorem updateSet_keeps (lim : EncodingLimits) (peek : Sds → Bool) :
    Keeps RedisObj.asRObj (updateSet lim peek) (RedisObj.IsSet (ε := ε)) := by
  intro k u o h
  obtain ⟨o', hupdate, hset, hview, -⟩ := updateSet_spec lim peek h k u
  exact ⟨o', hupdate, hset, hview⟩

theorem updateSet_keeps_plain (lim : EncodingLimits) (peek : Sds → Bool) :
    Keeps RedisObj.asRObj (updateSet lim peek) (RedisObj.IsPlainSet (ε := ε)) := by
  intro k u o h
  obtain ⟨o', hupdate, -, hview, hplain⟩ :=
    updateSet_spec lim peek (fun o' ho' => (h o' ho').toIsSet) k u
  exact ⟨o', hupdate, hplain h, hview⟩

end

/-! ### Sorted sets -/

section

variable {ε : Type} (lim : EncodingLimits) (read : Sds → ℚ) {o : RedisObj ε}

/-- A sorted set in one of its two encodings, with scores only. -/
structure RedisObj.IsZset (o : RedisObj ε) : Prop where
  type : o.type = .zset
  encoding : o.encoding = .ziplist ∨ o.encoding = .skiplist
  value : ∀ x ∈ o.fields, ∃ q, o.value x = .score q

namespace RedisObj

theorem IsZset.entry_eq_none (h : o.IsZset) (x : Sds) : o.entry x = none := by
  rw [entry, get]
  split_ifs with hx
  · obtain ⟨q, hq⟩ := h.value x hx
    rw [hq]
  · rfl

/-- The scores of the members. -/
def scores (read : Sds → ℚ) (o : RedisObj ε) : Zset := fun x =>
  if x ∈ o.fields then some (o.score read x) else none

theorem IsZset.asZObj_eq (h : o.IsZset) : o.asZObj read = .zset (o.scores read) := by
  simp only [asZObj, if_pos h.type, h.encoding, and_true]
  rfl

theorem scores_put (q : ℚ) (x : Sds) :
    (o.put x (.score q)).scores read = RemoveWin.zsetAdd (o.scores read) q x := by
  funext y
  by_cases hy : y = x
  · subst hy
    simp [scores, put, score, RemoveWin.zsetAdd]
  · simp [scores, put, score, RemoveWin.zsetAdd, hy]

theorem scores_del (x : Sds) : (o.del x).scores read = RemoveWin.zsetDel (o.scores read) x := by
  funext y
  by_cases hy : y = x
  · subst hy
    simp [scores, del, RemoveWin.zsetDel]
  · simp [scores, del, score, RemoveWin.zsetDel, hy]

theorem scores_toSkiplist : (o.toSkiplist read).scores read = o.scores read := rfl

theorem IsZset.put (h : o.IsZset) (q : ℚ) (x : Sds) : (o.put x (.score q)).IsZset := by
  refine ⟨h.type, h.encoding, fun y hy => ?_⟩
  by_cases hyx : y = x
  · subst hyx
    exact ⟨q, Function.update_self ..⟩
  · obtain ⟨q', hq'⟩ := h.value y ((mem_setTypeAdd.mp hy).resolve_left hyx)
    exact ⟨q', (Function.update_of_ne hyx ..).trans hq'⟩

theorem IsZset.del (h : o.IsZset) (x : Sds) : (o.del x).IsZset :=
  ⟨h.type, h.encoding, fun y hy => h.value y (mem_setTypeRemove.mp hy).2⟩

theorem IsZset.toSkiplist (h : o.IsZset) : (o.toSkiplist read).IsZset :=
  ⟨h.type, .inr rfl, fun x _ => ⟨o.score read x, rfl⟩⟩

/-- An update of a sorted set does what it does to the scores. -/
theorem IsZset.onObj (h : o.IsZset) (u : ZsetUpdate) :
    ∃ o', u.onObj lim read o = some o' ∧ o'.IsZset ∧ o'.scores read = u.onZset (o.scores read) := by
  cases u with
  | add q x =>
    have hput := h.put q x
    simp only [ZsetUpdate.onObj, ZsetUpdate.onZset, zsetAdd, ← scores_put]
    rcases h.encoding with henc | henc
    · simp only [henc]
      by_cases hx : x ∈ o.fields
      · simp only [if_pos hx]
        split_ifs with hq
        · refine ⟨o, rfl, h, ?_⟩
          -- the score is the one the member has
          rw [scores_put]
          funext y
          by_cases hy : y = x
          · subst hy
            simp [scores, hx, hq, RemoveWin.zsetAdd]
          · simp [RemoveWin.zsetAdd, hy]
        · exact ⟨_, rfl, hput, rfl⟩
      · simp only [if_neg hx]
        split_ifs
        · exact ⟨_, rfl, hput.toSkiplist read, scores_toSkiplist read⟩
        · exact ⟨_, rfl, hput, rfl⟩
    · simp only [henc]
      exact ⟨_, rfl, hput, rfl⟩
  | del x =>
    simp only [ZsetUpdate.onObj, ZsetUpdate.onZset, zsetDel, ← scores_del]
    rcases h.encoding with henc | henc
    · simp only [henc]
      exact ⟨_, rfl, h.del x, rfl⟩
    · simp only [henc]
      exact ⟨_, rfl, h.del x, rfl⟩

end RedisObj

theorem updateZset_keeps :
    Keeps (RedisObj.asZObj read) (fun _ => updateZset lim read) (RedisObj.IsZset (ε := ε)) := by
  intro _ u o h
  cases o with
  | none =>
    have hfresh : ∀ enc : Encoding, enc = .ziplist ∨ enc = .skiplist →
        (RedisObj.create .zset enc : RedisObj ε).IsZset := fun enc henc =>
      ⟨rfl, henc, fun x hx => absurd hx (SetObj.notMem_empty x)⟩
    have henc : (if lim.zsetMaxZiplistEntries = 0 ∨ lim.zsetMaxZiplistValue < u.element.length then
        Encoding.skiplist else .ziplist) = .ziplist ∨
        (if lim.zsetMaxZiplistEntries = 0 ∨ lim.zsetMaxZiplistValue < u.element.length then
          Encoding.skiplist else .ziplist) = .skiplist := by
      split_ifs <;> simp
    obtain ⟨o', ho', hz, hscores⟩ := (hfresh _ henc).onObj lim read u
    refine ⟨o', ho', hz, ?_⟩
    rw [hz.asZObj_eq, hscores]
    rfl
  | some o₀ =>
    obtain ⟨o', ho', hz, hscores⟩ := (h o₀ rfl).onObj lim read u
    refine ⟨o', ho', hz, ?_⟩
    rw [hz.asZObj_eq, hscores, Option.map_some, (h o₀ rfl).asZObj_eq]
    rfl

end

end RemoveWin
