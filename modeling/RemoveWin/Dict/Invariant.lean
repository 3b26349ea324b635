import RemoveWin.Lib.Chains
import RemoveWin.Dict.Model
import Mathlib.Data.Nat.Bitwise

/-!
# The invariant of a dictionary

A table has a power of two of slots, counts its entries and has each of them in the chain of its
key. A dictionary has no key twice, whatever table it is in. While a rehash is under way, both
tables are there and the chains before `rehashidx` are empty; otherwise there is only the first.

What the functions on a dictionary do is said once for each of them, in terms of what is held, up to
order: a lookup finds the entry with a key if there is one, and a rehash moves entries and loses
none. None of them reads a chain that is not there.

## Main results

* `RemoveWin.Dict.WF.dictRehash` — a rehash keeps the invariant and goes forward
* `RemoveWin.Dict.dictExpand_spec`, `Resized.kept` — a change of size
* `RemoveWin.Dict.WF.locate` — a lookup
-/

namespace RemoveWin

open scoped List

variable {κ ν : Type} {hash : κ → BitVec 64}

namespace Table

/-- What a table holds. -/
def entries (t : Table κ ν) : List (κ × ν) :=
  t.table.flatten

/-- The invariant of a table. -/
structure WF (hash : κ → BitVec 64) (t : Table κ ν) : Prop where
  /-- The number of slots is a power of two, unless there is no table. -/
  size : t.table = [] ∨ ∃ k ≤ 60, t.size = 2 ^ k
  used : t.used = t.entries.length
  placed : Chains.Placed (fun e => t.slot (hash e.1)) t.table

theorem slot_eq {t : Table κ ν} {k : ℕ} (hk : k ≤ 60) (hsize : t.size = 2 ^ k) (h : BitVec 64) :
    t.slot h = h.toNat % 2 ^ k := by
  have hlt : 2 ^ k - 1 < 2 ^ 64 :=
    lt_of_lt_of_le (Nat.sub_lt (Nat.two_pow_pos k) Nat.one_pos)
      (Nat.pow_le_pow_right Nat.two_pos (by omega))
  rw [slot, sizemask, hsize, BitVec.toNat_and, BitVec.toNat_ofNat, Nat.mod_eq_of_lt hlt,
    Nat.and_two_pow_sub_one_eq_mod]

theorem slot_congr {t t' : Table κ ν} (hsize : t'.size = t.size) (h : BitVec 64) :
    t'.slot h = t.slot h := by
  rw [slot, slot, sizemask, sizemask, hsize]

theorem ne_nil_of_size {t t' : Table κ ν} (hsize : t'.size = t.size) (hne : t.table ≠ []) :
    t'.table ≠ [] := by
  have hpos : 0 < t.size := List.length_pos_iff.mpr hne
  rw [← hsize] at hpos
  exact List.length_pos_iff.mp hpos

@[simp] theorem size_set (t : Table κ ν) (i : ℕ) (c : List (κ × ν)) (u : ℕ) :
    (⟨t.table.set i c, u⟩ : Table κ ν).size = t.size := by
  simp [size]

theorem wf_empty : (({} : Table κ ν)).WF hash :=
  ⟨.inl rfl, rfl, by intro i c hc; simp at hc⟩

theorem wf_replicate {k : ℕ} (hk : k ≤ 60) :
    (⟨List.replicate (2 ^ k) [], 0⟩ : Table κ ν).WF hash :=
  ⟨.inr ⟨k, hk, by simp [Table.size]⟩, by simp [entries], Chains.placed_replicate_nil _ _⟩

namespace WF

variable {t : Table κ ν}

theorem slot_lt (h : t.WF hash) (hne : t.table ≠ []) (x : BitVec 64) : t.slot x < t.size := by
  obtain ⟨k, hk, hsize⟩ := h.size.resolve_left hne
  rw [slot_eq hk hsize, hsize]
  exact Nat.mod_lt _ (Nat.two_pow_pos k)

theorem exists_chain (h : t.WF hash) (hne : t.table ≠ []) (x : BitVec 64) :
    ∃ c, t.chain x = some c :=
  ⟨_, List.getElem?_eq_getElem (h.slot_lt hne x)⟩

theorem eq_empty (h : t.WF hash) (hnil : t.table = []) : t = {} := by
  obtain ⟨table, used⟩ := t
  obtain rfl : table = [] := hnil
  have : used = 0 := h.used
  rw [this]

theorem entries_eq_nil (h : t.WF hash) (hused : t.used = 0) : t.entries = [] :=
  List.length_eq_zero_iff.mp (h.used ▸ hused)

theorem set (h : t.WF hash) {i : ℕ} {c c' : List (κ × ν)} (hc : t.table[i]? = some c)
    (hc' : ∀ e ∈ c', t.slot (hash e.1) = i) {u : ℕ} (hu : u + c.length = t.used + c'.length) :
    (⟨t.table.set i c', u⟩ : Table κ ν).WF hash ∧
      c ++ (⟨t.table.set i c', u⟩ : Table κ ν).entries ~ c' ++ t.entries := by
  have hperm : c ++ (t.table.set i c').flatten ~ c' ++ t.table.flatten :=
    Chains.flatten_set_perm hc c'
  refine ⟨⟨?_, ?_, ?_⟩, hperm⟩
  · rcases h.size with hnil | hsize
    · simp [hnil] at hc
    · exact .inr (by simpa using hsize)
  · have hlen := hperm.length_eq
    rw [List.length_append, List.length_append] at hlen
    have hused := h.used
    simp only [entries] at hused ⊢
    omega
  · have hslot : ∀ x, (⟨t.table.set i c', u⟩ : Table κ ν).slot x = t.slot x :=
      slot_congr (size_set t i c' u)
    simp only [hslot]
    exact h.placed.set hc'

theorem slot_of_mem (h : t.WF hash) {i : ℕ} {c : List (κ × ν)} (hc : t.table[i]? = some c)
    {e : κ × ν} (he : e ∈ c) : t.slot (hash e.1) = i :=
  h.placed i c hc e he

theorem push (h : t.WF hash) (hne : t.table ≠ []) (e : κ × ν) :
    ∃ t', t.push (t.slot (hash e.1)) e = some t' ∧ t'.WF hash ∧ t'.size = t.size ∧
      t'.entries ~ e :: t.entries := by
  obtain ⟨c, hc⟩ := h.exists_chain hne (hash e.1)
  have hin : ∀ x ∈ e :: c, t.slot (hash x.1) = t.slot (hash e.1) := by
    intro x hx
    rcases List.mem_cons.mp hx with rfl | hx
    · rfl
    · exact h.slot_of_mem hc hx
  obtain ⟨hwf, hperm⟩ := h.set (u := t.used + 1) hc hin (by simp; omega)
  refine ⟨_, ?_, hwf, size_set _ _ _ _, ?_⟩
  · rw [Table.push, show t.table[t.slot (hash e.1)]? = some c from hc]
  · refine (List.perm_append_left_iff c).mp (hperm.trans ?_)
    exact List.perm_middle.symm

section Entry

variable [DecidableEq κ] {key : κ} {c : List (κ × ν)}

theorem not_mem_of_findEntry (h : t.WF hash) (hc : t.chain (hash key) = some c)
    (hnone : findEntry key c = none) : ∀ e ∈ t.entries, e.1 ≠ key := by
  rintro e he rfl
  have hin : e ∈ c := (h.placed.mem_chain (x := e) hc).mpr he
  have := List.find?_eq_none.mp hnone e hin
  simp at this

theorem mem_of_findEntry (hc : t.chain (hash key) = some c) {e : κ × ν}
    (he : findEntry key c = some e) : e ∈ t.entries ∧ e.1 = key := by
  refine ⟨List.mem_flatten.mpr ⟨c, List.mem_of_getElem? hc, List.mem_of_find?_eq_some he⟩, ?_⟩
  simpa using List.find?_some he

theorem getElem?_set_eq_nil (hc : t.chain (hash key) = some c) {e : κ × ν}
    (he : findEntry key c = some e) (c' : List (κ × ν)) {j : ℕ} (hj : t.table[j]? = some []) :
    (t.table.set (t.slot (hash key)) c')[j]? = some [] := by
  by_cases hat : t.slot (hash key) = j
  · rw [Table.chain, hat, hj] at hc
    cases hc
    cases he
  · rw [List.getElem?_set_ne hat]
    exact hj

theorem unlinkFrom (h : t.WF hash) (hc : t.chain (hash key) = some c) {e : κ × ν}
    (he : findEntry key c = some e) :
    ∃ t', Dict.unlinkFrom hash t key = some t' ∧ t'.WF hash ∧ t'.size = t.size ∧
      (∀ j : ℕ, t.table[j]? = some [] → t'.table[j]? = some []) ∧ t.entries ~ e :: t'.entries := by
  have hperm : c ~ e :: unlinkEntry key c := Chains.perm_of_find? he
  have hlen := hperm.length_eq
  rw [List.length_cons] at hlen
  have hpos : c.length ≤ t.used := by
    rw [h.used]
    exact (List.sublist_flatten_of_mem (List.mem_of_getElem? hc)).length_le
  obtain ⟨hwf, hset⟩ := h.set (u := t.used - 1) hc
    (fun x (hx : x ∈ unlinkEntry key c) => h.slot_of_mem hc (List.mem_of_mem_eraseP hx)) (by omega)
  refine ⟨_, ?_, hwf, size_set _ _ _ _, fun j => getElem?_set_eq_nil hc he _, ?_⟩
  · rw [Dict.unlinkFrom, hc]
    rfl
  · refine (List.perm_append_left_iff (unlinkEntry key c)).mp ?_
    refine hset.symm.trans ((hperm.append_right _).trans ?_)
    exact List.perm_middle.symm

theorem setEntry_perm (val : ν) {e : κ × ν} (he : findEntry key c = some e) :
    setEntry key val c ~ (e.1, val) :: unlinkEntry key c := by
  induction c with
  | nil => simp [findEntry] at he
  | cons x c ih =>
    by_cases hx : x.1 = key
    · obtain rfl : x = e := by simpa [findEntry, List.find?_cons, hx] using he
      simp [setEntry, unlinkEntry, hx]
    · have hrest : findEntry key c = some e := by simpa [findEntry, List.find?_cons, hx] using he
      rw [setEntry, if_neg hx, unlinkEntry, List.eraseP_cons_of_neg (by simpa using hx)]
      exact ((ih hrest).cons x).trans (List.Perm.swap _ _ _)

theorem setChain (h : t.WF hash) (hc : t.chain (hash key) = some c) (val : ν) {e : κ × ν}
    (he : findEntry key c = some e) :
    (t.setChain (hash key) (setEntry key val c)).WF hash ∧
      (t.setChain (hash key) (setEntry key val c)).size = t.size ∧
      (∀ j : ℕ, t.table[j]? = some [] →
        (t.setChain (hash key) (setEntry key val c)).table[j]? = some []) ∧
      ∃ rest, t.entries ~ e :: rest ∧
        (t.setChain (hash key) (setEntry key val c)).entries ~ (e.1, val) :: rest := by
  obtain ⟨t', -, -, -, -, hrest⟩ := h.unlinkFrom hc he
  have hperm : c ~ e :: unlinkEntry key c := Chains.perm_of_find? he
  have hsetperm := setEntry_perm val he
  have hin : ∀ x ∈ setEntry key val c, t.slot (hash x.1) = t.slot (hash key) := by
    intro x hx
    rcases List.mem_cons.mp (hsetperm.subset hx) with rfl | hx
    · rw [(mem_of_findEntry hc he).2]
    · exact h.slot_of_mem hc (List.mem_of_mem_eraseP hx)
  obtain ⟨hwf, hset⟩ := h.set (u := t.used) hc hin (by
    rw [hsetperm.length_eq, hperm.length_eq, List.length_cons, List.length_cons])
  refine ⟨hwf, size_set _ _ _ _, fun j => getElem?_set_eq_nil hc he _, t'.entries, hrest, ?_⟩
  refine (List.perm_append_left_iff (e :: unlinkEntry key c)).mp ?_
  calc e :: unlinkEntry key c ++ (t.setChain (hash key) (setEntry key val c)).entries
      ~ c ++ (t.setChain (hash key) (setEntry key val c)).entries := (hperm.append_right _).symm
    _ ~ setEntry key val c ++ t.entries := hset
    _ ~ ((e.1, val) :: unlinkEntry key c) ++ (e :: t'.entries) := hsetperm.append hrest
    _ ~ e :: ((e.1, val) :: unlinkEntry key c ++ t'.entries) := List.perm_middle
    _ ~ e :: (unlinkEntry key c ++ (e.1, val) :: t'.entries) := List.perm_middle.symm.cons e

end Entry

end WF

end Table

namespace Dict

/-- What a dictionary holds. -/
def entries (d : Dict κ ν) : List (κ × ν) :=
  d.ht0.entries ++ d.ht1.entries

/-- The invariant of a dictionary. -/
structure WF (hash : κ → BitVec 64) (d : Dict κ ν) : Prop where
  ht0 : d.ht0.WF hash
  ht1 : d.ht1.WF hash
  /-- No key is there twice. -/
  keys : (d.entries.map Prod.fst).Nodup
  idle : d.rehashidx = none → d.ht1.table = []
  both : d.rehashidx ≠ none → d.ht0.table ≠ [] ∧ d.ht1.table ≠ []
  /-- and the chains before `rehashidx` have been moved. -/
  moved : ∀ idx, d.rehashidx = some idx → idx ≤ d.ht0.size ∧
    ∀ j < idx, d.ht0.table[j]? = some []

theorem wf_dictCreate : (dictCreate : Dict κ ν).WF hash where
  ht0 := Table.wf_empty
  ht1 := Table.wf_empty
  keys := List.nodup_nil
  idle := fun _ => rfl
  both := fun h => absurd rfl h
  moved := fun _ h => by simp [dictCreate] at h

theorem dictIsRehashing_iff (d : Dict κ ν) : d.dictIsRehashing = true ↔ d.rehashidx ≠ none := by
  rw [dictIsRehashing, Option.isSome_iff_ne_none]

theorem WF.entries_of_idle {d : Dict κ ν} (h : d.WF hash) (hidle : d.rehashidx = none) :
    d.entries = d.ht0.entries := by
  rw [entries, show d.ht1.entries = [] by rw [Table.entries, h.idle hidle]; rfl, List.append_nil]

theorem WF.dictSize {d : Dict κ ν} (h : d.WF hash) : d.dictSize = d.entries.length := by
  rw [Dict.dictSize, entries, List.length_append, h.ht0.used, h.ht1.used]

theorem WF.setIterators {d : Dict κ ν} (h : d.WF hash) (n : ℕ) :
    ({ d with iterators := n } : Dict κ ν).WF hash :=
  ⟨h.ht0, h.ht1, h.keys, h.idle, h.both, h.moved⟩

theorem entries_setIterators (d : Dict κ ν) (n : ℕ) :
    ({ d with iterators := n } : Dict κ ν).entries = d.entries :=
  rfl

theorem WF.setHt0 {d : Dict κ ν} (h : d.WF hash) {t : Table κ ν} (ht : t.WF hash)
    (hsize : t.size = d.ht0.size)
    (hnil : ∀ j : ℕ, d.ht0.table[j]? = some [] → t.table[j]? = some [])
    (hkeys : ((t.entries ++ d.ht1.entries).map Prod.fst).Nodup) :
    ({ d with ht0 := t } : Dict κ ν).WF hash where
  ht0 := ht
  ht1 := h.ht1
  keys := hkeys
  idle := h.idle
  both := fun hne => ⟨Table.ne_nil_of_size hsize (h.both hne).1, (h.both hne).2⟩
  moved := fun idx hidx =>
    ⟨(h.moved idx hidx).1.trans hsize.ge, fun j hj => hnil j ((h.moved idx hidx).2 j hj)⟩

theorem WF.setHt1 {d : Dict κ ν} (h : d.WF hash) {t : Table κ ν} (ht : t.WF hash)
    (hsize : t.size = d.ht1.size) (hidx : d.rehashidx ≠ none)
    (hkeys : ((d.ht0.entries ++ t.entries).map Prod.fst).Nodup) :
    ({ d with ht1 := t } : Dict κ ν).WF hash where
  ht0 := h.ht0
  ht1 := ht
  keys := hkeys
  idle := fun hnone => absurd hnone hidx
  both := fun hne => ⟨(h.both hne).1, Table.ne_nil_of_size hsize (h.both hne).2⟩
  moved := h.moved

/-! ### Rehashing -/

/-- What a rehash does: it moves entries, it goes forward, and in the end the second table is the
only one. -/
structure Moved (hash : κ → BitVec 64) (d d' : Dict κ ν) : Prop where
  wf : d'.WF hash
  perm : d'.entries ~ d.entries
  iterators : d'.iterators = d.iterators
  sizes : (d'.rehashidx = none ∧ d'.ht0.size = d.ht1.size) ∨
    (d'.rehashidx ≠ none ∧ d'.ht0.size = d.ht0.size ∧ d'.ht1.size = d.ht1.size)

theorem moveChain_spec : ∀ (de : List (κ × ν)) (used : ℕ) {t : Table κ ν}, t.WF hash →
    t.table ≠ [] → ∃ t', moveChain hash de used t = some (used - de.length, t') ∧ t'.WF hash ∧
      t'.size = t.size ∧ t'.entries ~ de ++ t.entries
  | [], used, t, h, _ => ⟨t, rfl, h, rfl, .refl _⟩
  | e :: de, used, t, h, hne => by
    obtain ⟨t₁, hpush, hwf₁, hsize₁, hperm₁⟩ := h.push hne e
    obtain ⟨t₂, hmove, hwf₂, hsize₂, hperm₂⟩ :=
      moveChain_spec de (used - 1) hwf₁ (Table.ne_nil_of_size hsize₁ hne)
    refine ⟨t₂, ?_, hwf₂, hsize₂.trans hsize₁, ?_⟩
    · rw [moveChain, hpush]
      simp only [hmove, List.length_cons]
      congr 2
      omega
    · calc t₂.entries ~ de ++ t₁.entries := hperm₂
        _ ~ de ++ e :: t.entries := hperm₁.append_left de
        _ ~ e :: (de ++ t.entries) := List.perm_middle

/-- The loop over empty chains stays in the table if there is a chain to be found. It stops in front
of a chain, or gives up. -/
theorem skipEmpty_spec {row : List (List (κ × ν))} {j : ℕ} {e : κ × ν} {c : List (κ × ν)}
    (hj : row[j]? = some (e :: c)) : ∀ (visits : ℕ) {idx : ℕ}, idx ≤ j →
    ∃ idx' visits', skipEmpty row visits idx = some (idx', visits') ∧ idx ≤ idx' ∧ idx' ≤ j ∧
      (∀ i, idx ≤ i → i < idx' → row[i]? = some []) ∧
      (visits' = 0 → idx' = idx + visits) ∧
      (visits' ≠ 0 → ∃ x c, row[idx']? = some (x :: c))
  | 0, idx, hidx =>
    ⟨idx, 0, rfl, le_rfl, hidx, fun i h₁ h₂ => absurd h₂ (by omega), fun _ => rfl,
      fun h => absurd rfl h⟩
  | visits + 1, idx, hidx => by
    have hlen : idx < row.length := by
      have := (List.getElem?_eq_some_iff.mp hj).1
      omega
    rcases hat : row[idx]? with _ | (_ | ⟨x, xs⟩)
    · rw [List.getElem?_eq_none_iff] at hat
      omega
    · have hne : idx ≠ j := by
        rintro rfl
        rw [hat] at hj
        simp at hj
      obtain ⟨idx', visits', hskip, hle, hle', hempty, hgave, hstop⟩ :=
        skipEmpty_spec hj visits (show idx + 1 ≤ j by omega)
      refine ⟨idx', visits', by rw [skipEmpty, hat]; exact hskip, by omega, hle', ?_,
        fun h => by have := hgave h; omega, hstop⟩
      intro i hi hi'
      rcases Nat.lt_or_eq_of_le hi with hlt | rfl
      · exact hempty i hlt hi'
      · exact hat
    · exact ⟨idx, visits + 1, by rw [skipEmpty, hat], le_rfl, hidx,
        fun i h₁ h₂ => absurd h₂ (by omega), fun h => absurd h (by omega), fun _ => ⟨x, xs, hat⟩⟩

namespace WF

variable {d : Dict κ ν}

theorem exists_chain (h : d.WF hash) {idx : ℕ} (hidx : d.rehashidx = some idx)
    (hused : d.ht0.used ≠ 0) : ∃ j e c, d.ht0.table[j]? = some (e :: c) ∧ idx ≤ j := by
  have hne : d.ht0.entries ≠ [] := by
    intro hnil
    rw [h.ht0.used, hnil] at hused
    exact hused rfl
  obtain ⟨x, hx⟩ := List.exists_mem_of_ne_nil _ hne
  obtain ⟨c, hc, hxc⟩ := List.mem_flatten.mp hx
  obtain ⟨j, hj⟩ := List.getElem?_of_mem hc
  cases c with
  | nil => simp at hxc
  | cons e c =>
    refine ⟨j, e, c, hj, ?_⟩
    by_contra hlt
    have := (h.moved idx hidx).2 j (by omega)
    rw [hj] at this
    simp at this

theorem rehashDone (h : d.WF hash) (hidx : d.rehashidx ≠ none) :
    d.Moved hash d.rehashDone.1 ∧ (d.rehashDone.1.rehashidx = none ∨
      d.rehashDone.1.rehashidx = d.rehashidx ∧ d.rehashDone.1.ht0.used ≠ 0) := by
  rw [Dict.rehashDone]
  split_ifs with hused
  · refine ⟨⟨⟨h.ht1, Table.wf_empty, ?_, fun _ => rfl, fun hne => absurd rfl hne,
      fun _ hsome => by simp at hsome⟩, ?_, rfl, .inl ⟨rfl, rfl⟩⟩, .inl rfl⟩
    · have := h.keys
      rw [entries, h.ht0.entries_eq_nil hused, List.nil_append] at this
      simpa [entries, Table.entries] using this
    · rw [entries, entries, h.ht0.entries_eq_nil hused, List.nil_append]
      exact .of_eq (List.append_nil _)
  · exact ⟨⟨h, .refl _, rfl, .inr ⟨hidx, rfl, rfl⟩⟩, .inr ⟨rfl, hused⟩⟩

theorem skipped (h : d.WF hash) {idx idx' : ℕ} (hidx : d.rehashidx = some idx)
    (hle : idx' ≤ d.ht0.size)
    (hempty : ∀ i, idx ≤ i → i < idx' → d.ht0.table[i]? = some []) :
    ({ d with rehashidx := some idx' } : Dict κ ν).WF hash where
  ht0 := h.ht0
  ht1 := h.ht1
  keys := h.keys
  idle := fun hnone => by simp at hnone
  both := fun _ => h.both (by simp [hidx])
  moved := fun i hi => by
    obtain rfl : idx' = i := Option.some.inj hi
    refine ⟨hle, fun j hj => ?_⟩
    rcases Nat.lt_or_ge j idx with hlt | hge
    · exact (h.moved idx hidx).2 j hlt
    · exact hempty j hge hj

theorem moveOne (h : d.WF hash) {idx : ℕ} (hidx : d.rehashidx = some idx) {c : List (κ × ν)}
    (hc : d.ht0.table[idx]? = some c) :
    ∃ ht1, moveChain hash c d.ht0.used d.ht1 = some (d.ht0.used - c.length, ht1) ∧
      d.Moved hash
        { d with ht0 := ⟨d.ht0.table.set idx [], d.ht0.used - c.length⟩, ht1 := ht1,
                 rehashidx := some (idx + 1) } := by
  have hboth := h.both (by simp [hidx])
  obtain ⟨ht1, hmove, hwf₁, hsize₁, hperm₁⟩ := moveChain_spec c d.ht0.used h.ht1 hboth.2
  have hlen : c.length ≤ d.ht0.used := by
    rw [h.ht0.used]
    exact (List.sublist_flatten_of_mem (List.mem_of_getElem? hc)).length_le
  obtain ⟨hwf₀, hperm₀⟩ := h.ht0.set (u := d.ht0.used - c.length) hc
    (fun e (he : e ∈ []) => absurd he List.not_mem_nil) (by simp; omega)
  rw [List.nil_append] at hperm₀
  have hsize₀ := Table.size_set d.ht0 idx [] (d.ht0.used - c.length)
  have hperm : (⟨d.ht0.table.set idx [], d.ht0.used - c.length⟩ : Table κ ν).entries ++
      ht1.entries ~ d.entries := by
    refine (hperm₁.append_left _).trans ?_
    refine (List.perm_append_comm_assoc _ _ _).trans ?_
    rw [← List.append_assoc]
    exact hperm₀.append_right _
  have hidxlt : idx < d.ht0.size := (List.getElem?_eq_some_iff.mp hc).1
  refine ⟨ht1, hmove, ⟨⟨hwf₀, hwf₁, ?_, fun hnone => by simp at hnone, fun _ => ⟨?_, ?_⟩, ?_⟩,
    hperm, rfl, .inr ⟨by simp, hsize₀, hsize₁⟩⟩⟩
  · exact (hperm.map Prod.fst).nodup_iff.mpr h.keys
  · exact Table.ne_nil_of_size hsize₀ hboth.1
  · exact Table.ne_nil_of_size hsize₁ hboth.2
  · intro i hi
    obtain rfl : idx + 1 = i := Option.some.inj hi
    refine ⟨by rw [hsize₀]; omega, fun j hj => ?_⟩
    rw [List.getElem?_set]
    split_ifs with hij hlt
    · rfl
    · exact absurd hidxlt (hij ▸ hlt)
    · exact (h.moved idx hidx).2 j (by omega)

end WF

theorem Moved.trans {d d₁ d₂ : Dict κ ν} (h₁ : d.Moved hash d₁) (hidx : d₁.rehashidx ≠ none)
    (h₂ : d₁.Moved hash d₂) : d.Moved hash d₂ := by
  rcases h₁.sizes with ⟨hnone, -⟩ | ⟨-, hsize₀, hsize₁⟩
  · exact absurd hnone hidx
  · refine ⟨h₂.wf, h₂.perm.trans h₁.perm, h₂.iterators.trans h₁.iterators, ?_⟩
    rcases h₂.sizes with ⟨hnone, hsize⟩ | ⟨hsome, hsize₀', hsize₁'⟩
    · exact .inl ⟨hnone, hsize.trans hsize₁⟩
    · exact .inr ⟨hsome, hsize₀'.trans hsize₀, hsize₁'.trans hsize₁⟩

/-- The loop of a rehash neither crashes nor loses an entry. It goes forward if it is allowed to do
anything at all, and ends the rehash when nothing is left to be moved. -/
theorem rehashLoop_spec : ∀ (n : ℕ) {visits idx : ℕ} {d : Dict κ ν}, d.WF hash →
    d.rehashidx = some idx → 0 < visits →
    ∃ d' more, rehashLoop hash n visits idx d = some (d', more) ∧ d.Moved hash d' ∧
      (d'.rehashidx = none ∨ ∃ idx', d'.rehashidx = some idx' ∧ idx ≤ idx' ∧ (0 < n → idx < idx') ∧
        d'.ht0.used ≠ 0)
  | 0, visits, idx, d, h, hidx, _ => by
    obtain ⟨hmoved, hdone⟩ := h.rehashDone (by simp [hidx])
    refine ⟨_, _, rfl, hmoved, hdone.imp_right ?_⟩
    rintro ⟨hsame, hused⟩
    exact ⟨idx, hsame.trans hidx, le_rfl, fun hlt => absurd hlt (Nat.lt_irrefl 0), hused⟩
  | n + 1, visits, idx, d, h, hidx, hvisits => by
    by_cases hused : d.ht0.used = 0
    · refine ⟨d.rehashDone.1, d.rehashDone.2, by rw [rehashLoop, if_pos hused],
        (h.rehashDone (by simp [hidx])).1, .inl ?_⟩
      rw [Dict.rehashDone, if_pos hused]
    · obtain ⟨j, e, c, hj, hle⟩ := h.exists_chain hidx hused
      have hjlt : j < d.ht0.size := (List.getElem?_eq_some_iff.mp hj).1
      obtain ⟨idx', visits', hskip, hge, hle', hempty, hgave, hstop⟩ :=
        skipEmpty_spec hj visits hle
      have hskipped := h.skipped hidx (show idx' ≤ d.ht0.size by omega) hempty
      have hmoved₀ : d.Moved hash { d with rehashidx := some idx' } :=
        ⟨hskipped, .refl _, rfl, .inr ⟨by simp, rfl, rfl⟩⟩
      rcases Nat.eq_zero_or_pos visits' with rfl | hpos
      · -- it gave up, after as many empty chains as it may visit
        refine ⟨{ d with rehashidx := some idx' }, true, ?_, hmoved₀,
          .inr ⟨idx', rfl, hge, fun _ => ?_, hused⟩⟩
        · rw [rehashLoop, if_neg hused, if_neg (by omega), hskip]
        · have := hgave rfl
          omega
      · obtain ⟨x, xs, hat⟩ := hstop (by omega)
        obtain ⟨ht1, hmove, hmoved⟩ := hskipped.moveOne rfl hat
        obtain ⟨d', more, hloop, hmoved', hprog⟩ := rehashLoop_spec n hmoved.wf rfl hpos
        refine ⟨d', more, ?_, (hmoved₀.trans (by simp) hmoved).trans (by simp) hmoved',
          hprog.imp_right ?_⟩
        · obtain ⟨v, rfl⟩ : ∃ v, visits' = v + 1 := ⟨visits' - 1, by omega⟩
          have hget : d.ht0.table.getD idx' [] = x :: xs := by
            rw [List.getD_eq_getElem?_getD, hat]
            rfl
          rw [rehashLoop, if_neg hused, if_neg (by omega), hskip]
          simp only [hget, hmove]
          exact hloop
        · rintro ⟨i, hi, hlt, -, hused'⟩
          exact ⟨i, hi, by omega, fun _ => by omega, hused'⟩

/-- **A rehash** neither crashes nor loses an entry. It goes forward, and it has come to an end or
there are chains left to be moved. -/
theorem WF.dictRehash {d : Dict κ ν} (h : d.WF hash) {idx : ℕ} (hidx : d.rehashidx = some idx)
    (n : ℕ) :
    ∃ d' more, d.dictRehash hash n = some (d', more) ∧ d.Moved hash d' ∧
      (0 < n → d'.rehashidx = none ∨
        ∃ idx', d'.rehashidx = some idx' ∧ idx < idx' ∧ idx' < d'.ht0.size) := by
  rcases Nat.eq_zero_or_pos n with rfl | hn
  · refine ⟨_, _, by rw [Dict.dictRehash, hidx]; rfl, (h.rehashDone (by simp [hidx])).1, ?_⟩
    exact fun hlt => absurd hlt (Nat.lt_irrefl 0)
  · obtain ⟨d', more, hloop, hmoved, hprog⟩ :=
      rehashLoop_spec n h hidx (show 0 < n * 10 by omega)
    refine ⟨d', more, by rw [Dict.dictRehash, hidx]; exact hloop, hmoved,
      fun _ => hprog.imp_right ?_⟩
    rintro ⟨i, hi, -, hlt, hused⟩
    obtain ⟨j, e, c, hj, hle⟩ := hmoved.wf.exists_chain hi hused
    have : j < d'.ht0.size := (List.getElem?_eq_some_iff.mp hj).1
    exact ⟨i, hi, hlt hn, by omega⟩

/-! ### The change of size -/

theorem nextPowerLoop_spec {size : ℕ} : ∀ (fuel : ℕ) {j : ℕ}, size ≤ 2 ^ (j + fuel) →
    ∃ k, nextPowerLoop size fuel (2 ^ j) = 2 ^ k ∧ size ≤ 2 ^ k ∧
      (k = j ∨ 2 ^ k < 2 * size)
  | 0, j, h => ⟨j, rfl, h, .inl rfl⟩
  | fuel + 1, j, h => by
    rw [nextPowerLoop]
    split_ifs with hle
    · exact ⟨j, rfl, hle, .inl rfl⟩
    · have hmore : size ≤ 2 ^ (j + 1 + fuel) := by
        rwa [show j + 1 + fuel = j + (fuel + 1) by omega]
      obtain ⟨k, heq, hk, hor⟩ := nextPowerLoop_spec fuel hmore
      refine ⟨k, by rw [← Nat.pow_succ]; exact heq, hk, ?_⟩
      rcases hor with rfl | hlt
      · right
        rw [Nat.pow_succ]
        omega
      · exact .inr hlt

/-- `_dictNextPower` finds a power of two that is large enough. -/
theorem dictNextPower_spec {size : ℕ} (hsize : size ≤ 2 ^ 60) :
    ∃ k ≤ 60, dictNextPower size = 2 ^ k ∧ size ≤ 2 ^ k := by
  have hlt : ¬ 2 ^ 63 - 1 ≤ size := by omega
  have hpow : size ≤ 2 ^ (2 + 64) := by omega
  obtain ⟨k, heq, hk, hor⟩ := nextPowerLoop_spec 64 hpow
  refine ⟨k, ?_, by rw [dictNextPower, if_neg hlt]; exact heq, hk⟩
  rcases hor with rfl | hlt'
  · omega
  · have : 2 ^ k < 2 ^ 61 := by omega
    have := (Nat.pow_lt_pow_iff_right (a := 2) (by omega)).mp this
    omega

/-- What a change of size does: nothing, or a first table is made, or a second. -/
inductive Resized (d : Dict κ ν) (size : ℕ) : Dict κ ν → Bool → Prop
  | refused : d.rehashidx ≠ none ∨ size < d.ht0.used ∨ dictNextPower size = d.ht0.size →
      Resized d size d false
  | first {k : ℕ} : k ≤ 60 → size ≤ 2 ^ k → d.rehashidx = none → d.ht0.table = [] →
      Resized d size { d with ht0 := ⟨List.replicate (2 ^ k) [], 0⟩ } true
  | second {k : ℕ} : k ≤ 60 → size ≤ 2 ^ k → d.rehashidx = none → d.ht0.table ≠ [] →
      Resized d size
        { d with ht1 := ⟨List.replicate (2 ^ k) [], 0⟩, rehashidx := some 0 } true

/-- **A change of size** does one of these. -/
theorem dictExpand_spec (d : Dict κ ν) {size : ℕ} (hsize : size ≤ 2 ^ 60) :
    ∃ d' ok, d.dictExpand size = some (d', ok) ∧ d.Resized size d' ok := by
  obtain ⟨k, hk, hpow, hle⟩ := dictNextPower_spec hsize
  have hfits : ¬ 2 ^ 64 ≤ 2 ^ k * 8 := by
    have : 2 ^ k ≤ 2 ^ 60 := Nat.pow_le_pow_right (by omega) hk
    omega
  by_cases hrefused : d.dictIsRehashing ∨ size < d.ht0.used
  · refine ⟨d, false, by rw [dictExpand]; simp only [if_pos hrefused], .refused ?_⟩
    exact hrefused.imp (dictIsRehashing_iff d).mp .inl
  · by_cases hsame : dictNextPower size = d.ht0.size
    · refine ⟨d, false, ?_, .refused (.inr (.inr hsame))⟩
      rw [dictExpand]
      simp only [if_neg hrefused, if_pos hsame]
    · have hnone : d.rehashidx = none := by
        by_contra hne
        exact hrefused (.inl ((dictIsRehashing_iff d).mpr hne))
      rw [dictExpand]
      simp only [if_neg hrefused, if_neg hsame]
      rw [hpow, if_neg hfits]
      by_cases hnil : d.ht0.table = []
      · exact ⟨_, true, by rw [if_pos (by simp [hnil])], .first hk hle hnone hnil⟩
      · exact ⟨_, true, by rw [if_neg (by simpa using hnil)], .second hk hle hnone hnil⟩

theorem Resized.kept {d d' : Dict κ ν} {size : ℕ} {ok : Bool} (hr : d.Resized size d' ok)
    (h : d.WF hash) : d'.WF hash ∧ d'.entries = d.entries := by
  have hmade : ∀ k, (⟨List.replicate (2 ^ k) [], 0⟩ : Table κ ν).table ≠ [] := by
    intro k
    simp [List.replicate_eq_nil_iff]
  cases hr with
  | refused _ => exact ⟨h, rfl⟩
  | @first k hk _ hnone hnil =>
    have hentries : ({ d with ht0 := ⟨List.replicate (2 ^ k) [], 0⟩ } : Dict κ ν).entries =
        d.entries := by
      simp [entries, Table.entries, hnil]
    refine ⟨⟨Table.wf_replicate hk, h.ht1, hentries ▸ h.keys, h.idle,
      fun hne => absurd hnone hne, fun idx hidx => ?_⟩, hentries⟩
    rw [hnone] at hidx
    cases hidx
  | @second k hk _ hnone hne =>
    have hentries : ({ d with ht1 := ⟨List.replicate (2 ^ k) [], 0⟩,
                              rehashidx := some 0 } : Dict κ ν).entries = d.entries := by
      rw [h.entries_of_idle hnone]
      simp [entries, Table.entries]
    refine ⟨⟨h.ht0, Table.wf_replicate hk, hentries ▸ h.keys, fun hidle => by simp at hidle,
      fun _ => ⟨hne, hmade k⟩, fun idx hidx => ?_⟩, hentries⟩
    obtain rfl : 0 = idx := Option.some.inj hidx
    exact ⟨Nat.zero_le _, fun j hj => absurd hj (Nat.not_lt_zero j)⟩

/-! ### Lookups -/

/-- What a lookup has found. -/
inductive Found [DecidableEq κ] (hash : κ → BitVec 64) (d : Dict κ ν) (key : κ) :
    Located κ ν → Prop
  | at0 {c e} : d.ht0.chain (hash key) = some c → findEntry key c = some e →
      Found hash d key (.at0 e)
  | at1 {c e} : d.rehashidx ≠ none → d.ht1.chain (hash key) = some c → findEntry key c = some e →
      Found hash d key (.at1 e)
  | absent : (∀ e ∈ d.entries, e.1 ≠ key) → Found hash d key .absent

/-- **A lookup** finds the entry with a key, if there is one. -/
theorem WF.locate [DecidableEq κ] {d : Dict κ ν} (h : d.WF hash) (hne : d.ht0.table ≠ [])
    (key : κ) : ∃ l, d.locate hash key = some l ∧ d.Found hash key l := by
  obtain ⟨c, hc⟩ := h.ht0.exists_chain hne (hash key)
  rw [Dict.locate, hc]
  rcases hfind : findEntry key c with _ | e
  · have hnot₀ := h.ht0.not_mem_of_findEntry hc hfind
    by_cases hidle : d.rehashidx = none
    · have hno : d.dictIsRehashing = false := by simp [dictIsRehashing, hidle]
      refine ⟨.absent, by simp [hfind, hno], .absent ?_⟩
      rw [h.entries_of_idle hidle]
      exact hnot₀
    · have hyes : d.dictIsRehashing = true := (dictIsRehashing_iff d).mpr hidle
      obtain ⟨c₁, hc₁⟩ := h.ht1.exists_chain (h.both hidle).2 (hash key)
      rcases hfind₁ : findEntry key c₁ with _ | e
      · refine ⟨.absent, by simp [hfind, hyes, hc₁, hfind₁], .absent ?_⟩
        intro e he
        rcases List.mem_append.mp he with he | he
        · exact hnot₀ e he
        · exact h.ht1.not_mem_of_findEntry hc₁ hfind₁ e he
      · exact ⟨.at1 e, by simp [hfind, hyes, hc₁, hfind₁], .at1 hidle hc₁ hfind₁⟩
  · exact ⟨.at0 e, by simp [hfind], .at0 hc hfind⟩

end Dict

end RemoveWin
