import RemoveWin.Lib.Assoc
import RemoveWin.Dict.Invariant

/-!
# A dictionary is a finite map

Whatever its tables look like, a dictionary is to those who use it a finite map from keys to values.
Commands and upkeep may come in any order: a rehash may be under way or not, resizing may be
forbidden, safe iterators may hold a rehash back. None of this shows in a reply, and none of it
crashes.

## How commands are followed

A command that adds takes three steps: it moves a chain, it makes a table if one is needed, and it
looks for the key. Each has its own description (`Stepped`, `Enlarged`, `Found`), from which what
the command does to the entries follows. The same descriptions serve the results about the sizes of
the tables.
-/

namespace RemoveWin

open scoped List
open Assoc

variable {κ ν : Type} {hash : κ → BitVec 64}

namespace Dict

/-! ### The steps of a command -/

/-- What the rehash step of a command does: nothing where there is nothing to do or an iterator
forbids it, otherwise it goes forward. -/
inductive Stepped (hash : κ → BitVec 64) (d : Dict κ ν) : Dict κ ν → Prop
  | idle : d.rehashidx = none ∨ d.iterators ≠ 0 → Stepped hash d d
  | moved {d' : Dict κ ν} {idx : ℕ} : d.rehashidx = some idx → d.iterators = 0 →
      d.Moved hash d' → (d'.rehashidx = none ∨
        ∃ idx', d'.rehashidx = some idx' ∧ idx < idx' ∧ idx' < d'.ht0.size) →
      Stepped hash d d'

/-- What the check for room does: nothing where there is room, and otherwise it makes a table. -/
inductive Enlarged (canResize : Bool) (d : Dict κ ν) : Dict κ ν → Prop
  | enough : d.ht0.table ≠ [] →
      (d.rehashidx ≠ none ∨ d.ht0.used < d.ht0.size ∨ canResize = false) → Enlarged canResize d d
  | resized {d' : Dict κ ν} {size : ℕ} : d.Resized size d' true →
      (d.ht0.table = [] ∨ d.ht0.size ≤ d.ht0.used ∧ size = d.ht0.used * 2) → Enlarged canResize d d'

/-- A rehash that is under way is one to a table that is no smaller. -/
def Growing (d : Dict κ ν) : Prop :=
  d.rehashidx ≠ none → d.ht0.size ≤ d.ht1.size

/-- The tables do not become smaller. -/
def Grows (d d' : Dict κ ν) : Prop :=
  d.Growing → d'.Growing ∧ d.ht0.size ≤ d'.ht0.size

theorem Grows.refl (d : Dict κ ν) : d.Grows d :=
  fun h => ⟨h, le_rfl⟩

theorem Grows.trans {d d₁ d₂ : Dict κ ν} (h₁ : d.Grows d₁) (h₂ : d₁.Grows d₂) : d.Grows d₂ :=
  fun h => ⟨(h₂ (h₁ h).1).1, (h₁ h).2.trans (h₂ (h₁ h).1).2⟩

theorem Grows.of_sizes {d d' : Dict κ ν} (hidx : d'.rehashidx = d.rehashidx)
    (hsize₀ : d'.ht0.size = d.ht0.size) (hsize₁ : d'.ht1.size = d.ht1.size) : d.Grows d' := by
  intro h
  refine ⟨fun hne => ?_, hsize₀.ge⟩
  rw [hsize₀, hsize₁]
  exact h (hidx ▸ hne)

theorem Moved.grows {d d' : Dict κ ν} (h : d.Moved hash d') (hidx : d.rehashidx ≠ none) :
    d.Grows d' := by
  intro hgrow
  have hle := hgrow hidx
  rcases h.sizes with ⟨hnone, hsize⟩ | ⟨-, hsize₀, hsize₁⟩
  · exact ⟨fun hne => absurd hnone hne, hsize ▸ hle⟩
  · exact ⟨fun _ => by rw [hsize₀, hsize₁]; exact hle, hsize₀.ge⟩

theorem Moved.ht0_ne_nil {d d' : Dict κ ν} (h : d.Moved hash d') (hwf : d.WF hash)
    (hidx : d.rehashidx ≠ none) : d'.ht0.table ≠ [] := by
  rcases h.sizes with ⟨-, hsize⟩ | ⟨hne, -, -⟩
  · exact Table.ne_nil_of_size hsize (hwf.both hidx).2
  · exact (h.wf.both hne).1

namespace Stepped

variable {d d' : Dict κ ν}

theorem wf (hs : d.Stepped hash d') (h : d.WF hash) : d'.WF hash := by
  cases hs with
  | idle _ => exact h
  | moved _ _ hmoved _ => exact hmoved.wf

theorem perm (hs : d.Stepped hash d') : d'.entries ~ d.entries := by
  cases hs with
  | idle _ => exact .refl _
  | moved _ _ hmoved _ => exact hmoved.perm

theorem grows (hs : d.Stepped hash d') : d.Grows d' := by
  cases hs with
  | idle _ => exact .refl _
  | moved hidx _ hmoved _ => exact hmoved.grows (by simp [hidx])

theorem ht0_ne_nil (hs : d.Stepped hash d') (h : d.WF hash) (hne : d.ht0.table ≠ []) :
    d'.ht0.table ≠ [] := by
  cases hs with
  | idle _ => exact hne
  | moved hidx _ hmoved _ => exact hmoved.ht0_ne_nil h (by simp [hidx])

end Stepped

/-- **The rehash step** of a command. -/
theorem WF.dictRehashStep {d : Dict κ ν} (h : d.WF hash) :
    ∃ d', d.dictRehashStep hash = some d' ∧ d.Stepped hash d' := by
  by_cases hcan : d.dictIsRehashing ∧ d.iterators = 0
  · obtain ⟨idx, hidx⟩ := Option.isSome_iff_exists.mp hcan.1
    obtain ⟨d', more, hrehash, hmoved, hprog⟩ := h.dictRehash hidx 1
    refine ⟨d', ?_, .moved hidx hcan.2 hmoved (hprog Nat.one_pos)⟩
    rw [Dict.dictRehashStep, if_pos hcan, hrehash]
    rfl
  · refine ⟨d, by rw [Dict.dictRehashStep, if_neg hcan], .idle ?_⟩
    rw [dictIsRehashing_iff] at hcan
    tauto

/-- **The check for room.** -/
theorem WF.dictExpandIfNeeded {d : Dict κ ν} (h : d.WF hash) (hroom : d.ht0.used ≤ 2 ^ 58)
    (canResize : Bool) :
    ∃ d', d.dictExpandIfNeeded canResize = some (d', true) ∧ d.Enlarged canResize d' := by
  rw [Dict.dictExpandIfNeeded]
  split_ifs with hidx hsize hfull
  · have hne := (dictIsRehashing_iff d).mp hidx
    exact ⟨d, rfl, .enough (h.both hne).1 (.inl hne)⟩
  · have hnil : d.ht0.table = [] := List.length_eq_zero_iff.mp hsize
    have hnone : d.rehashidx = none := by
      by_contra hne
      exact (h.both hne).1 hnil
    obtain ⟨d', ok, hexpand, hresized⟩ := dictExpand_spec d (show 4 ≤ 2 ^ 60 by omega)
    cases ok with
    | true => exact ⟨d', hexpand, .resized hresized (.inl hnil)⟩
    | false =>
      obtain ⟨hno | hused | hsame⟩ := hresized
      · exact absurd hnone hno
      · have := h.ht0.eq_empty hnil
        rw [this] at hused
        simp at hused
      · rw [hsize] at hsame
        exact absurd hsame (by decide)
  · obtain ⟨d', ok, hexpand, hresized⟩ :=
      dictExpand_spec d (show d.ht0.used * 2 ≤ 2 ^ 60 by omega)
    cases ok with
    | true => exact ⟨d', hexpand, .resized hresized (.inr ⟨hfull.1, rfl⟩)⟩
    | false =>
      obtain ⟨k, -, hpow, hle⟩ := dictNextPower_spec (show d.ht0.used * 2 ≤ 2 ^ 60 by omega)
      obtain ⟨hno | hused | hsame⟩ := hresized
      · exact absurd ((dictIsRehashing_iff d).mpr hno) hidx
      · omega
      · rw [hpow] at hsame
        omega
  · refine ⟨d, rfl, .enough (fun hnil => hsize (by rw [Table.size, hnil]; rfl)) (.inr ?_)⟩
    by_cases hlt : d.ht0.used < d.ht0.size
    · exact .inl hlt
    · refine .inr ?_
      by_contra hcan
      exact hfull ⟨by omega, .inl (by simpa using hcan)⟩

namespace Enlarged

variable {d d' : Dict κ ν} {canResize : Bool}

theorem kept (he : d.Enlarged canResize d') (h : d.WF hash) :
    d'.WF hash ∧ d'.entries = d.entries := by
  cases he with
  | enough _ _ => exact ⟨h, rfl⟩
  | resized hr _ => exact hr.kept h

theorem ht0_ne_nil (he : d.Enlarged canResize d') : d'.ht0.table ≠ [] := by
  cases he with
  | enough hne _ => exact hne
  | resized hr _ =>
    cases hr with
    | first _ _ _ _ => simp [List.replicate_eq_nil_iff]
    | second _ _ _ hne => exact hne

theorem grows (he : d.Enlarged canResize d') : d.Grows d' := by
  cases he with
  | enough _ _ => exact .refl _
  | resized hr hwhy =>
    intro _
    cases hr with
    | first _ _ hnone hnil =>
      exact ⟨fun hne => absurd hnone hne, by simp [Table.size, hnil]⟩
    | @second k _ hle _ hne =>
      refine ⟨fun _ => ?_, le_rfl⟩
      obtain ⟨hfull, rfl⟩ := hwhy.resolve_left hne
      simp only [Table.size, List.length_replicate] at hfull ⊢
      omega

end Enlarged

/-! ### Commands -/

theorem WF.ht0_ne_nil {d : Dict κ ν} (h : d.WF hash) (hused : d.dictSize ≠ 0) :
    d.ht0.table ≠ [] := by
  intro hnil
  have hidle : d.rehashidx = none := by
    by_contra hne
    exact (h.both hne).1 hnil
  have h₀ := h.ht0.eq_empty hnil
  have h₁ := h.ht1.eq_empty (h.idle hidle)
  rw [Dict.dictSize, h₀, h₁] at hused
  exact hused rfl

theorem WF.entries_eq_nil {d : Dict κ ν} (h : d.WF hash) (hused : d.dictSize = 0) :
    d.entries = [] :=
  List.length_eq_zero_iff.mp (h.dictSize ▸ hused)

theorem WF.dictSize_ne_zero {d : Dict κ ν} (h : d.WF hash) {e : κ × ν} (he : e ∈ d.entries) :
    d.dictSize ≠ 0 := by
  rw [h.dictSize]
  exact (List.length_pos_of_mem he).ne'

theorem WF.setAddTable {d : Dict κ ν} {key : κ} (h : d.WF hash) (hne : d.ht0.table ≠ []) (val : ν)
    (hno : ∀ e ∈ d.entries, e.1 ≠ key) :
    ∃ t, d.addTable.push (d.addTable.slot (hash key)) (key, val) = some t ∧
      t.size = d.addTable.size ∧
      (d.setAddTable t).WF hash ∧ (d.setAddTable t).entries ~ (key, val) :: d.entries := by
  have hkeys : ∀ l, l ~ (key, val) :: d.entries → (l.map Prod.fst).Nodup := by
    intro l hl
    refine (hl.map Prod.fst).nodup_iff.mpr (List.nodup_cons.mpr ⟨fun hin => ?_, h.keys⟩)
    obtain ⟨e, he, hek⟩ := List.mem_map.mp hin
    exact hno e he hek
  by_cases hidx : d.rehashidx = none
  · have hto : d.dictIsRehashing = false := by simp [dictIsRehashing, hidx]
    obtain ⟨t, hpush, hwf, hsize, hperm⟩ := h.ht0.push hne (key, val)
    have hall : t.entries ++ d.ht1.entries ~ (key, val) :: d.entries := hperm.append_right _
    simp only [addTable, Dict.setAddTable, hto, Bool.false_eq_true, if_false]
    exact ⟨t, hpush, hsize, ⟨hwf, h.ht1, hkeys _ hall, h.idle, fun hn => absurd hidx hn,
      fun idx hsome => by rw [hidx] at hsome; cases hsome⟩, hall⟩
  · have hto : d.dictIsRehashing = true := (dictIsRehashing_iff d).mpr hidx
    obtain ⟨t, hpush, hwf, hsize, hperm⟩ := h.ht1.push (h.both hidx).2 (key, val)
    have hall : d.ht0.entries ++ t.entries ~ (key, val) :: d.entries :=
      (hperm.append_left _).trans List.perm_middle
    simp only [addTable, Dict.setAddTable, hto, if_true]
    exact ⟨t, hpush, hsize, h.setHt1 hwf hsize hidx (hkeys _ hall), hall⟩

theorem grows_setAddTable {d : Dict κ ν} {t : Table κ ν} (hsize : t.size = d.addTable.size) :
    d.Grows (d.setAddTable t) := by
  rw [addTable] at hsize
  rw [setAddTable]
  split_ifs at hsize ⊢ with hidx
  · exact .of_sizes rfl rfl hsize
  · intro _
    refine ⟨fun hne => absurd ((dictIsRehashing_iff d).mpr hne) (by simpa using hidx), hsize.ge⟩

section

variable [DecidableEq κ] {d : Dict κ ν} {key : κ}

theorem Found.mem {l : Located κ ν} {e : κ × ν} (hf : d.Found hash key l) (he : l.entry? = some e) :
    e ∈ d.entries ∧ e.1 = key := by
  cases hf with
  | at0 hc hfind =>
    cases he
    have := Table.WF.mem_of_findEntry hc hfind
    exact ⟨List.mem_append_left _ this.1, this.2⟩
  | at1 _ hc hfind =>
    cases he
    have := Table.WF.mem_of_findEntry hc hfind
    exact ⟨List.mem_append_right _ this.1, this.2⟩
  | absent _ => cases he

theorem Found.entry?_eq {l : Located κ ν} (hf : d.Found hash key l)
    {m : Finmap fun _ : κ => ν} (hm : Lists d.entries m) :
    l.entry?.map Prod.snd = m.lookup key := by
  rcases he : l.entry? with _ | e
  · cases hf with
    | at0 _ _ => cases he
    | at1 _ _ _ => cases he
    | absent hno => exact (Finmap.lookup_eq_none.mpr (hm.not_mem hno)).symm
  · obtain ⟨hin, rfl⟩ := hf.mem he
    exact ((hm.mem_iff e).mp hin).symm

/-- What `dictAddRaw` does: after a rehash step and the check for room, the entry is put in front of
its chain, unless there is one with the key. -/
inductive Added (hash : κ → BitVec 64) (canResize : Bool) (d : Dict κ ν) (key : κ) (val : ν) :
    Dict κ ν → Option (Located κ ν) → Prop
  | new {d₁ d₂ : Dict κ ν} {t : Table κ ν} : d.Stepped hash d₁ → d₁.Enlarged canResize d₂ →
      (∀ e ∈ d.entries, e.1 ≠ key) → t.size = d₂.addTable.size → t.used = d₂.addTable.used + 1 →
      (d₂.setAddTable t).WF hash → (d₂.setAddTable t).entries ~ (key, val) :: d.entries →
      Added hash canResize d key val (d₂.setAddTable t) none
  | existing {d₁ d₂ : Dict κ ν} {l : Located κ ν} {e : κ × ν} : d.Stepped hash d₁ →
      d₁.Enlarged canResize d₂ → d₂.WF hash → d₂.entries ~ d.entries → d₂.Found hash key l →
      l.entry? = some e → Added hash canResize d key val d₂ (some l)

/-- **`dictAddRaw`** does one of these. -/
theorem WF.dictAddRaw (h : d.WF hash) (hroom : d.entries.length ≤ 2 ^ 58) (canResize : Bool)
    (key : κ) (val : ν) :
    ∃ d' r, d.dictAddRaw hash canResize key val = some (d', r) ∧
      d.Added hash canResize key val d' r := by
  obtain ⟨d₁, hstep, hs⟩ := h.dictRehashStep
  have hwf₁ := hs.wf h
  have hroom₁ : d₁.ht0.used ≤ 2 ^ 58 := by
    have := hs.perm.length_eq
    rw [entries, List.length_append, ← hwf₁.ht0.used] at this
    omega
  obtain ⟨d₂, hexpand, he⟩ := hwf₁.dictExpandIfNeeded hroom₁ canResize
  obtain ⟨hwf₂, hentries⟩ := he.kept hwf₁
  have hperm : d₂.entries ~ d.entries := hentries ▸ hs.perm
  obtain ⟨l, hlocate, hfound⟩ := hwf₂.locate he.ht0_ne_nil key
  rcases hl : l.entry? with _ | e
  · obtain rfl : l = .absent := by cases l <;> simp [Located.entry?] at hl ⊢
    cases hfound with
    | absent hno =>
      obtain ⟨t, hpush, hsize, hwf, hadd⟩ := hwf₂.setAddTable he.ht0_ne_nil val hno
      have hused : t.used = d₂.addTable.used + 1 := by
        rw [Table.push] at hpush
        split at hpush
        · cases hpush
        · rw [← Option.some.inj hpush]
      refine ⟨_, _, ?_, .new hs he (fun x hx => hno x (hperm.mem_iff.mpr hx)) hsize hused hwf
        (hadd.trans (hperm.cons _))⟩
      rw [Dict.dictAddRaw, hstep]
      simp only [dictKeyIndex, hexpand, hlocate, hpush]
  · refine ⟨d₂, some l, ?_, .existing hs he hwf₂ hperm hfound hl⟩
    rw [Dict.dictAddRaw, hstep]
    cases l with
    | absent => cases hl
    | at0 _ => simp only [dictKeyIndex, hexpand, hlocate]
    | at1 _ => simp only [dictKeyIndex, hexpand, hlocate]

theorem Added.grows {canResize : Bool} {val : ν} {d' : Dict κ ν} {r : Option (Located κ ν)}
    (ha : d.Added hash canResize key val d' r) : d.Grows d' := by
  cases ha with
  | new hs he _ hsize _ _ _ => exact (hs.grows.trans he.grows).trans (grows_setAddTable hsize)
  | existing hs he _ _ _ _ => exact hs.grows.trans he.grows

/-- **`dictAdd`** adds a key that is not there. -/
theorem WF.dictAdd (h : d.WF hash) (hroom : d.entries.length ≤ 2 ^ 58) (canResize : Bool)
    (key : κ) (val : ν) :
    ∃ d' ok, d.dictAdd hash canResize key val = some (d', ok) ∧ d'.WF hash ∧ d.Grows d' ∧
      (ok = true ∧ (∀ e ∈ d.entries, e.1 ≠ key) ∧ d'.entries ~ (key, val) :: d.entries ∨
        ok = false ∧ (∃ e ∈ d.entries, e.1 = key) ∧ d'.entries ~ d.entries) := by
  obtain ⟨d', r, hraw, hadded⟩ := h.dictAddRaw hroom canResize key val
  refine ⟨d', r.isNone, by rw [Dict.dictAdd, hraw]; rfl, ?_⟩
  have hgrows := hadded.grows
  cases hadded with
  | new _ _ hno _ _ hwf hperm => exact ⟨hwf, hgrows, .inl ⟨rfl, hno, hperm⟩⟩
  | @existing _ _ _ e _ _ hwf hperm hfound he =>
    obtain ⟨hin, hkey⟩ := hfound.mem he
    exact ⟨hwf, hgrows, .inr ⟨rfl, ⟨e, hperm.mem_iff.mp hin, hkey⟩, hperm⟩⟩

theorem WF.setVal (h : d.WF hash) {l : Located κ ν} {e : κ × ν} (hfound : d.Found hash key l)
    (he : l.entry? = some e) (val : ν) :
    ∃ d' rest,
      (match l with
        | .at0 _ => (d.ht0.chain (hash key)).map fun c =>
            { d with ht0 := d.ht0.setChain (hash key) (setEntry key val c) }
        | .at1 _ => (d.ht1.chain (hash key)).map fun c =>
            { d with ht1 := d.ht1.setChain (hash key) (setEntry key val c) }
        | .absent => none) = some d' ∧
      d'.WF hash ∧ d.Grows d' ∧ d.entries ~ e :: rest ∧ d'.entries ~ (e.1, val) :: rest := by
  -- the keys are the same, so none is there twice
  have hkeys : ∀ {l rest}, d.entries ~ e :: rest → l ~ (e.1, val) :: rest →
      (l.map Prod.fst).Nodup := by
    intro l rest hold hnew
    exact (hnew.map Prod.fst).nodup_iff.mpr ((hold.map Prod.fst).nodup_iff.mp h.keys)
  cases hfound with
  | @at0 c e hc hfind =>
    cases he
    obtain ⟨hwf, hsize, hnil, rest, hold, hnew⟩ := h.ht0.setChain hc val hfind
    have hold' : d.entries ~ e :: (rest ++ d.ht1.entries) := hold.append_right _
    have hnew' := hnew.append_right d.ht1.entries
    refine ⟨_, rest ++ d.ht1.entries, by rw [hc]; rfl,
      h.setHt0 hwf hsize hnil (hkeys hold' hnew'), .of_sizes rfl hsize rfl, hold', hnew'⟩
  | @at1 c e hidx hc hfind =>
    cases he
    obtain ⟨hwf, hsize, -, rest, hold, hnew⟩ := h.ht1.setChain hc val hfind
    have hold' : d.entries ~ e :: (d.ht0.entries ++ rest) :=
      (hold.append_left _).trans List.perm_middle
    have hnew' := (hnew.append_left d.ht0.entries).trans List.perm_middle
    exact ⟨_, d.ht0.entries ++ rest, by rw [hc]; rfl,
      h.setHt1 hwf hsize hidx (hkeys hold' hnew'), .of_sizes rfl rfl hsize, hold', hnew'⟩
  | absent _ => cases he

/-- **`dictReplace`** adds a key or changes its value. -/
theorem WF.dictReplace (h : d.WF hash) (hroom : d.entries.length ≤ 2 ^ 58) (canResize : Bool)
    (key : κ) (val : ν) :
    ∃ d' new, d.dictReplace hash canResize key val = some (d', new) ∧ d'.WF hash ∧ d.Grows d' ∧
      (new = true ∧ (∀ e ∈ d.entries, e.1 ≠ key) ∧ d'.entries ~ (key, val) :: d.entries ∨
        new = false ∧ ∃ e rest, e.1 = key ∧ d.entries ~ e :: rest ∧
          d'.entries ~ (e.1, val) :: rest) := by
  obtain ⟨d₂, r, hraw, hadded⟩ := h.dictAddRaw hroom canResize key val
  have hgrows := hadded.grows
  cases hadded with
  | new _ _ hno _ _ hwf hperm =>
    exact ⟨_, true, by rw [Dict.dictReplace, hraw], hwf, hgrows, .inl ⟨rfl, hno, hperm⟩⟩
  | @existing _ _ l e _ _ hwf hperm hfound he =>
    obtain ⟨d', rest, hset, hwf', hgrows', hold, hnew⟩ := hwf.setVal hfound he val
    refine ⟨d', false, ?_, hwf', hgrows.trans hgrows',
      .inr ⟨rfl, e, rest, (hfound.mem he).2, hperm.symm.trans hold, hnew⟩⟩
    rw [Dict.dictReplace, hraw]
    cases hfound with
    | at0 hc _ => simpa [hc] using hset
    | at1 _ hc _ => simpa [hc] using hset
    | absent _ => cases he

/-- **`dictFind`** finds what is there. -/
theorem WF.dictFind (h : d.WF hash) (key : κ) :
    ∃ d' l, d.dictFind hash key = some (d', l.entry?) ∧ d'.WF hash ∧ d.Grows d' ∧
      d'.entries ~ d.entries ∧ d'.Found hash key l := by
  by_cases hused : d.ht0.used + d.ht1.used = 0
  · refine ⟨d, .absent, by rw [Dict.dictFind, if_pos hused]; rfl, h, .refl d, .refl _, .absent ?_⟩
    rw [h.entries_eq_nil hused]
    simp
  · obtain ⟨d', hstep, hs⟩ := h.dictRehashStep
    have hwf := hs.wf h
    obtain ⟨l, hlocate, hfound⟩ := hwf.locate (hs.ht0_ne_nil h (h.ht0_ne_nil hused)) key
    refine ⟨d', l, ?_, hwf, hs.grows, hs.perm, hfound⟩
    rw [Dict.dictFind, if_neg hused, hstep]
    simp only [hlocate, Option.map_some]

theorem WF.unlink (h : d.WF hash) {l : Located κ ν} {e : κ × ν} (hfound : d.Found hash key l)
    (he : l.entry? = some e) :
    ∃ d',
      (match l with
        | .at0 e => (unlinkFrom hash d.ht0 key).map fun t => ({ d with ht0 := t }, some e)
        | .at1 e => (unlinkFrom hash d.ht1 key).map fun t => ({ d with ht1 := t }, some e)
        | .absent => some (d, none)) = some (d', some e) ∧
      d'.WF hash ∧ d.Grows d' ∧ d.entries ~ e :: d'.entries := by
  have hkeys : ∀ {l}, d.entries ~ e :: l → (l.map Prod.fst).Nodup := by
    intro l hl
    exact (List.nodup_cons.mp ((hl.map Prod.fst).nodup_iff.mp h.keys)).2
  cases hfound with
  | @at0 c e hc hfind =>
    cases he
    obtain ⟨t, hunlink, hwf, hsize, hnil, hperm⟩ := h.ht0.unlinkFrom hc hfind
    have hall : d.entries ~ e :: (t.entries ++ d.ht1.entries) := hperm.append_right _
    exact ⟨_, by simp only [hunlink, Option.map_some], h.setHt0 hwf hsize hnil (hkeys hall),
      .of_sizes rfl hsize rfl, hall⟩
  | @at1 c e hidx hc hfind =>
    cases he
    obtain ⟨t, hunlink, hwf, hsize, -, hperm⟩ := h.ht1.unlinkFrom hc hfind
    have hall : d.entries ~ e :: (d.ht0.entries ++ t.entries) :=
      (hperm.append_left _).trans List.perm_middle
    exact ⟨_, by simp only [hunlink, Option.map_some], h.setHt1 hwf hsize hidx (hkeys hall),
      .of_sizes rfl rfl hsize, hall⟩
  | absent _ => cases he

/-- **`dictGenericDelete`** unlinks what is there. -/
theorem WF.dictGenericDelete (h : d.WF hash) (key : κ) :
    ∃ d' r, d.dictGenericDelete hash key = some (d', r) ∧ d'.WF hash ∧ d.Grows d' ∧
      (r = none ∧ (∀ e ∈ d.entries, e.1 ≠ key) ∧ d'.entries ~ d.entries ∨
        ∃ e, r = some e ∧ e.1 = key ∧ d.entries ~ e :: d'.entries) := by
  by_cases hused : d.ht0.used = 0 ∧ d.ht1.used = 0
  · refine ⟨d, none, by rw [Dict.dictGenericDelete, if_pos hused], h, .refl d,
      .inl ⟨rfl, ?_, .refl _⟩⟩
    rw [h.entries_eq_nil (by rw [Dict.dictSize]; omega)]
    simp
  · have hne := h.ht0_ne_nil (by rw [Dict.dictSize]; omega)
    obtain ⟨d₁, hstep, hs⟩ := h.dictRehashStep
    obtain ⟨l, hlocate, hfound⟩ := (hs.wf h).locate (hs.ht0_ne_nil h hne) key
    rcases hl : l.entry? with _ | e
    · obtain rfl : l = .absent := by cases l <;> simp [Located.entry?] at hl ⊢
      cases hfound with
      | absent hno =>
        refine ⟨d₁, none, ?_, hs.wf h, hs.grows,
          .inl ⟨rfl, fun x hx => hno x (hs.perm.mem_iff.mpr hx), hs.perm⟩⟩
        rw [Dict.dictGenericDelete, if_neg hused, hstep]
        simp only [hlocate]
    · obtain ⟨d', hunlink, hwf, hgrows, hperm⟩ := (hs.wf h).unlink hfound hl
      refine ⟨d', some e, ?_, hwf, hs.grows.trans hgrows,
        .inr ⟨e, rfl, (hfound.mem hl).2, hs.perm.symm.trans hperm⟩⟩
      rw [Dict.dictGenericDelete, if_neg hused, hstep]
      simp only [hlocate]
      cases l with
      | at0 _ => exact hunlink
      | at1 _ => exact hunlink
      | absent => cases hl

end

end Dict

/-! ### Runs -/

namespace DictState

variable [DecidableEq κ] {s : DictState κ ν} {m : Finmap fun _ : κ => ν}

/-- A dictionary shows a finite map. -/
structure Shows (hash : κ → BitVec 64) (s : DictState κ ν) (m : Finmap fun _ : κ => ν) : Prop where
  wf : s.dict.WF hash
  lists : Lists s.dict.entries m

theorem shows_empty : ({} : DictState κ ν).Shows hash ∅ :=
  ⟨Dict.wf_dictCreate, lists_nil⟩

/-- **One command** shows what a finite map shows. -/
theorem Shows.command (h : s.Shows hash m) (hroom : s.dict.entries.length ≤ 2 ^ 58)
    (c : MapCmd κ ν) :
    ∃ s', s.command hash c = some (s', (c.apply m).2) ∧ s'.Shows hash (c.apply m).1 ∧
      s'.dict.entries.length ≤ s.dict.entries.length + 1 ∧
      (c ≠ .empty → s.dict.Grows s'.dict) := by
  cases c with
  | add key val =>
    obtain ⟨d', ok, hadd, hwf, hgrows, hcase⟩ := h.wf.dictAdd hroom s.canResize key val
    refine ⟨{ s with dict := d' }, ?_⟩
    rw [DictState.command, hadd]
    rcases hcase with ⟨rfl, hno, hperm⟩ | ⟨rfl, hin, hperm⟩
    · have hnot : key ∉ m := h.lists.not_mem hno
      simp only [MapCmd.apply, if_neg hnot, Option.map_some]
      exact ⟨trivial, ⟨hwf, (h.lists.cons hno val).perm hperm⟩, hperm.length_eq.le,
        fun _ => hgrows⟩
    · have hmem : key ∈ m := (h.lists.exists_iff key).mp hin
      simp only [MapCmd.apply, if_pos hmem, Option.map_some]
      exact ⟨trivial, ⟨hwf, h.lists.perm hperm⟩, hperm.length_eq.le.trans (Nat.le_succ _),
        fun _ => hgrows⟩
  | replace key val =>
    obtain ⟨d', new, hreplace, hwf, hgrows, hcase⟩ := h.wf.dictReplace hroom s.canResize key val
    refine ⟨{ s with dict := d' }, ?_⟩
    rw [DictState.command, hreplace]
    rcases hcase with ⟨rfl, hno, hperm⟩ | ⟨rfl, e, rest, rfl, hold, hnew⟩
    · have hnot : key ∉ m := h.lists.not_mem hno
      simp only [MapCmd.apply, hnot, not_false_eq_true, decide_true, Option.map_some]
      exact ⟨trivial, ⟨hwf, (h.lists.cons hno val).perm hperm⟩, hperm.length_eq.le,
        fun _ => hgrows⟩
    · have hmem : e.1 ∈ m :=
        (h.lists.exists_iff e.1).mp ⟨e, hold.mem_iff.mpr (List.mem_cons_self ..), rfl⟩
      simp only [MapCmd.apply, hmem, not_true_eq_false, decide_false, Option.map_some]
      refine ⟨trivial, ⟨hwf, ((h.lists.perm hold.symm).replace val).perm hnew⟩, ?_,
        fun _ => hgrows⟩
      have := hold.length_eq
      have := hnew.length_eq
      simp only [List.length_cons] at *
      omega
  | find key =>
    obtain ⟨d', l, hfind, hwf, hgrows, hperm, hfound⟩ := h.wf.dictFind key
    have hlists := h.lists.perm hperm
    refine ⟨{ s with dict := d' }, ?_, ⟨hwf, hlists⟩, hperm.length_eq.le.trans (Nat.le_succ _),
      fun _ => hgrows⟩
    rw [DictState.command, hfind]
    simp only [Option.map_some, hfound.entry?_eq hlists, MapCmd.apply]
  | delete key =>
    obtain ⟨d', r, hdelete, hwf, hgrows, hcase⟩ := h.wf.dictGenericDelete key
    refine ⟨{ s with dict := d' }, ?_⟩
    rw [DictState.command, hdelete]
    rcases hcase with ⟨rfl, hno, hperm⟩ | ⟨e, rfl, rfl, hperm⟩
    · have hnot : key ∉ m := h.lists.not_mem hno
      simp only [MapCmd.apply, erase_of_not_mem hnot, Finmap.lookup_eq_none.mpr hnot,
        Option.map_some, Option.map_none]
      exact ⟨trivial, ⟨hwf, h.lists.perm hperm⟩, hperm.length_eq.le.trans (Nat.le_succ _),
        fun _ => hgrows⟩
    · have hlists := h.lists.perm hperm.symm
      have hlookup : m.lookup e.1 = some e.2 := (hlists.mem_iff e).mp (List.mem_cons_self ..)
      simp only [MapCmd.apply, hlookup, Option.map_some]
      refine ⟨trivial, ⟨hwf, hlists.erase⟩, ?_, fun _ => hgrows⟩
      have := hperm.length_eq
      simp only [List.length_cons] at this
      omega
  | size =>
    refine ⟨s, ?_, h, Nat.le_succ _, fun _ => .refl _⟩
    rw [DictState.command, MapCmd.apply, h.wf.dictSize, h.lists.card_keys]
  | empty =>
    exact ⟨_, rfl, ⟨Dict.wf_dictCreate, lists_nil⟩, Nat.zero_le _, fun hne => absurd rfl hne⟩

end DictState

/-- A change of size that a table can be made for. -/
def Upkeep.Fits : Upkeep → Prop
  | .expand size => size ≤ 2 ^ 60
  | _ => True

namespace DictState

theorem upkeep_spec {s : DictState κ ν} (h : s.dict.WF hash) {u : Upkeep} (hu : u.Fits) :
    ∃ s', s.upkeep hash u = some s' ∧ s'.dict.WF hash ∧ s'.dict.entries ~ s.dict.entries := by
  have hexpand : ∀ {size}, size ≤ 2 ^ 60 → ∃ d' ok, s.dict.dictExpand size = some (d', ok) ∧
      d'.WF hash ∧ d'.entries ~ s.dict.entries := by
    intro size hsize
    obtain ⟨d', ok, heq, hresized⟩ := Dict.dictExpand_spec s.dict hsize
    obtain ⟨hwf, hentries⟩ := hresized.kept h
    exact ⟨d', ok, heq, hwf, .of_eq hentries⟩
  cases u with
  | expand size =>
    obtain ⟨d', ok, heq, hwf, hperm⟩ := hexpand hu
    exact ⟨{ s with dict := d' }, by rw [upkeep, heq]; rfl, hwf, hperm⟩
  | resize =>
    rw [upkeep, Dict.dictResize]
    split_ifs with hno
    · exact ⟨s, rfl, h, .refl _⟩
    · have hlt := Int.bmod_lt (x := s.dict.ht0.used) (m := 2 ^ 32) (by decide)
      have hsize : (if (s.dict.ht0.used : ℤ).bmod (2 ^ 32) < 4 then 4
          else ((s.dict.ht0.used : ℤ).bmod (2 ^ 32)).toNat) ≤ 2 ^ 60 := by
        split_ifs <;> omega
      obtain ⟨d', ok, heq, hwf, hperm⟩ := hexpand hsize
      exact ⟨{ s with dict := d' }, by simp only [heq, Option.map_some], hwf, hperm⟩
  | rehash n =>
    rcases hidx : s.dict.rehashidx with _ | idx
    · refine ⟨s, ?_, h, .refl _⟩
      rw [upkeep, Dict.dictRehash, hidx]
      rfl
    · obtain ⟨d', more, heq, hmoved, -⟩ := h.dictRehash hidx n
      exact ⟨{ s with dict := d' }, by rw [upkeep, heq]; rfl, hmoved.wf, hmoved.perm⟩
  | enableResize => exact ⟨_, rfl, h, .refl _⟩
  | disableResize => exact ⟨_, rfl, h, .refl _⟩
  | iterate => exact ⟨_, rfl, h.setIterators _, .of_eq (Dict.entries_setIterators _ _)⟩
  | releaseIterator => exact ⟨_, rfl, h.setIterators _, .of_eq (Dict.entries_setIterators _ _)⟩

variable [DecidableEq κ]

theorem Shows.run : ∀ (acts : List (MapCmd κ ν ⊕ Upkeep)) {s : DictState κ ν}
    {m : Finmap fun _ : κ => ν}, s.Shows hash m → s.dict.entries.length + acts.length ≤ 2 ^ 58 →
    (∀ u, .inr u ∈ acts → u.Fits) →
    ∃ s' m', s.run hash acts = some (s', MapCmd.replies m (acts.filterMap Sum.getLeft?)) ∧
      s'.Shows hash m' ∧ s'.dict.entries.length ≤ s.dict.entries.length + acts.length
  | [], s, m, h, _, _ => ⟨s, m, rfl, h, le_rfl⟩
  | .inl c :: acts, s, m, h, hroom, hfits => by
    rw [List.length_cons] at hroom
    obtain ⟨s₁, hcommand, hshows, hlen, -⟩ := h.command (by omega) c
    obtain ⟨s₂, m₂, hrun, hshows₂, hlen₂⟩ :=
      Shows.run acts hshows (by omega) fun u hu => hfits u (List.mem_cons_of_mem _ hu)
    refine ⟨s₂, m₂, ?_, hshows₂, by rw [List.length_cons]; omega⟩
    rw [DictState.run, hcommand]
    simp only [hrun, Option.map_some, List.filterMap_cons, Sum.getLeft?_inl, MapCmd.replies]
  | .inr u :: acts, s, m, h, hroom, hfits => by
    rw [List.length_cons] at hroom
    obtain ⟨s₁, hupkeep, hwf₁, hperm⟩ := upkeep_spec h.wf (hfits u (List.mem_cons_self ..))
    have hlen := hperm.length_eq
    obtain ⟨s₂, m₂, hrun, hshows₂, hlen₂⟩ := Shows.run acts ⟨hwf₁, h.lists.perm hperm⟩ (by omega)
      fun u hu => hfits u (List.mem_cons_of_mem _ hu)
    refine ⟨s₂, m₂, ?_, hshows₂, by rw [List.length_cons]; omega⟩
    rw [DictState.run, hupkeep]
    simpa only [List.filterMap_cons, Sum.getLeft?_inr] using hrun

end DictState

/-- **A run shows what a finite map shows.** From an empty dictionary, whatever the hash function,
up to `2 ^ 58` commands and acts of upkeep in any order, none of which asks for a size above
`2 ^ 60`, do not crash, and the replies to the commands are those of a finite map that knows nothing
of tables. -/
theorem dict_refines [DecidableEq κ] (hash : κ → BitVec 64) (acts : List (MapCmd κ ν ⊕ Upkeep))
    (hlen : acts.length ≤ 2 ^ 58) (hfits : ∀ u, .inr u ∈ acts → u.Fits) :
    ∃ s, ({} : DictState κ ν).run hash acts =
      some (s, MapCmd.replies ∅ (acts.filterMap Sum.getLeft?)) := by
  have hempty : ({} : DictState κ ν).dict.entries.length = 0 := rfl
  obtain ⟨s, -, hrun, -⟩ := DictState.shows_empty.run acts (by omega) hfits
  exact ⟨s, hrun⟩

/-- Enough commands for a rehash that is under way when a key is found in the first table, one is
deleted, one is replaced and one is added. -/
def rehashingActs : List (MapCmd ℕ ℕ ⊕ Upkeep) :=
  [.inl (.add 0 10), .inl (.add 1 11), .inl (.add 2 12), .inl (.add 3 13), .inl (.add 4 14),
    .inr .iterate, .inl (.find 3), .inl (.delete 2), .inr .releaseIterator, .inl (.replace 1 21),
    .inr (.rehash 1), .inl (.add 3 23), .inl .size, .inl (.find 1)]

theorem dict_refines_rehashing :
    ∃ s, ({} : DictState ℕ ℕ).run (BitVec.ofNat 64) rehashingActs =
      some (s, MapCmd.replies ∅ (rehashingActs.filterMap Sum.getLeft?)) :=
  dict_refines (BitVec.ofNat 64) rehashingActs (by simp [rehashingActs]) (by
    intro u hu
    simp only [rehashingActs, List.mem_cons, List.not_mem_nil, Sum.inr.injEq, reduceCtorEq,
      false_or, or_false] at hu
    rcases hu with rfl | rfl | rfl <;> trivial)

end RemoveWin
