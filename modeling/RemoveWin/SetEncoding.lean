import RemoveWin.SetType
import RemoveWin.TextCodec

/-!
# The set algebra in both encodings

`SetType` takes a set object as its members. Here it is what `t_set.c` makes of it: an ascending
array of integers as long as all members are canonical integers and there are not too many of them,
and a hash table of strings from then on. The functions behind the store commands look at encodings:
an iteration returns integers or strings, and `sinterResult` chooses a test for each pair of an
element and a source.

Everything comes down to integers being written canonically. The text of an integer is read back as
that integer, and no other text is, so a string is in an array of integers if and only if it is the
text of one of them.

## Main results

* `RemoveWin.Encoded.mem_setTypeAdd`, `setTypeIsMember_iff`, `mem_setTypeNext` — the operations are
  those of the set of members
* `RemoveWin.Encoded.refines_setType` — `SetType` is what both encodings stand for
* `RemoveWin.set_algebra_encoding_independent` — union, intersection and difference
-/

namespace RemoveWin

/-! ### Arrays of integers -/

/-- `intset`: an ascending array. -/
structure Intset where
  /-- The integers. -/
  elems : List Int64
  ascending : elems.Pairwise (· < ·)

namespace Intset

/-- `intsetNew`. -/
def empty : Intset := ⟨[], List.Pairwise.nil⟩

/-- Put an integer in front of the first that is larger. -/
def insert (v : Int64) : List Int64 → List Int64
  | [] => [v]
  | w :: l => if v < w then v :: w :: l else w :: insert v l

theorem mem_insert {v w : Int64} {l : List Int64} : w ∈ insert v l ↔ w = v ∨ w ∈ l := by
  induction l with
  | nil => simp [insert]
  | cons u l ih =>
    rw [insert]
    split_ifs
    · exact List.mem_cons
    · rw [List.mem_cons, ih, List.mem_cons, or_left_comm]

theorem pairwise_insert {v : Int64} {l : List Int64} (hl : l.Pairwise (· < ·)) (hv : v ∉ l) :
    (insert v l).Pairwise (· < ·) := by
  induction l with
  | nil => exact List.pairwise_singleton _ v
  | cons u l ih =>
    obtain ⟨hu, hl'⟩ := List.pairwise_cons.mp hl
    rw [List.mem_cons, not_or] at hv
    rw [insert]
    split_ifs with hlt
    · refine List.pairwise_cons.mpr ⟨fun w hw => ?_, hl⟩
      rcases List.mem_cons.mp hw with rfl | hw
      · exact hlt
      · exact Int64.lt_trans hlt (hu w hw)
    · refine List.pairwise_cons.mpr ⟨fun w hw => ?_, ih hl' hv.2⟩
      rcases mem_insert.mp hw with rfl | hw
      · exact (Int64.lt_or_lt_of_ne hv.1).resolve_left hlt
      · exact hu w hw

theorem nodup (s : Intset) : s.elems.Nodup := by
  rw [List.nodup_iff_pairwise_ne]
  refine s.ascending.imp fun {v w} h => ?_
  rintro rfl
  exact Int64.lt_irrefl h

/-- `intsetFind`. -/
def find (s : Intset) (v : Int64) : Bool := v ∈ s.elems

/-- `intsetAdd`, with its flag of success. -/
def add (s : Intset) (v : Int64) : Intset × Bool :=
  if h : v ∈ s.elems then (s, false)
  else (⟨insert v s.elems, pairwise_insert s.ascending h⟩, true)

theorem mem_add {s : Intset} {v w : Int64} : w ∈ (s.add v).1.elems ↔ w = v ∨ w ∈ s.elems := by
  rw [add]
  split_ifs with h
  · exact ⟨.inr, fun hw => hw.elim (fun heq => heq ▸ h) id⟩
  · exact mem_insert

end Intset

theorem sdsfromlonglong_injective : Function.Injective sdsfromlonglong := by
  intro v w h
  have hv := string2ll_sdsfromlonglong v
  rw [h, string2ll_sdsfromlonglong] at hv
  exact (Option.some.inj hv).symm

/-- `setTypeConvert`: a hash table with the texts of the integers. -/
def Intset.convert (s : Intset) : SetObj :=
  ⟨s.elems.map sdsfromlonglong, s.nodup.map sdsfromlonglong_injective⟩

/-- A string is the text of an integer of the array if it is read as one of them. -/
theorem Intset.mem_convert {s : Intset} {x : Sds} :
    x ∈ s.convert ↔ ∃ v, string2ll x = some v ∧ v ∈ s.elems := by
  rw [← SetObj.mem_elems, Intset.convert, List.mem_map]
  constructor
  · rintro ⟨v, hv, rfl⟩
    exact ⟨v, string2ll_sdsfromlonglong v, hv⟩
  · rintro ⟨v, hx, hv⟩
    exact ⟨v, hv, sdsfromlonglong_of_string2ll hx⟩

theorem Intset.notMem_convert {s : Intset} {x : Sds} (h : string2ll x = none) :
    x ∉ s.convert := by
  rw [Intset.mem_convert, h]
  rintro ⟨v, hv, -⟩
  cases hv

/-! ### Set objects -/

/-- A set object in one of the two encodings. -/
inductive EncSet where
  | intset (s : Intset)
  | ht (o : SetObj)

/-- The strings a set object stands for. -/
def EncSet.members : EncSet → SetObj
  | .intset s => s.convert
  | .ht o => o

/-- What `setTypeNext` returns: an integer or a string. -/
inductive SetElem where
  | int (v : Int64)
  | str (x : Sds)

/-- What `setTypeNextObject` makes of it. -/
def SetElem.text : SetElem → Sds
  | .int v => sdsfromlonglong v
  | .str x => x

namespace Encoded

/-- `createIntsetObject`. -/
def createIntsetObject : EncSet := .intset .empty

theorem nodup_concat {d : SetObj} {x : Sds} (h : x ∉ d) : (d.elems ++ [x]).Nodup :=
  d.nodup.append (List.nodup_singleton x) (List.disjoint_singleton.mpr h)

/-- `dictAdd` of a key that is not there. -/
def dictAdd (d : SetObj) (x : Sds) (h : x ∉ d) : SetObj := ⟨d.elems ++ [x], nodup_concat h⟩

/-- `setTypeAdd`. An array is given up for a string that is no integer, and when it gets longer
than `server.set_max_intset_entries`. -/
def setTypeAdd (maxEntries : ℕ) (o : EncSet) (x : Sds) : EncSet :=
  match o with
  | .ht d => .ht (RemoveWin.setTypeAdd d x)
  | .intset s =>
    match h : string2ll x with
    | some v =>
      match s.add v with
      | (s', true) => if s'.elems.length > maxEntries then .ht s'.convert else .intset s'
      | (s', false) => .intset s'
    | none => .ht (dictAdd s.convert x (Intset.notMem_convert h))

/-- `setTypeIsMember`. -/
def setTypeIsMember (o : EncSet) (x : Sds) : Bool :=
  match o with
  | .ht d => RemoveWin.setTypeIsMember d x
  | .intset s =>
    match string2ll x with
    | some v => s.find v
    | none => false

/-- What `setTypeNext` returns from the beginning to the end of an iteration. -/
def setTypeNext (it : Iteration) : EncSet → List SetElem
  | .ht d => (it.order d.elems).map .str
  | .intset s => s.elems.map .int

theorem mem_convert_add (s : Intset) {v : Int64} {x y : Sds} (hx : string2ll x = some v) :
    y ∈ (s.add v).1.convert ↔ y = x ∨ y ∈ s.convert := by
  simp only [Intset.mem_convert, Intset.mem_add]
  constructor
  · rintro ⟨w, hw, rfl | hmem⟩
    · rw [← sdsfromlonglong_of_string2ll hw, ← sdsfromlonglong_of_string2ll hx]
      exact .inl rfl
    · exact .inr ⟨w, hw, hmem⟩
  · rintro (rfl | ⟨w, hw, hmem⟩)
    · exact ⟨v, hx, .inl rfl⟩
    · exact ⟨w, hw, .inr hmem⟩

/-- **`setTypeAdd` adds a member**, whatever the encoding before and after. -/
theorem mem_setTypeAdd {maxEntries : ℕ} {o : EncSet} {x y : Sds} :
    y ∈ (setTypeAdd maxEntries o x).members ↔ y = x ∨ y ∈ o.members := by
  cases o with
  | ht d => exact RemoveWin.mem_setTypeAdd
  | intset s =>
    rw [setTypeAdd]
    split
    · next v hx =>
      have hadd := mem_convert_add s (y := y) hx
      split
      · next s' hs' =>
        rw [hs'] at hadd
        split_ifs
        · exact hadd
        · exact hadd
      · next s' hs' =>
        rw [hs'] at hadd
        exact hadd
    · show y ∈ s.convert.elems ++ [x] ↔ _
      rw [List.mem_append, List.mem_singleton, or_comm]
      rfl

theorem mem_foldl_setTypeAdd {maxEntries : ℕ} {l : List Sds} {o : EncSet} {y : Sds} :
    y ∈ (l.foldl (setTypeAdd maxEntries) o).members ↔ y ∈ l ∨ y ∈ o.members := by
  induction l generalizing o with
  | nil => simp
  | cons x l ih =>
    rw [List.foldl_cons, ih, mem_setTypeAdd, List.mem_cons, or_left_comm, or_assoc]

@[simp] theorem setTypeIsMember_iff {o : EncSet} {x : Sds} :
    setTypeIsMember o x = true ↔ x ∈ o.members := by
  cases o with
  | ht d => exact RemoveWin.setTypeIsMember_iff
  | intset s =>
    show (match string2ll x with
      | some v => s.find v
      | none => false) = true ↔ x ∈ s.convert
    rw [Intset.mem_convert]
    cases string2ll x with
    | none => simp
    | some v => simp [Intset.find]

theorem mem_setTypeNext {it : Iteration} {o : EncSet} {x : Sds} :
    x ∈ (setTypeNext it o).map SetElem.text ↔ x ∈ o.members := by
  cases o with
  | ht d =>
    rw [setTypeNext, List.map_map]
    show x ∈ (it.order d.elems).map id ↔ x ∈ d
    rw [List.map_id, Iteration.mem_order, SetObj.mem_elems]
  | intset s =>
    rw [setTypeNext, List.map_map]
    rfl

/-! ### The set algebra -/

/-- What a key holds: a set, or a value of another type as in `RObj`. -/
inductive EncObj where
  | set (o : EncSet)
  | other (fields : Option SetObj)

/-- What the set operations find in an object. -/
def EncObj.asSet : EncObj → Option EncSet
  | .set o => some o
  | .other fields => fields.map .ht

/-- A key space with encodings. -/
abbrev EncKeys := Sds → Option EncObj

/-- The member strings of the set at a key, none when the key is absent. -/
def EncKeys.sets (ks : EncKeys) (k : Sds) : Set Sds :=
  {x | ∃ o, ks k = some (.set o) ∧ x ∈ o.members}

section

variable (maxEntries : ℕ) (it : Iteration) (ks : EncKeys)

/-- `sunionResult`. -/
def sunionResult : List Sds → EncSet → EncSet × List Reply
  | [], dst => (dst, [])
  | k :: keys, dst =>
    match ks k with
    | none => sunionResult keys dst
    | some (.other _) => (dst, [.wrongtypeerr])
    | some (.set o) =>
      sunionResult keys (((setTypeNext it o).map SetElem.text).foldl (setTypeAdd maxEntries) dst)

/-- `sdiffResult`. -/
def sdiffResult (first : Sds) (rest : List Sds) (dst : EncSet) : Option (EncSet × List Reply) :=
  match ks first with
  | none => some (dst, [])
  | some obj =>
    let (unionSet, replies) := sunionResult maxEntries it ks rest createIntsetObject
    match obj.asSet with
    | none => none
    | some o =>
      some ((((setTypeNext it o).map SetElem.text).filter fun x =>
        !setTypeIsMember unionSet x).foldl (setTypeAdd maxEntries) dst, replies)

/-- The test of `sinterResult` that an element is in one source, by the encodings of the two. -/
def sinterFind (cur : EncSet) : SetElem → Bool
  | .int v =>
    match cur with
    | .intset s => s.find v
    | .ht _ => setTypeIsMember cur (sdsfromlonglong v)
  | .str x => setTypeIsMember cur x

/-- The inner loop of `sinterResult`, over the sources after the first. -/
def sinterTest (e : SetElem) : List Sds → InterTest
  | [] => .all
  | k :: keys =>
    match ks k with
    | none => .abort []
    | some (.other _) => .abort [.wrongtypeerr]
    | some (.set cur) => if sinterFind cur e then sinterTest e keys else .miss

/-- The outer loop of `sinterResult`, over the elements of the first source. -/
def sinterLoop (rest : List Sds) : List SetElem → EncSet → EncSet × List Reply
  | [], dst => (dst, [])
  | e :: es, dst =>
    match sinterTest ks e rest with
    | .all => sinterLoop rest es (setTypeAdd maxEntries dst e.text)
    | .miss => sinterLoop rest es dst
    | .abort replies => (dst, replies)

/-- `sinterResult`. -/
def sinterResult (first : Sds) (rest : List Sds) (dst : EncSet) : EncSet × List Reply :=
  match ks first with
  | none => (dst, [])
  | some (.other _) => (dst, [.wrongtypeerr])
  | some (.set o) => sinterLoop maxEntries ks rest (setTypeNext it o) dst

end

/-- Each of the keys is absent or holds a set. -/
def EncKeys.SetsAt (ks : EncKeys) (keys : List Sds) : Prop :=
  ∀ k ∈ keys, ∀ fields, ks k ≠ some (.other fields)

section

variable {maxEntries : ℕ} {it : Iteration} {ks : EncKeys} {k x : Sds} {keys rest : List Sds}
  {dst : EncSet}

theorem EncKeys.SetsAt.tail (h : ks.SetsAt (k :: keys)) : ks.SetsAt keys :=
  fun k' hk' => h k' (List.mem_cons_of_mem k hk')

theorem EncKeys.SetsAt.head (h : ks.SetsAt (k :: keys)) :
    ks k = none ∧ ks.sets k = ∅ ∨
      ∃ o, ks k = some (.set o) ∧ ∀ x, x ∈ ks.sets k ↔ x ∈ o.members := by
  cases hk : ks k with
  | none =>
    refine .inl ⟨rfl, Set.eq_empty_of_forall_notMem fun x hx => ?_⟩
    obtain ⟨o, ho, -⟩ := hx
    rw [hk] at ho
    cases ho
  | some obj =>
    cases obj with
    | other fields => exact absurd hk (h k List.mem_cons_self fields)
    | set o =>
      refine .inr ⟨o, rfl, fun x => ⟨fun hx => ?_, fun hx => ⟨o, hk, hx⟩⟩⟩
      obtain ⟨o', ho', hx⟩ := hx
      obtain rfl : o = o' := by simpa [hk] using ho'
      exact hx

theorem mem_sunionResult (h : ks.SetsAt keys) :
    x ∈ (sunionResult maxEntries it ks keys dst).1.members ↔
      x ∈ dst.members ∨ ∃ k ∈ keys, x ∈ ks.sets k := by
  induction keys generalizing dst with
  | nil => simp [sunionResult]
  | cons k keys ih =>
    simp only [sunionResult, List.exists_mem_cons_iff]
    obtain ⟨hk, hempty⟩ | ⟨o, hk, hsets⟩ := h.head
    · simp [hk, ih h.tail, hempty]
    · simp only [hk, ih h.tail, mem_foldl_setTypeAdd, mem_setTypeNext, hsets]
      rw [or_assoc, or_left_comm]

theorem mem_sdiffResult {first : Sds} (h : ks.SetsAt (first :: rest)) :
    ∃ o replies, sdiffResult maxEntries it ks first rest dst = some (o, replies) ∧
      ∀ x, x ∈ o.members ↔ x ∈ dst.members ∨ x ∈ ks.sets first ∧ ∀ k ∈ rest, x ∉ ks.sets k := by
  rw [sdiffResult]
  obtain ⟨hk, hempty⟩ | ⟨o, hk, hsets⟩ := h.head
  · rw [hk]
    exact ⟨_, _, rfl, fun x => by simp [hempty]⟩
  · rw [hk]
    refine ⟨_, _, rfl, fun x => ?_⟩
    have hunion : ∀ y, setTypeIsMember
        (sunionResult maxEntries it ks rest createIntsetObject).1 y = true ↔
          ∃ k ∈ rest, y ∈ ks.sets k := by
      intro y
      rw [setTypeIsMember_iff, mem_sunionResult h.tail, or_iff_right]
      exact List.not_mem_nil
    rw [mem_foldl_setTypeAdd, List.mem_filter, mem_setTypeNext, Bool.not_eq_true',
      Bool.eq_false_iff, Ne, hunion, ← hsets, or_comm]
    simp only [not_exists, not_and]

/-- **The tests for each pair of encodings agree.** -/
theorem sinterFind_iff {cur : EncSet} {e : SetElem} :
    sinterFind cur e = true ↔ e.text ∈ cur.members := by
  cases e with
  | str x => exact setTypeIsMember_iff
  | int v =>
    cases cur with
    | ht d => exact setTypeIsMember_iff (o := .ht d)
    | intset s =>
      show s.find v = true ↔ sdsfromlonglong v ∈ s.convert
      rw [Intset.mem_convert, string2ll_sdsfromlonglong]
      simp [Intset.find]

/-- An element passes if it is in all sources, and the function is left early only if a source is
absent. -/
theorem sinterTest_spec (h : ks.SetsAt keys) (e : SetElem) :
    (sinterTest ks e keys = .all ↔ ∀ k ∈ keys, e.text ∈ ks.sets k) ∧
      ∀ replies, sinterTest ks e keys = .abort replies → ∃ k ∈ keys, ks.sets k = ∅ := by
  induction keys with
  | nil => simp [sinterTest]
  | cons k keys ih =>
    simp only [sinterTest, List.forall_mem_cons]
    obtain ⟨hk, hempty⟩ | ⟨o, hk, hsets⟩ := h.head
    · simp [hk, hempty]
    · obtain ⟨hall, habort⟩ := ih h.tail
      simp only [hk, sinterFind_iff, hsets]
      by_cases he : e.text ∈ o.members
      · rw [if_pos he, hall]
        refine ⟨(and_iff_right he).symm, fun replies hr => ?_⟩
        obtain ⟨k', hk', hempty⟩ := habort replies hr
        exact ⟨k', List.mem_cons_of_mem k hk', hempty⟩
      · rw [if_neg he]
        simp [he]

theorem mem_sinterLoop (h : ks.SetsAt rest) {es : List SetElem} :
    x ∈ (sinterLoop maxEntries ks rest es dst).1.members ↔
      x ∈ dst.members ∨ x ∈ es.map SetElem.text ∧ ∀ k ∈ rest, x ∈ ks.sets k := by
  induction es generalizing dst with
  | nil => simp [sinterLoop]
  | cons e es ih =>
    obtain ⟨hall, habort⟩ := sinterTest_spec h e
    rw [sinterLoop, List.map_cons, List.mem_cons]
    cases htest : sinterTest ks e rest with
    | all =>
      have he := hall.mp htest
      show x ∈ (sinterLoop maxEntries ks rest es (setTypeAdd maxEntries dst e.text)).1.members ↔ _
      rw [ih, mem_setTypeAdd]
      constructor
      · rintro ((rfl | hx) | ⟨hx, hr⟩)
        · exact .inr ⟨.inl rfl, he⟩
        · exact .inl hx
        · exact .inr ⟨.inr hx, hr⟩
      · rintro (hx | ⟨rfl | hx, hr⟩)
        · exact .inl (.inr hx)
        · exact .inl (.inl rfl)
        · exact .inr ⟨hx, hr⟩
    | miss =>
      have he : ¬ ∀ k ∈ rest, e.text ∈ ks.sets k := fun he => by
        rw [hall.mpr he] at htest
        cases htest
      show x ∈ (sinterLoop maxEntries ks rest es dst).1.members ↔ _
      rw [ih]
      refine or_congr_right (and_congr_left fun hr => ⟨.inr, fun hx => hx.resolve_left ?_⟩)
      rintro rfl
      exact he hr
    | abort replies =>
      -- an absent source leaves nothing to add, neither now nor later
      obtain ⟨k, hk, hempty⟩ := habort replies htest
      show x ∈ dst.members ↔ _
      refine (or_iff_left fun hx => ?_).symm
      have hx := hx.2 k hk
      rw [hempty] at hx
      exact hx

theorem mem_sinterResult {first : Sds} (h : ks.SetsAt (first :: rest)) :
    x ∈ (sinterResult maxEntries it ks first rest dst).1.members ↔
      x ∈ dst.members ∨ ∀ k ∈ first :: rest, x ∈ ks.sets k := by
  rw [List.forall_mem_cons, sinterResult]
  obtain ⟨hk, hempty⟩ | ⟨o, hk, hsets⟩ := h.head
  · simp [hk, hempty]
  · have hloop : x ∈ (sinterLoop maxEntries ks rest (setTypeNext it o) dst).1.members ↔ _ :=
      mem_sinterLoop h.tail
    rw [mem_setTypeNext, ← hsets] at hloop
    rw [hk]
    exact hloop

end

end Encoded

namespace Encoded

/-- The key space of `SetType`, which knows members only. -/
def EncKeys.plain (ks : EncKeys) : Keys := fun k =>
  (ks k).map fun obj =>
    match obj with
    | .set o => .set o.members
    | .other fields => .other fields

section

variable {ks : EncKeys} (h : ks.plain.OnlySets)

include h

theorem EncKeys.setsAt_of_onlySets (keys : List Sds) : ks.SetsAt keys := by
  intro k _ fields hk
  refine h k fields ?_
  rw [EncKeys.plain, hk]
  rfl

theorem EncKeys.mem_sets_iff_mem_visible {k x : Sds} :
    x ∈ ks.sets k ↔ x ∈ ks.plain.visible k := by
  obtain ⟨hk, hempty⟩ | ⟨o, hk, hsets⟩ := (EncKeys.setsAt_of_onlySets h [k]).head
  · have hplain : ks.plain k = none := by rw [EncKeys.plain, hk]; rfl
    rw [hempty, Keys.visible_of_none hplain]
    exact iff_of_false (Set.notMem_empty x) List.not_mem_nil
  · have hplain : ks.plain k = some (.set o.members) := by rw [EncKeys.plain, hk]; rfl
    rw [hsets, Keys.mem_visible_set hplain]

/-- **`SetType` is what both encodings stand for**: the functions there give the members of the
results here. -/
theorem refines_setType (maxEntries : ℕ) (it : Iteration) (srv : Server) (first : Sds)
    (rest : List Sds) (x : Sds) :
    (x ∈ (sunionResult maxEntries it ks (first :: rest) createIntsetObject).1.members ↔
        x ∈ (RemoveWin.sunionResult srv ks.plain (first :: rest) .empty).1) ∧
      (x ∈ (sinterResult maxEntries it ks first rest createIntsetObject).1.members ↔
        x ∈ (RemoveWin.sinterResult srv ks.plain first rest .empty).1) ∧
      ∃ o o' replies replies',
        sdiffResult maxEntries it ks first rest createIntsetObject = some (o, replies) ∧
        RemoveWin.sdiffResult srv ks.plain first rest .empty = some (o', replies') ∧
        (x ∈ o.members ↔ x ∈ o') := by
  have hat := EncKeys.setsAt_of_onlySets h (first :: rest)
  have hempty : x ∉ createIntsetObject.members := List.not_mem_nil
  refine ⟨?_, ?_, ?_⟩
  · rw [mem_sunionResult hat, h.mem_sunionResult, or_iff_right hempty,
      or_iff_right (SetObj.notMem_empty x)]
    simp only [EncKeys.mem_sets_iff_mem_visible h]
  · rw [mem_sinterResult hat, h.mem_sinterResult, or_iff_right hempty, List.forall_mem_cons]
    simp only [EncKeys.mem_sets_iff_mem_visible h]
  · obtain ⟨o, replies, heq, ho⟩ := mem_sdiffResult hat
    obtain ⟨o', replies', heq', ho'⟩ := h.mem_sdiffResult srv first rest
    refine ⟨o, o', replies, replies', heq, heq', ?_⟩
    rw [ho, ho', or_iff_right hempty]
    simp only [EncKeys.mem_sets_iff_mem_visible h]

end

end Encoded

/-- **The set algebra does not depend on encodings.** Whatever the encodings of sources that are
absent or hold sets, and from an empty destination in either encoding, the three functions leave the
union, the intersection, and the first without the union of the rest. -/
theorem set_algebra_encoding_independent (maxEntries : ℕ) (it : Iteration)
    (ks : Encoded.EncKeys) (first : Sds) (rest : List Sds) (hks : ks.SetsAt (first :: rest))
    (dst : EncSet) (hdst : ∀ x, x ∉ dst.members) :
    {x | x ∈ (Encoded.sunionResult maxEntries it ks (first :: rest) dst).1.members} =
        ⋃ k ∈ first :: rest, ks.sets k ∧
      {x | x ∈ (Encoded.sinterResult maxEntries it ks first rest dst).1.members} =
        ⋂ k ∈ first :: rest, ks.sets k ∧
      ∃ o replies, Encoded.sdiffResult maxEntries it ks first rest dst = some (o, replies) ∧
        {x | x ∈ o.members} = ks.sets first \ ⋃ k ∈ rest, ks.sets k := by
  refine ⟨?_, ?_, ?_⟩
  · ext x
    rw [Set.mem_ofPred_eq, Encoded.mem_sunionResult hks, or_iff_right (hdst x), Set.mem_iUnion₂]
    simp only [exists_prop]
  · ext x
    rw [Set.mem_ofPred_eq, Encoded.mem_sinterResult hks, or_iff_right (hdst x), Set.mem_iInter₂]
  · obtain ⟨o, replies, heq, ho⟩ := Encoded.mem_sdiffResult hks
    refine ⟨o, replies, heq, ?_⟩
    ext x
    rw [Set.mem_ofPred_eq, ho, or_iff_right (hdst x), Set.mem_sdiff, Set.mem_iUnion₂]
    simp only [exists_prop, not_exists, not_and]

/-- The array `7` at one key, the hash table `7`, `x` at another, and nothing elsewhere. -/
def mixedEncodings : Encoded.EncKeys := fun k =>
  if k = bytes [97] then
    some (.set (Encoded.setTypeAdd 512 Encoded.createIntsetObject (bytes [55])))
  else if k = bytes [98] then
    some (.set
      ([bytes [55], bytes [120]].foldl (Encoded.setTypeAdd 512) Encoded.createIntsetObject))
  else none

/-- The array and the hash table have `7` in common, and nothing is left if a third source is
absent. -/
theorem set_algebra_encoding_independent_mixed :
    [55] ∈ (Encoded.sinterResult 512 .insertion mixedEncodings [97] [[98]]
        Encoded.createIntsetObject).1.members ∧
      {x | x ∈ (Encoded.sinterResult 512 .insertion mixedEncodings [97] [[98], [99]]
        Encoded.createIntsetObject).1.members} =
      ⋂ k ∈ [[97], [98], [99]], mixedEncodings.sets k := by
  refine ⟨by decide, (set_algebra_encoding_independent 512 .insertion mixedEncodings [97]
    [[98], [99]] ?_ Encoded.createIntsetObject fun x => List.not_mem_nil).2.1⟩
  intro k _ fields hk
  rw [mixedEncodings] at hk
  split_ifs at hk <;> cases hk

end RemoveWin
