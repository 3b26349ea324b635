import RemoveWin.Server

/-!
# Set objects and the set algebra of the store commands

`t_set.c` keeps a set either as a sorted array of integers or as a hash table of strings. Both
represent a set of byte strings, and that is what a `SetObj` is: its members without repetition.
The three store commands of every family share `sunionResult`, `sinterResult` and `sdiffResult`
of `t_rwset.c`, which read the key space, write into a scratch set and reply to the client on
their own when a source has the wrong type.

## Replies and crashes

A handler's outcome lists the replies it sent, in order, so that a handler which replies twice
or not at all can be told from one that replies once. A `none` outcome is a handler that never
completes: a panic, or a `NULL` pointer followed.
-/

namespace RemoveWin

/-! ### Set objects -/

/-- A set object: its members, each once. -/
@[ext] structure SetObj where
  /-- The members, in the order they were added. -/
  elems : List Sds
  /-- No member is listed twice. -/
  nodup : elems.Nodup
  deriving DecidableEq

namespace SetObj

instance : Membership Sds SetObj := ⟨fun o x => x ∈ o.elems⟩

instance (x : Sds) (o : SetObj) : Decidable (x ∈ o) := inferInstanceAs (Decidable (x ∈ o.elems))

/-- A fresh set, in whatever encoding. -/
def empty : SetObj := ⟨[], List.nodup_nil⟩

@[simp] theorem mem_elems {x : Sds} {o : SetObj} : x ∈ o.elems ↔ x ∈ o := Iff.rfl

@[simp] theorem notMem_empty (x : Sds) : x ∉ empty := List.not_mem_nil

end SetObj

/-- `setTypeAdd`. -/
def setTypeAdd (o : SetObj) (x : Sds) : SetObj :=
  if h : x ∈ o then o
  else ⟨o.elems ++ [x], o.nodup.append (List.nodup_singleton x) (by simpa using h)⟩

/-- `setTypeRemove`. -/
def setTypeRemove (o : SetObj) (x : Sds) : SetObj :=
  ⟨o.elems.filter (· ≠ x), o.nodup.filter _⟩

/-- `setTypeIsMember`. -/
def setTypeIsMember (o : SetObj) (x : Sds) : Bool := x ∈ o

/-- `setTypeSize`. -/
def setTypeSize (o : SetObj) : ℕ := o.elems.length

@[simp] theorem mem_setTypeAdd {o : SetObj} {x y : Sds} : y ∈ setTypeAdd o x ↔ y = x ∨ y ∈ o := by
  unfold setTypeAdd
  split
  · next h => exact ⟨.inr, fun hy => hy.elim (fun he => he ▸ h) id⟩
  · rw [← SetObj.mem_elems, List.mem_append, List.mem_singleton, SetObj.mem_elems, or_comm]

@[simp] theorem mem_setTypeRemove {o : SetObj} {x y : Sds} :
    y ∈ setTypeRemove o x ↔ y ≠ x ∧ y ∈ o := by
  rw [← SetObj.mem_elems]
  simp [setTypeRemove, and_comm]

@[simp] theorem setTypeIsMember_iff {o : SetObj} {x : Sds} : setTypeIsMember o x = true ↔ x ∈ o :=
  decide_eq_true_iff

theorem setTypeSize_eq_zero_iff {o : SetObj} : setTypeSize o = 0 ↔ ∀ x, x ∉ o := by
  rw [setTypeSize, List.length_eq_zero_iff, List.eq_nil_iff_forall_not_mem]
  rfl

theorem mem_foldl_setTypeAdd {l : List Sds} {o : SetObj} {y : Sds} :
    y ∈ l.foldl setTypeAdd o ↔ y ∈ l ∨ y ∈ o := by
  induction l generalizing o with
  | nil => simp
  | cons x l ih => simp [ih, or_assoc, or_left_comm]

/-! ### Keys and replies -/

/-- What a key holds: a set, or a value of another type. Of the latter only a hash that is kept in
a hash table has something that passes for members, which are its fields. -/
inductive RObj where
  | set (o : SetObj)
  | other (fields : Option SetObj)

/-- What the set operations find in an object. They go by its encoding and not by its type, and
panic if it is not one of a set. -/
def RObj.asSet : RObj → Option SetObj
  | .set o => some o
  | .other fields => fields

/-- The key space of a database. -/
abbrev Keys := Sds → Option RObj

/-- The shared replies a handler may send. -/
inductive Reply where
  | ok
  | czero
  | wrongtypeerr
  | eleExist
  | eleNexist
  | emptymultibulk
  | err
  deriving DecidableEq, Repr

/-- What a prepare phase leaves behind when it completes. -/
structure Prepared (σ Msg : Type) where
  /-- The database, which the prepare phase may have given new metadata. -/
  state : σ
  /-- The replies sent, in order. -/
  replies : List Reply
  /-- The message to broadcast, if the command is accepted. -/
  msg : Option Msg

/-- The members of the set at a key, none when the key is absent. -/
def Keys.visible (ks : Keys) (k : Sds) : List Sds :=
  match ks k with
  | some (.set o) => o.elems
  | _ => []

/-- `getSetOrCreate`, then an update of the set it returned. A value of another type is updated as
the set operations see it, or left alone where they panic; such a value cannot appear when keys are
used only through the set commands (`Keys.OnlySets`). -/
def Keys.modifySet (ks : Keys) (k : Sds) (f : SetObj → SetObj) : Keys :=
  Function.update ks k <|
    match ks k with
    | none => some (.set (f .empty))
    | some (.set o) => some (.set (f o))
    | some (.other fields) => some (.other (fields.map f))

/-- Every key holds a set, if anything. -/
def Keys.OnlySets (ks : Keys) : Prop := ∀ k fields, ks k ≠ some (.other fields)

theorem Keys.OnlySets.eq_set {ks : Keys} (h : ks.OnlySets) {k : Sds} {o : SetObj}
    (hk : (ks k).bind RObj.asSet = some o) : ks k = some (.set o) := by
  obtain ⟨obj, hobj, ho⟩ := Option.bind_eq_some_iff.mp hk
  cases obj with
  | set o' => rw [hobj, Option.some.inj ho]
  | other fields => exact absurd hobj (h k fields)

theorem Keys.OnlySets.modifySet {ks : Keys} (h : ks.OnlySets) (k : Sds) (f : SetObj → SetObj) :
    (ks.modifySet k f).OnlySets := by
  intro k'
  unfold Keys.modifySet
  by_cases hk : k' = k
  · subst hk
    rw [Function.update_self]
    split
    · simp
    · simp
    · next ho => exact absurd ho (h k' _)
  · rw [Function.update_of_ne hk]
    exact h k'

theorem Keys.mem_visible_set {ks : Keys} {k x : Sds} {o : SetObj} (h : ks k = some (.set o)) :
    x ∈ ks.visible k ↔ x ∈ o := by
  simp [Keys.visible, h]

theorem Keys.visible_of_none {ks : Keys} {k : Sds} (h : ks k = none) : ks.visible k = [] := by
  simp [Keys.visible, h]

theorem Keys.visible_modifySet_of_ne (ks : Keys) {k k' : Sds} (f : SetObj → SetObj)
    (h : k' ≠ k) : (ks.modifySet k f).visible k' = ks.visible k' := by
  simp [Keys.visible, Keys.modifySet, Function.update_of_ne h]

theorem Keys.OnlySets.mem_visible_modifySet {ks : Keys} (h : ks.OnlySets) (k : Sds)
    {f : SetObj → SetObj} {x : Sds} {p : Prop → Prop} (hf : ∀ o : SetObj, x ∈ f o ↔ p (x ∈ o)) :
    x ∈ (ks.modifySet k f).visible k ↔ p (x ∈ ks.visible k) := by
  cases hk : ks k with
  | none => simp [Keys.visible, Keys.modifySet, hk, hf]
  | some o =>
    cases o with
    | set o => simp [Keys.visible, Keys.modifySet, hk, hf]
    | other fields => exact absurd hk (h k fields)

/-! ### The set algebra -/

/-- `sunionResult`: add every source to the scratch set, up to a source of the wrong type, for
which it replies and stops. -/
def sunionResult (srv : Server) (ks : Keys) : List Sds → SetObj → SetObj × List Reply
  | [], dst => (dst, [])
  | k :: keys, dst =>
    match ks k with
    | none => sunionResult srv ks keys dst
    | some (.other _) => (dst, [.wrongtypeerr])
    | some (.set o) => sunionResult srv ks keys ((srv.iter.order o.elems).foldl setTypeAdd dst)

theorem Keys.OnlySets.mem_sunionResult {srv : Server} {ks : Keys} (h : ks.OnlySets) {x : Sds} :
    ∀ {keys : List Sds} {dst : SetObj},
      x ∈ (sunionResult srv ks keys dst).1 ↔ x ∈ dst ∨ ∃ k ∈ keys, x ∈ ks.visible k := by
  intro keys
  induction keys with
  | nil => simp [sunionResult]
  | cons k keys ih =>
    intro dst
    simp only [sunionResult, List.exists_mem_cons_iff]
    cases hk : ks k with
    | none => simp [ih, Keys.visible_of_none hk]
    | some o =>
      cases o with
      | set o => simp [ih, mem_foldl_setTypeAdd, Keys.mem_visible_set hk, or_assoc, or_left_comm]
      | other fields => exact absurd hk (h k fields)

/-- `sdiffResult`: the first source without the union of the rest. The type of the first source
is not checked before it is iterated. -/
def sdiffResult (srv : Server) (ks : Keys) (first : Sds) (rest : List Sds) (dst : SetObj) :
    Option (SetObj × List Reply) :=
  match ks first with
  | none => some (dst, [])
  | some obj =>
    let (unionSet, replies) := sunionResult srv ks rest .empty
    match obj.asSet with
    | none => none
    | some o =>
      some (((srv.iter.order o.elems).filter fun x => !setTypeIsMember unionSet x).foldl
        setTypeAdd dst, replies)

theorem Keys.OnlySets.mem_sdiffResult {ks : Keys} (h : ks.OnlySets) (srv : Server) (first : Sds)
    (rest : List Sds) : ∃ o replies, sdiffResult srv ks first rest .empty = some (o, replies) ∧
      ∀ x, x ∈ o ↔ x ∈ ks.visible first ∧ ∀ k ∈ rest, x ∉ ks.visible k := by
  rw [sdiffResult]
  cases hk : ks first with
  | none => exact ⟨_, _, rfl, fun x => by simp [Keys.visible_of_none hk]⟩
  | some obj =>
    cases obj with
    | other fields => exact absurd hk (h first fields)
    | set o =>
      refine ⟨_, _, rfl, fun x => ?_⟩
      simp only [mem_foldl_setTypeAdd, List.mem_filter, Iteration.mem_order, SetObj.mem_elems,
        Bool.not_eq_true', Bool.eq_false_iff, Ne, setTypeIsMember_iff, h.mem_sunionResult,
        SetObj.notMem_empty, or_false, false_or, Keys.mem_visible_set hk, not_exists, not_and]

/-- How the inner loop of `sinterResult` leaves one element: in all sources, missing from one,
or at a source that ends the whole function. -/
inductive InterTest where
  | all
  | miss
  | abort (replies : List Reply)

/-- The inner loop of `sinterResult`, over the sources after the first. -/
def sinterTest (ks : Keys) (x : Sds) : List Sds → InterTest
  | [] => .all
  | k :: keys =>
    match ks k with
    | none => .abort []
    | some (.other _) => .abort [.wrongtypeerr]
    | some (.set o) => if setTypeIsMember o x then sinterTest ks x keys else .miss

/-- An element that is in all sources passes, and the function is left early only if a source is
absent. -/
theorem Keys.OnlySets.sinterTest_spec {ks : Keys} (h : ks.OnlySets) (x : Sds) (keys : List Sds) :
    (sinterTest ks x keys = .all ↔ ∀ k ∈ keys, x ∈ ks.visible k) ∧
      ∀ replies, sinterTest ks x keys = .abort replies → ∃ k ∈ keys, ks.visible k = [] := by
  induction keys with
  | nil => simp [sinterTest]
  | cons k keys ih =>
    simp only [sinterTest, List.forall_mem_cons]
    cases hk : ks k with
    | none => simp [Keys.visible_of_none hk]
    | some obj =>
      cases obj with
      | other fields => exact absurd hk (h k fields)
      | set o =>
        simp only [setTypeIsMember_iff, Keys.mem_visible_set hk]
        by_cases hx : x ∈ o
        · rw [if_pos hx]
          refine ⟨by simp [hx, ih.1], fun replies hr => ?_⟩
          obtain ⟨k', hk', he⟩ := ih.2 replies hr
          exact ⟨k', List.mem_cons_of_mem k hk', he⟩
        · rw [if_neg hx]
          simp [hx]

/-- The outer loop of `sinterResult`, over the elements of the first source. -/
def sinterLoop (ks : Keys) (rest : List Sds) : List Sds → SetObj → SetObj × List Reply
  | [], dst => (dst, [])
  | x :: xs, dst =>
    match sinterTest ks x rest with
    | .all => sinterLoop ks rest xs (setTypeAdd dst x)
    | .miss => sinterLoop ks rest xs dst
    | .abort replies => (dst, replies)

/-- `sinterResult`: the elements of the first source that every other source has. -/
def sinterResult (srv : Server) (ks : Keys) (first : Sds) (rest : List Sds) (dst : SetObj) :
    SetObj × List Reply :=
  match ks first with
  | none => (dst, [])
  | some (.other _) => (dst, [.wrongtypeerr])
  | some (.set o) => sinterLoop ks rest (srv.iter.order o.elems) dst

theorem Keys.OnlySets.mem_sinterLoop {ks : Keys} (h : ks.OnlySets) {rest : List Sds} {x : Sds} :
    ∀ {xs : List Sds} {dst : SetObj}, x ∈ (sinterLoop ks rest xs dst).1 ↔
      x ∈ dst ∨ (x ∈ xs ∧ ∀ k ∈ rest, x ∈ ks.visible k) := by
  intro xs
  induction xs with
  | nil => simp [sinterLoop]
  | cons y xs ih =>
    intro dst
    obtain ⟨hall, habort⟩ := h.sinterTest_spec y rest
    simp only [sinterLoop, List.mem_cons]
    cases htest : sinterTest ks y rest with
    | all =>
      have hy := hall.mp htest
      simp only [ih, mem_setTypeAdd]
      constructor
      · rintro ((rfl | hx) | hx)
        · exact .inr ⟨.inl rfl, hy⟩
        · exact .inl hx
        · exact .inr ⟨.inr hx.1, hx.2⟩
      · rintro (hx | ⟨rfl | hx, hr⟩)
        · exact .inl (.inr hx)
        · exact .inl (.inl rfl)
        · exact .inr ⟨hx, hr⟩
    | miss =>
      have hy : ¬ ∀ k ∈ rest, y ∈ ks.visible k := fun hy => by
        rw [hall.mpr hy] at htest
        cases htest
      simp only [ih]
      refine or_congr_right (and_congr_left fun hr => ⟨.inr, fun hx => hx.resolve_left ?_⟩)
      rintro rfl
      exact hy hr
    | abort replies =>
      -- a source is absent, so the intersection is empty
      obtain ⟨k, hk, he⟩ := habort replies htest
      refine ⟨.inl, fun hx => hx.resolve_right fun hr => ?_⟩
      have hxk := hr.2 k hk
      rw [he] at hxk
      cases hxk

theorem Keys.OnlySets.mem_sinterResult {srv : Server} {ks : Keys} (h : ks.OnlySets) {first : Sds}
    {rest : List Sds} {x : Sds} : x ∈ (sinterResult srv ks first rest .empty).1 ↔
      x ∈ ks.visible first ∧ ∀ k ∈ rest, x ∈ ks.visible k := by
  rw [sinterResult]
  cases hk : ks first with
  | none => simp [Keys.visible_of_none hk]
  | some obj =>
    cases obj with
    | other fields => exact absurd hk (h first fields)
    | set o => simp [h.mem_sinterLoop, Keys.mem_visible_set hk]

end RemoveWin
