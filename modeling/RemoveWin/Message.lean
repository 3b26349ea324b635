import RemoveWin.Sds

/-!
# Building a message

`CRDT.h`. A prepare phase collects the arguments it adds to a message in an `rvector`, an array
that is doubled when it is full. If the phase is completed, `c->rargv` becomes the arguments of
the client followed by those of the vector. That is what the effect phase reads, at the origin; and
it is what is sent, so a replica that receives it as its own arguments reads the same.

Sizes are C `int`s. An array for more elements than an `int` can count is asked for with a negative
size, and `zmalloc` gives up the process.
-/

namespace RemoveWin

/-- `INT_MAX`. -/
def intMax : ℕ := 2 ^ 31 - 1

/-- `rvector`. A slot that has not been written has no value. -/
structure RVector where
  /-- The number of slots in use. -/
  size : ℕ
  /-- The number of slots. -/
  capacity : ℕ
  /-- The slots. -/
  vector : List (Option Sds)

/-- `RVCT_PREPARE`: a vector of `INITIAL_CAPACITY`. -/
def rvctPrepare : RVector := ⟨0, 4, List.replicate 4 none⟩

/-- The part of `RARGV_ADD` that makes room: a full vector is copied to one of twice its
capacity. -/
def RVector.makeRoom (v : RVector) : Option RVector :=
  if v.size = v.capacity then
    if v.capacity * 2 ≤ intMax then
      some ⟨v.size, v.capacity * 2,
        v.vector.take v.size ++ List.replicate (v.capacity * 2 - v.size) none⟩
    else none
  else some v

/-- `RARGV_ADD`. -/
def rargvAdd (v : RVector) (obj : Sds) : Option RVector :=
  v.makeRoom.map fun v =>
    { v with vector := v.vector.set v.size (some obj), size := v.size + 1 }

/-- `RVCT_BROADCAST`: `c->rargv`. -/
def rvctBroadcast (argv : List Sds) (v : RVector) : Option (List Sds) :=
  if argv.length + v.size ≤ intMax then ((v.vector.take v.size).mapM id).map (argv ++ ·) else none

/-- The message of a prepare phase that adds arguments one after the other. -/
def rargvOf (argv args : List Sds) : Option (List Sds) :=
  (args.foldlM rargvAdd rvctPrepare).bind (rvctBroadcast argv)

/-- The vector holds a list, in slots that were doubled some number of times. -/
structure RVector.Holds (v : RVector) (l : List Sds) : Prop where
  size : v.size = l.length
  room : v.vector.length = v.capacity
  le : v.size ≤ v.capacity
  doubled : ∃ k, v.capacity = 2 ^ k
  taken : v.vector.take v.size = l.map some

theorem mapM_eq_some_iff {α β : Type} {f : α → Option β} {l : List α} {l' : List β} :
    l.mapM f = some l' ↔ List.Forall₂ (fun a b => f a = some b) l l' := by
  induction l generalizing l' with
  | nil =>
    rw [List.forall₂_nil_left_iff]
    exact Option.some_inj.trans eq_comm
  | cons a l ih =>
    rw [List.mapM_cons, List.forall₂_cons_left_iff]
    constructor
    · intro h
      obtain ⟨b, hb, h⟩ := Option.bind_eq_some_iff.mp h
      obtain ⟨bs, hbs, h⟩ := Option.bind_eq_some_iff.mp h
      exact ⟨b, bs, hb, ih.mp hbs, (Option.some.inj h).symm⟩
    · rintro ⟨b, bs, hb, hbs, rfl⟩
      rw [hb, ih.mpr hbs]
      rfl

theorem eq_map_getD {α β : Type} {f : α → Option β} {l : List α} {l' : List β} (d : β)
    (h : List.Forall₂ (fun a b => f a = some b) l l') : l' = l.map fun a => (f a).getD d := by
  induction h with
  | nil => rfl
  | cons hb _ ih => rw [List.map_cons, hb, Option.getD_some, ← ih]

theorem holds_rvctPrepare : rvctPrepare.Holds [] :=
  ⟨rfl, rfl, Nat.zero_le 4, ⟨2, rfl⟩, rfl⟩

namespace RVector.Holds

variable {v w : RVector} {l : List Sds}

theorem makeRoom (h : v.Holds l) (hw : v.makeRoom = some w) : w.Holds l ∧ w.size < w.capacity := by
  rw [RVector.makeRoom] at hw
  split at hw
  · next hfull =>
    split at hw
    · cases hw
      have hpos : 0 < v.capacity := by
        obtain ⟨k, hk⟩ := h.doubled
        rw [hk]
        exact Nat.two_pow_pos k
      have htake : (v.vector.take v.size).length = v.size := by
        rw [List.length_take, h.room, hfull, min_self]
      refine ⟨⟨h.size, ?_, ?_, ?_, ?_⟩, ?_⟩
      · show (v.vector.take v.size ++ List.replicate (v.capacity * 2 - v.size) none).length =
          v.capacity * 2
        rw [List.length_append, htake, List.length_replicate]
        omega
      · show v.size ≤ v.capacity * 2
        omega
      · obtain ⟨k, hk⟩ := h.doubled
        exact ⟨k + 1, by rw [pow_succ, ← hk]⟩
      · show (v.vector.take v.size ++ List.replicate (v.capacity * 2 - v.size) none).take v.size = _
        rw [List.take_left' htake, h.taken]
      · show v.size < v.capacity * 2
        omega
    · cases hw
  · next hfull =>
    cases hw
    exact ⟨h, lt_of_le_of_ne h.le hfull⟩

/-- **`RARGV_ADD` adds at the end**, whether or not the vector was full. -/
theorem add {obj : Sds} (h : v.Holds l) (hw : rargvAdd v obj = some w) :
    w.Holds (l ++ [obj]) := by
  obtain ⟨u, hu, rfl⟩ := Option.map_eq_some_iff.mp hw
  obtain ⟨hu, hlt⟩ := h.makeRoom hu
  refine ⟨?_, ?_, hlt, hu.doubled, ?_⟩
  · show u.size + 1 = _
    rw [hu.size, List.length_append, List.length_singleton]
  · show (u.vector.set u.size (some obj)).length = _
    rw [List.length_set, hu.room]
  · show (u.vector.set u.size (some obj)).take (u.size + 1) = _
    have hslot : u.size < u.vector.length := by rw [hu.room]; exact hlt
    rw [List.take_add_one, List.take_set_of_le le_rfl, hu.taken, List.map_append,
      List.getElem?_set_self hslot]
    rfl

theorem addAll {args : List Sds} (h : v.Holds l) (hw : args.foldlM rargvAdd v = some w) :
    w.Holds (l ++ args) := by
  induction args generalizing v l with
  | nil =>
    cases hw
    rwa [List.append_nil]
  | cons obj args ih =>
    rw [List.foldlM_cons] at hw
    obtain ⟨u, hu, hw⟩ := Option.bind_eq_some_iff.mp hw
    have hall := ih (h.add hu) hw
    rwa [List.append_assoc, List.singleton_append] at hall

/-- There is room for as many arguments as the largest power of two in an `int`. -/
theorem exists_add (h : v.Holds l) (hl : l.length < 2 ^ 30) (obj : Sds) :
    ∃ w, rargvAdd v obj = some w := by
  have hroom : ∃ u, v.makeRoom = some u := by
    rw [RVector.makeRoom]
    split
    · next hfull =>
      obtain ⟨k, hk⟩ := h.doubled
      have hpow : (2 : ℕ) ^ k < 2 ^ 30 := by
        rw [← hk, ← hfull, h.size]
        exact hl
      have hk30 : k + 1 ≤ 30 := (Nat.pow_lt_pow_iff_right (by decide)).mp hpow
      have hle : v.capacity * 2 ≤ 2 ^ 30 := by
        rw [hk, ← pow_succ]
        exact Nat.pow_le_pow_right (by decide) hk30
      rw [if_pos (le_trans hle (by decide))]
      exact ⟨_, rfl⟩
    · exact ⟨_, rfl⟩
  obtain ⟨u, hu⟩ := hroom
  exact ⟨_, by rw [rargvAdd, hu]; rfl⟩

theorem exists_addAll {args : List Sds} (h : v.Holds l) (hl : l.length + args.length ≤ 2 ^ 30) :
    ∃ w, args.foldlM rargvAdd v = some w := by
  induction args generalizing v l with
  | nil => exact ⟨v, rfl⟩
  | cons obj args ih =>
    rw [List.length_cons] at hl
    obtain ⟨u, hu⟩ := h.exists_add (by omega) obj
    obtain ⟨w, hw⟩ := ih (h.add hu) (by rw [List.length_append, List.length_singleton]; omega)
    exact ⟨w, by rw [List.foldlM_cons, hu]; exact hw⟩

theorem broadcast (h : v.Holds l) (argv : List Sds) :
    rvctBroadcast argv v = if argv.length + l.length ≤ intMax then some (argv ++ l) else none := by
  have hslots : (l.map some).mapM id = some l :=
    mapM_eq_some_iff.mpr (List.forall₂_map_left_iff.mpr (List.forall₂_same.mpr fun _ _ => rfl))
  rw [rvctBroadcast, h.taken, h.size, hslots]
  rfl

end RVector.Holds

/-- **A message is the client's arguments and what was added.** -/
theorem eq_append_of_rargvOf {argv args rargv : List Sds} (h : rargvOf argv args = some rargv) :
    rargv = argv ++ args ∧ rargv.length ≤ intMax := by
  obtain ⟨v, hv, h⟩ := Option.bind_eq_some_iff.mp h
  rw [(holds_rvctPrepare.addAll hv).broadcast, List.nil_append] at h
  split at h
  · next hle =>
    cases h
    exact ⟨rfl, by rwa [List.length_append]⟩
  · cases h

theorem rargvOf_eq_append {argv args : List Sds} (h : argv.length + args.length ≤ 2 ^ 30) :
    rargvOf argv args = some (argv ++ args) := by
  have hroom : ([] : List Sds).length + args.length ≤ 2 ^ 30 := by
    rw [List.length_nil]
    omega
  obtain ⟨v, hv⟩ := holds_rvctPrepare.exists_addAll hroom
  rw [rargvOf, hv, Option.bind_some, (holds_rvctPrepare.addAll hv).broadcast, List.nil_append,
    if_pos (le_trans h (by decide))]

end RemoveWin
