import RemoveWin.TextCodec

/-!
# The text of a clock of C `int`s

`VCToSds`, `SdsToVC` and `nowVC` at the types of the source: counters and ids are 32 bits wide, and
`SdsToVC` collects the counters in an array of 100. A text with more of them is written behind the
array, which is not modelled here.

`nowVC` has no clock of its own to print. It raises the counter of the keeper, prints, and lowers
the counter again; between the two the clock is not what it was, and afterwards it is.
-/

namespace RemoveWin

/-- `vc`, with the widths of the source. -/
structure VC32 where
  /-- The counters. -/
  vector : List Int32
  /-- The id of the keeper. -/
  id : Int32
  deriving DecidableEq

/-- The numbers of a clock. -/
def VC32.toVC (c : VC32) : VC := ⟨c.vector.map Int32.toInt, c.id.toInt⟩

/-- The clock in which numbers are stored. -/
def VC32.ofVC (c : VC) : VC32 := ⟨c.vector.map Int32.ofInt, Int32.ofInt c.id⟩

/-- The size of `vc_int_buf`. -/
def vcIntBuf : ℕ := 100

/-- `VCToSds`. -/
def vcToSds32 (c : VC32) : Option Sds := vcToSds c.toVC

/-- `SdsToVC`, as far as the array reaches. -/
def sdsToVC32 (s : Sds) : Option VC32 :=
  (sdsToVC s).bind fun c => if c.size ≤ vcIntBuf then some (.ofVC c) else none

/-- The clock that `nowVC` has in hand while it prints. -/
def VC32.raised (c : VC32) : VC32 :=
  { c with vector := c.vector.modify c.id.toInt.toNat (· + 1) }

/-- `nowVC`: the text, and the clock that is left. A keeper that is not in the clock makes it write
outside of the array. -/
def nowVC32 (c : VC32) : Option (Sds × VC32) :=
  if 0 ≤ c.id.toInt ∧ c.id.toInt.toNat < c.vector.length then
    (vcToSds32 c.raised).map fun s =>
      (s, { c.raised with vector := c.raised.vector.modify c.id.toInt.toNat (· - 1) })
  else none

/-- The text `n₁,n₂,…,nₖ|m`. -/
def clockText (ns : List Int32) (m : Int32) : Sds :=
  [comma].intercalate (ns.map fun n => Decimal.ofInt n.toInt) ++ bar :: Decimal.ofInt m.toInt

@[simp] theorem VC32.ofVC_toVC (c : VC32) : VC32.ofVC c.toVC = c := by
  have hvector : (c.vector.map Int32.toInt).map Int32.ofInt = c.vector := by
    rw [List.map_map]
    exact List.map_id'' (fun n => Int32.ofInt_toInt n) c.vector
  rw [VC32.ofVC, VC32.toVC, hvector, Int32.ofInt_toInt]

theorem intercalate_comma (texts : List Sds) (last : Sds) :
    [comma].intercalate (texts ++ [last]) = (texts.flatMap fun t => t ++ [comma]) ++ last := by
  induction texts with
  | nil => exact List.intercalate_singleton
  | cons t texts ih =>
    rw [List.flatMap_cons, List.append_assoc, ← ih]
    obtain ⟨u, us, hcons⟩ := List.exists_cons_of_ne_nil (List.concat_ne_nil last texts)
    rw [List.cons_append, hcons, List.intercalate_cons_cons]

/-- **What `VCToSds` writes.** -/
theorem vcToSds32_eq {c : VC32} (h : c.vector ≠ []) :
    vcToSds32 c = some (clockText c.vector c.id) := by
  obtain ⟨ns, n, hvector⟩ : ∃ ns n, c.vector = ns ++ [n] :=
    ⟨_, _, (List.dropLast_append_getLast h).symm⟩
  have htoVC : c.toVC = ⟨ns.map Int32.toInt ++ [n.toInt], c.id.toInt⟩ := by
    rw [VC32.toVC, hvector, List.map_append, List.map_singleton]
  rw [vcToSds32, htoVC, vcToSds, clockText, hvector, List.map_append, List.map_singleton,
    intercalate_comma, List.getLast?_concat, Option.map_some, List.dropLast_concat,
    List.append_assoc, List.flatMap_map, List.flatMap_map]

theorem sdsToVC32_clockText {c : VC32} (h : c.vector ≠ []) (hsize : c.vector.length ≤ vcIntBuf) :
    sdsToVC32 (clockText c.vector c.id) = some c := by
  have hread := sdsToVC_vcToSds (vcToSds32_eq h)
  rw [sdsToVC32, hread, Option.bind_some, if_pos, VC32.ofVC_toVC]
  rw [VC.size, VC32.toVC, List.length_map]
  exact hsize

theorem VC32.length_raised (c : VC32) : c.raised.vector.length = c.vector.length :=
  List.length_modify ..

theorem VC32.raised_ne_nil {c : VC32} (h : c.vector ≠ []) : c.raised.vector ≠ [] := by
  rw [← List.length_pos_iff] at h ⊢
  rwa [c.length_raised]

theorem lower_raised (c : VC32) :
    { c.raised with vector := c.raised.vector.modify c.id.toInt.toNat (· - 1) } = c := by
  have hundo : ((· - 1) ∘ (· + 1) : Int32 → Int32) = id := funext fun n => Int32.add_sub_cancel n 1
  rw [VC32.raised, List.modify_modify_eq, hundo, List.modify_id]

/-- `nowVC` prints the raised clock and leaves the clock as it was. -/
theorem nowVC32_eq {c : VC32} (hid : 0 ≤ c.id.toInt) (hlt : c.id.toInt < c.vector.length) :
    nowVC32 c = some (clockText c.raised.vector c.id, c) := by
  have hne : c.vector ≠ [] := List.ne_nil_of_length_pos (by omega)
  rw [nowVC32, if_pos ⟨hid, by omega⟩, vcToSds32_eq (VC32.raised_ne_nil hne), Option.map_some,
    lower_raised]
  rfl

theorem toInt_add_one {n : Int32} (h : n < Int32.maxValue) : (n + 1).toInt = n.toInt + 1 := by
  rw [Int32.lt_iff_toInt_lt, Int32.toInt_maxValue] at h
  have hle := n.le_toInt
  rw [Int32.toInt_add, Int32.toInt_one]
  exact Int.bmod_eq_of_le (by omega) (by omega)

/-- Below the maximum nothing wraps around, and the raised clock is the next one. -/
theorem VC32.toVC_raised {c : VC32}
    (hmax : ∀ n ∈ c.vector[c.id.toInt.toNat]?, n < Int32.maxValue) :
    c.raised.toVC = nowVC c.toVC := by
  rw [nowVC, VC32.toVC, VC32.toVC, VC32.raised]
  congr 1
  refine List.ext_getElem? fun i => ?_
  rw [List.getElem?_map, List.getElem?_modify, List.getElem?_modify, List.getElem?_map]
  cases hn : c.vector[i]? with
  | none => rfl
  | some n =>
    show some (if c.id.toInt.toNat = i then n + 1 else n).toInt =
      some (if c.id.toInt.toNat = i then n.toInt + 1 else n.toInt)
    split_ifs with hi
    · rw [toInt_add_one (hmax n (by rw [hi]; exact hn))]
    · rfl

/-- **Reading and writing clocks undo each other.** A clock that the array of `SdsToVC` holds is
read back from its text, and a text of canonical numbers is what is written for the clock it is read
as. `nowVC` leaves the clock as it was, and what is read from its text is the next clock. -/
theorem clock_text_round_trip :
    (∀ c : VC32, 1 ≤ c.vector.length → c.vector.length ≤ 100 →
      ∃ s, vcToSds32 c = some s ∧ sdsToVC32 s = some c) ∧
    (∀ (ns : List Int32) (m : Int32), 1 ≤ ns.length → ns.length ≤ 100 →
      ∃ c, sdsToVC32 (clockText ns m) = some c ∧ vcToSds32 c = some (clockText ns m)) ∧
    ∀ c : VC32, 0 ≤ c.id.toInt → c.id.toInt < c.vector.length →
      (∀ n ∈ c.vector[c.id.toInt.toNat]?, n < Int32.maxValue) →
      ∃ s, nowVC32 c = some (s, c) ∧
        (c.vector.length ≤ 100 → ∃ c', sdsToVC32 s = some c' ∧ c'.toVC = nowVC c.toVC) := by
  refine ⟨fun c hpos hsize => ?_, fun ns m hpos hsize => ?_, fun c hid hlt hmax => ?_⟩
  · have hne : c.vector ≠ [] := List.ne_nil_of_length_pos hpos
    exact ⟨_, vcToSds32_eq hne, sdsToVC32_clockText hne hsize⟩
  · have hne : ns ≠ [] := List.ne_nil_of_length_pos hpos
    exact ⟨⟨ns, m⟩, sdsToVC32_clockText (c := ⟨ns, m⟩) hne hsize, vcToSds32_eq (c := ⟨ns, m⟩) hne⟩
  · have hne : c.vector ≠ [] := List.ne_nil_of_length_pos (by omega)
    refine ⟨_, nowVC32_eq hid hlt, fun hsize => ⟨c.raised, ?_, VC32.toVC_raised hmax⟩⟩
    exact sdsToVC32_clockText (VC32.raised_ne_nil hne) (by rwa [c.length_raised])

/-- The clock `3,-4|0` of the first of two servers, and the text of the next one. -/
theorem clock_text_round_trip_negative :
    (∃ s, vcToSds32 ⟨[3, -4], 0⟩ = some s ∧ sdsToVC32 s = some ⟨[3, -4], 0⟩) ∧
    (∃ c, sdsToVC32 (clockText [3, -4] 0) = some c ∧
      vcToSds32 c = some (clockText [3, -4] 0)) ∧
    ∃ s, nowVC32 ⟨[3, -4], 0⟩ = some (s, ⟨[3, -4], 0⟩) ∧
      ∃ c', sdsToVC32 s = some c' ∧ c'.toVC = ⟨[4, -4], 0⟩ := by
  refine ⟨clock_text_round_trip.1 _ (by decide) (by decide),
    clock_text_round_trip.2.1 _ _ (by decide) (by decide), ?_⟩
  obtain ⟨s, hnow, hread⟩ :=
    clock_text_round_trip.2.2 ⟨[3, -4], 0⟩ (by decide) (by decide)
      (fun n hn => Option.some.inj hn ▸ by decide)
  obtain ⟨c', hc', hnext⟩ := hread (by decide)
  exact ⟨s, hnow, c', hc', hnext.trans (by decide)⟩

end RemoveWin
