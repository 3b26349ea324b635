import RemoveWin.Lib.Reversed
import RemoveWin.Dict.Refines

/-!
# Scanning a dictionary

`dictScan` goes over a dictionary with a cursor that its caller keeps. Between two calls anything
may happen to the dictionary. The cursor counts from its high bits, so that it stays good for a
table of another size: it is a place in the order of `Reversed`, and each call returns the entries
of one cell and leads to the first place behind it.

While a rehash is under way, a call returns the chain of the smaller table and those chains of the
larger one that it is split into. The loop over these begins at the bits that the cursor has beyond
the smaller table, so it returns all of them only if these bits are zero. They are if the tables
have not become smaller since the scan began. Otherwise a key can be missed that was there all the
time.

## Main results

* `RemoveWin.Dict.rev_eq_reverse` — `rev` reverses the bits of a word
* `RemoveWin.Dict.WF.dictScan` — one call
* `RemoveWin.dictScan_complete` — a scan returns what is there from its beginning to its end
* `RemoveWin.dictScan_misses_resized` — not if the table is made smaller during the scan
-/

namespace RemoveWin

open scoped List

variable {κ ν : Type} {hash : κ → BitVec 64}

namespace Dict

/-! ### The functions -/

/-- One round of the loop of `rev`: neighbouring groups of `s` bits change places. -/
def revRound (s : ℕ) (mask v : BitVec 64) : BitVec 64 :=
  ((v >>> s) &&& mask) ||| ((v <<< s) &&& ~~~mask)

/-- The loop of `rev`. -/
def revLoop : ℕ → ℕ → BitVec 64 → BitVec 64 → BitVec 64
  | 0, _, _, v => v
  | fuel + 1, s, mask, v =>
    if 0 < s / 2 then
      revLoop fuel (s / 2) (mask ^^^ (mask <<< (s / 2)))
        (revRound (s / 2) (mask ^^^ (mask <<< (s / 2))) v)
    else v

/-- `rev`. -/
def rev (v : BitVec 64) : BitVec 64 :=
  revLoop 7 64 (BitVec.allOnes 64) v

/-- The mask of a table, as a word. -/
def maskOf (t : Table κ ν) : BitVec 64 :=
  BitVec.ofNat 64 t.sizemask

/-- The step to the next chain of the larger table: the bits above the smaller mask are
incremented. -/
def nextExpansion (m0 v : BitVec 64) : BitVec 64 :=
  (((v ||| m0) + 1) &&& ~~~m0) ||| (v &&& m0)

/-- The loop over the chains of the larger table. -/
def expansions (t1 : Table κ ν) (m0 m1 : BitVec 64) : ℕ → BitVec 64 →
    Option (List (κ × ν) × BitVec 64)
  | 0, _ => none
  | fuel + 1, v =>
    match t1.chain v with
    | none => none
    | some c =>
      if nextExpansion m0 v &&& (m0 ^^^ m1) = 0 then some (c, nextExpansion m0 v)
      else (expansions t1 m0 m1 fuel (nextExpansion m0 v)).map fun r => (c ++ r.1, r.2)

/-- The end of `dictScan`: the increment of the reversed cursor. -/
def nextCursor (m0 v : BitVec 64) : BitVec 64 :=
  rev (rev (v ||| ~~~m0) + 1)

/-- The smaller table and the larger one. -/
def bySize (d : Dict κ ν) : Table κ ν × Table κ ν :=
  if d.ht1.size < d.ht0.size then (d.ht1, d.ht0) else (d.ht0, d.ht1)

/-- `dictScan`, with the entries that the callback is called with. -/
def dictScan (d : Dict κ ν) (v : BitVec 64) : Option (List (κ × ν) × BitVec 64) :=
  if d.dictSize = 0 then some ([], 0)
  else if ¬ d.dictIsRehashing then
    (d.ht0.chain v).map fun c => (c, nextCursor (maskOf d.ht0) v)
  else
    match d.bySize.1.chain v with
    | none => none
    | some c =>
      (expansions d.bySize.2 (maskOf d.bySize.1) (maskOf d.bySize.2) d.bySize.2.size v).map fun r =>
        (c ++ r.1, nextCursor (maskOf d.bySize.1) r.2)

/-! ### The reversal -/

/-- Where a bit comes from in a round. -/
def swapAt (s i : ℕ) : ℕ :=
  if i / s % 2 = 0 then i + s else i - s

theorem getLsbD_revRound {s : ℕ} {mask : BitVec 64}
    (hmask : ∀ i < 64, mask.getLsbD i = decide (i / s % 2 = 0)) (v : BitVec 64) {i : ℕ}
    (hi : i < 64) : (revRound s mask v).getLsbD i = v.getLsbD (swapAt s i) := by
  simp only [revRound, BitVec.getLsbD_or, BitVec.getLsbD_and, BitVec.getLsbD_not,
    BitVec.getLsbD_ushiftRight, BitVec.getLsbD_shiftLeft, hmask i hi, hi, decide_true,
    Bool.true_and]
  by_cases heven : i / s % 2 = 0
  · simp [heven, swapAt, Nat.add_comm]
  · have hle : ¬ i < s := by
      intro hlt
      rw [Nat.div_eq_of_lt hlt] at heven
      exact heven rfl
    simp [heven, swapAt, hle]

/-- **`rev` reverses the bits of a word.** -/
theorem rev_eq_reverse (v : BitVec 64) : rev v = v.reverse := by
  have hbits : ∀ s ∈ [32, 16, 8, 4, 2, 1], ∀ i < 64, swapAt s i < 64 := by decide
  apply BitVec.eq_of_getLsbD_eq
  intro i hi
  rw [BitVec.getLsbD_reverse, BitVec.getMsbD_eq_getLsbD]
  have hall : ∀ i < 64, swapAt 32 (swapAt 16 (swapAt 8 (swapAt 4 (swapAt 2 (swapAt 1 i))))) =
      64 - 1 - i := by decide
  have h₁ := hbits 1 (by decide) i hi
  have h₂ := hbits 2 (by decide) _ h₁
  have h₃ := hbits 4 (by decide) _ h₂
  have h₄ := hbits 8 (by decide) _ h₃
  have h₅ := hbits 16 (by decide) _ h₄
  simp only [rev, revLoop, Nat.reduceDiv, Nat.reduceLT, if_true, if_false, Nat.lt_irrefl]
  rw [getLsbD_revRound (by decide) _ hi, getLsbD_revRound (by decide) _ h₁,
    getLsbD_revRound (by decide) _ h₂, getLsbD_revRound (by decide) _ h₃,
    getLsbD_revRound (by decide) _ h₄, getLsbD_revRound (by decide) _ h₅, hall i hi]
  simp [hi]

/-! ### The larger table -/

open Reversed

/-- The step of the loop leaves the low bits alone and adds one to the number above them. -/
theorem toNat_nextExpansion {k : ℕ} (hk : k ≤ 64) (v : BitVec 64) :
    (nextExpansion (lowMask 64 k) v).toNat =
      2 ^ k * ((v.toNat / 2 ^ k + 1) % 2 ^ (64 - k)) + v.toNat % 2 ^ k := by
  have hpow : 2 ^ 64 = 2 ^ (64 - k) * 2 ^ k := by
    rw [← Nat.pow_add]
    congr 1
    omega
  have hsum : ((v ||| lowMask 64 k) + 1).toNat =
      2 ^ k * ((v.toNat / 2 ^ k + 1) % 2 ^ (64 - k)) := by
    have hadd : v.toNat / 2 ^ k * 2 ^ k + (2 ^ k - 1) + 1 = (v.toNat / 2 ^ k + 1) * 2 ^ k := by
      have := Nat.two_pow_pos k
      rw [Nat.add_mul, Nat.one_mul]
      omega
    rw [BitVec.toNat_add, toNat_or_lowMask hk, show (1 : BitVec 64).toNat = 1 from rfl, hadd, hpow,
      Nat.mul_mod_mul_right, Nat.mul_comm]
  have hqlt : (v.toNat / 2 ^ k + 1) % 2 ^ (64 - k) < 2 ^ (64 - k) :=
    Nat.mod_lt _ (Nat.two_pow_pos _)
  generalize (v.toNat / 2 ^ k + 1) % 2 ^ (64 - k) = q at hsum hqlt
  apply Nat.eq_of_testBit_eq
  intro i
  have hlow : v.toNat % 2 ^ k < 2 ^ k := Nat.mod_lt _ (Nat.two_pow_pos k)
  have hbit : ((v ||| lowMask 64 k) + 1).getLsbD i = (decide (k ≤ i) && q.testBit (i - k)) := by
    rw [← BitVec.testBit_toNat, hsum, Nat.testBit_two_pow_mul]
  rw [Nat.testBit_two_pow_mul_add _ hlow, BitVec.testBit_toNat, nextExpansion, BitVec.getLsbD_or,
    BitVec.getLsbD_and, BitVec.getLsbD_and, BitVec.getLsbD_not, getLsbD_lowMask, hbit,
    Nat.testBit_mod_two_pow, BitVec.testBit_toNat]
  by_cases hi : i < k
  · have hw : i < 64 := by omega
    have hnot : ¬ k ≤ i := by omega
    simp only [hi, hw, hnot, decide_true, decide_false, Bool.and_true, Bool.true_and,
      Bool.false_and, Bool.false_or, if_true]
  · have hle : k ≤ i := by omega
    simp only [hi, hle, decide_true, decide_false, Bool.and_false, Bool.true_and, Bool.not_false,
      Bool.and_true, Bool.or_false, if_false]
    by_cases hw : i < 64
    · simp only [hw, decide_true, Bool.and_true]
    · have hbig : q < 2 ^ (i - k) :=
        lt_of_lt_of_le hqlt (Nat.pow_le_pow_right Nat.two_pos (by omega))
      simp only [hw, decide_false, Bool.and_false, Nat.testBit_lt_two_pow hbig]

theorem toNat_nextExpansion_mod {k : ℕ} (hk : k ≤ 64) (v : BitVec 64) :
    (nextExpansion (lowMask 64 k) v).toNat % 2 ^ k = v.toNat % 2 ^ k := by
  rw [toNat_nextExpansion hk, Nat.mul_add_mod, Nat.mod_mod]

theorem toNat_nextExpansion_div {k₀ k₁ : ℕ} (h₀₁ : k₀ ≤ k₁) (hk₁ : k₁ ≤ 64) (v : BitVec 64) :
    (nextExpansion (lowMask 64 k₀) v).toNat / 2 ^ k₀ % 2 ^ (k₁ - k₀) =
      (v.toNat / 2 ^ k₀ % 2 ^ (k₁ - k₀) + 1) % 2 ^ (k₁ - k₀) := by
  have hlow : v.toNat % 2 ^ k₀ < 2 ^ k₀ := Nat.mod_lt _ (Nat.two_pow_pos k₀)
  rw [toNat_nextExpansion (h₀₁.trans hk₁), Nat.mul_add_div (Nat.two_pow_pos k₀),
    Nat.div_eq_of_lt hlow, Nat.add_zero, Nat.mod_mod_of_dvd _ (Nat.pow_dvd_pow 2 (by omega)),
    Nat.mod_add_mod]

/-- What agrees with a word in the bits of the mask is in the chain of the word. -/
theorem mem_chain_of_mod {t : Table κ ν} (h : t.WF hash) {k : ℕ} (hk : k ≤ 60)
    (hsize : t.size = 2 ^ k) {v : BitVec 64} {c : List (κ × ν)} (hc : t.chain v = some c)
    {e : κ × ν} (he : e ∈ t.entries) (hmod : (hash e.1).toNat % 2 ^ k = v.toNat % 2 ^ k) :
    e ∈ c := by
  refine (h.placed.mem_chain (x := e) ?_).mpr he
  rw [Table.slot_eq hk hsize, hmod, ← Table.slot_eq hk hsize]
  exact hc

/-- **The loop over the larger table** returns, of the entries with the low bits of the cursor,
those from the number above them on. -/
theorem expansions_spec {t1 : Table κ ν} (ht1 : t1.WF hash) {k₀ k₁ : ℕ} (h₀₁ : k₀ ≤ k₁)
    (hk₁ : k₁ ≤ 60) (hsize : t1.size = 2 ^ k₁) : ∀ (fuel : ℕ) {v : BitVec 64},
    2 ^ (k₁ - k₀) ≤ fuel + v.toNat / 2 ^ k₀ % 2 ^ (k₁ - k₀) →
    ∃ es v', expansions t1 (lowMask 64 k₀) (lowMask 64 k₁) fuel v = some (es, v') ∧
      v'.toNat % 2 ^ k₀ = v.toNat % 2 ^ k₀ ∧ (∀ e ∈ es, e ∈ t1.entries) ∧
      ∀ e ∈ t1.entries, (hash e.1).toNat % 2 ^ k₀ = v.toNat % 2 ^ k₀ →
        v.toNat / 2 ^ k₀ % 2 ^ (k₁ - k₀) ≤ (hash e.1).toNat / 2 ^ k₀ % 2 ^ (k₁ - k₀) → e ∈ es
  | 0, v, hfuel => by
    have := Nat.mod_lt (v.toNat / 2 ^ k₀) (Nat.two_pow_pos (k₁ - k₀))
    omega
  | fuel + 1, v, hfuel => by
    have hne : t1.table ≠ [] := by
      have hpos : 0 < t1.size := hsize ▸ Nat.two_pow_pos k₁
      exact List.length_pos_iff.mp hpos
    obtain ⟨c, hc⟩ := ht1.exists_chain hne v
    have hmod := toNat_nextExpansion_mod (show k₀ ≤ 64 by omega) v
    have hup := toNat_nextExpansion_div h₀₁ (show k₁ ≤ 64 by omega) v
    have hlt := Nat.mod_lt (v.toNat / 2 ^ k₀) (Nat.two_pow_pos (k₁ - k₀))
    -- what has the slot of the cursor is in its chain
    have hchain : ∀ e ∈ t1.entries, (hash e.1).toNat % 2 ^ k₀ = v.toNat % 2 ^ k₀ →
        (hash e.1).toNat / 2 ^ k₀ % 2 ^ (k₁ - k₀) = v.toNat / 2 ^ k₀ % 2 ^ (k₁ - k₀) → e ∈ c := by
      intro e he hlow hhigh
      refine mem_chain_of_mod ht1 hk₁ hsize hc he ?_
      rw [mod_two_pow_eq h₀₁, mod_two_pow_eq h₀₁ v.toNat, hlow, hhigh]
    have hin : ∀ e ∈ c, e ∈ t1.entries := fun e he =>
      List.mem_flatten.mpr ⟨c, List.mem_of_getElem? hc, he⟩
    rw [expansions, hc]
    by_cases hend : nextExpansion (lowMask 64 k₀) v &&& (lowMask 64 k₀ ^^^ lowMask 64 k₁) = 0
    · refine ⟨c, nextExpansion (lowMask 64 k₀) v, by simp only [if_pos hend], hmod, hin, ?_⟩
      intro e he hlow hle
      rw [and_xor_lowMask_eq_zero_iff h₀₁ (by omega), hup] at hend
      have hlt' := Nat.mod_lt ((hash e.1).toNat / 2 ^ k₀) (Nat.two_pow_pos (k₁ - k₀))
      refine hchain e he hlow (Nat.le_antisymm ?_ hle)
      by_contra hgt
      rw [Nat.mod_eq_of_lt (by omega)] at hend
      omega
    · have hsucc : (nextExpansion (lowMask 64 k₀) v).toNat / 2 ^ k₀ % 2 ^ (k₁ - k₀) =
          v.toNat / 2 ^ k₀ % 2 ^ (k₁ - k₀) + 1 := by
        rw [and_xor_lowMask_eq_zero_iff h₀₁ (by omega), hup] at hend
        rw [hup]
        refine Nat.mod_eq_of_lt (lt_of_le_of_ne hlt fun heq => hend ?_)
        rw [show v.toNat / 2 ^ k₀ % 2 ^ (k₁ - k₀) + 1 = 2 ^ (k₁ - k₀) from heq, Nat.mod_self]
      obtain ⟨es, v', heq, hmod', hin', hall⟩ :=
        expansions_spec ht1 h₀₁ hk₁ hsize fuel (v := nextExpansion (lowMask 64 k₀) v) (by omega)
      refine ⟨c ++ es, v', by simp only [if_neg hend, heq, Option.map_some], hmod'.trans hmod,
        fun e he => (List.mem_append.mp he).elim (hin e) (hin' e), ?_⟩
      intro e he hlow hle
      rcases Nat.lt_or_eq_of_le hle with hgt | hsame
      · exact List.mem_append_right _ (hall e he (hlow.trans hmod.symm) (by omega))
      · exact List.mem_append_left _ (hchain e he hlow hsame.symm)

/-! ### One call -/

theorem nextCursor_eq {k : ℕ} {u v : BitVec 64} (hk : k ≤ 64)
    (huv : u.toNat % 2 ^ k = v.toNat % 2 ^ k) : nextCursor (lowMask 64 k) u = next k v := by
  rw [nextCursor, rev_eq_reverse, rev_eq_reverse, ← next]
  exact next_congr ((and_lowMask_eq_iff hk u v).mpr huv)

/-- **One call**: where no rehash to a smaller table is under way and the cursor is one for the
table, the entries of its cell are returned. -/
theorem WF.dictScan {d : Dict κ ν} (h : d.WF hash) (hused : d.dictSize ≠ 0) (hgrow : d.Growing)
    {v : BitVec 64} (hv : v.toNat < d.ht0.size) :
    ∃ es k, k ≤ 60 ∧ d.ht0.size = 2 ^ k ∧ d.dictScan v = some (es, next k v) ∧
      (∀ e ∈ es, e ∈ d.entries) ∧ ∀ e ∈ d.entries, cell k (hash e.1) = cell k v → e ∈ es := by
  have hne := h.ht0_ne_nil hused
  obtain ⟨k, hk, hsize⟩ := h.ht0.size.resolve_left hne
  obtain ⟨c, hc⟩ := h.ht0.exists_chain hne v
  have hmask : maskOf d.ht0 = lowMask 64 k := by rw [maskOf, Table.sizemask, hsize, lowMask]
  have hmod : ∀ e : κ × ν, cell k (hash e.1) = cell k v →
      (hash e.1).toNat % 2 ^ k = v.toNat % 2 ^ k := fun e he =>
    (and_lowMask_eq_iff (by omega) _ _).mp ((cell_eq_iff (by omega) _ _).mp he)
  have hin : ∀ e ∈ c, e ∈ d.entries := fun e he =>
    List.mem_append_left _ (List.mem_flatten.mpr ⟨c, List.mem_of_getElem? hc, he⟩)
  have hfirst : ∀ e ∈ d.ht0.entries, cell k (hash e.1) = cell k v → e ∈ c :=
    fun e he hcell => mem_chain_of_mod h.ht0 hk hsize hc he (hmod e hcell)
  rw [Dict.dictScan, if_neg hused]
  by_cases hidx : d.rehashidx = none
  · have hno : d.dictIsRehashing = false := by simp [dictIsRehashing, hidx]
    refine ⟨c, k, hk, hsize, ?_, hin, ?_⟩
    · simp only [hno, Bool.false_eq_true, not_false_eq_true, if_true, hc, Option.map_some, hmask]
      rw [nextCursor_eq (by omega) rfl]
    · rw [h.entries_of_idle hidx]
      exact hfirst
  · have hyes : d.dictIsRehashing = true := (dictIsRehashing_iff d).mpr hidx
    obtain ⟨k₁, hk₁, hsize₁⟩ := h.ht1.size.resolve_left (h.both hidx).2
    have hle := hgrow hidx
    have h₀₁ : k ≤ k₁ := by
      rw [hsize, hsize₁] at hle
      exact (Nat.pow_le_pow_iff_right (by omega)).mp hle
    have hmask₁ : maskOf d.ht1 = lowMask 64 k₁ := by rw [maskOf, Table.sizemask, hsize₁, lowMask]
    have hby : d.bySize = (d.ht0, d.ht1) := by rw [bySize, if_neg (by omega)]
    -- the cursor has no bits beyond the smaller table
    have hzero : v.toNat / 2 ^ k = 0 := Nat.div_eq_of_lt (hsize ▸ hv)
    have hfuel : 2 ^ (k₁ - k) ≤ d.ht1.size + v.toNat / 2 ^ k % 2 ^ (k₁ - k) := by
      have : 2 ^ (k₁ - k) ≤ 2 ^ k₁ := Nat.pow_le_pow_right Nat.two_pos (Nat.sub_le _ _)
      omega
    obtain ⟨es, v', hexp, hmod', hin', hall⟩ := expansions_spec h.ht1 h₀₁ hk₁ hsize₁ _ hfuel
    refine ⟨c ++ es, k, hk, hsize, ?_, ?_, ?_⟩
    · simp only [hyes, not_true_eq_false, if_false, hby, hc, hmask, hmask₁, hexp, Option.map_some]
      rw [nextCursor_eq (by omega) hmod']
    · exact fun e he => (List.mem_append.mp he).elim (hin e) fun he =>
        List.mem_append_right _ (hin' e he)
    · intro e he hcell
      rcases List.mem_append.mp he with he | he
      · exact List.mem_append_left _ (hfirst e he hcell)
      · refine List.mem_append_right _ (hall e he (hmod e hcell) ?_)
        rw [hzero, Nat.zero_mod]
        exact Nat.zero_le _

end Dict

/-! ### Scans -/

/-- A scan: the dictionary, the cursor that the caller keeps, and what has been returned. -/
structure Scan (κ ν : Type) where
  state : DictState κ ν
  cursor : BitVec 64 := 0
  emitted : List (κ × ν) := []

/-- What happens during a scan: its next call, commands and upkeep. -/
inductive ScanAct (κ ν : Type) where
  | call
  | cmd (c : MapCmd κ ν)
  | upkeep (u : Upkeep)

/-- The act is a call. -/
def ScanAct.isCall : ScanAct κ ν → Bool
  | .call => true
  | _ => false

/-- The act leaves a key there and begins no rehash to a smaller table. -/
def ScanAct.Keeps (key : κ) : ScanAct κ ν → Prop
  | .call => True
  | .cmd (.delete k) => k ≠ key
  | .cmd .empty => False
  | .cmd _ => True
  | .upkeep (.expand _) => False
  | .upkeep .resize => False
  | .upkeep _ => True

theorem Dict.grows_setIterators (d : Dict κ ν) (n : ℕ) : d.Grows { d with iterators := n } :=
  .of_sizes rfl rfl rfl

theorem DictState.grows_upkeep {s s' : DictState κ ν} (h : s.dict.WF hash) {key : κ} {u : Upkeep}
    (hkeeps : (ScanAct.upkeep u : ScanAct κ ν).Keeps key) (hu : s.upkeep hash u = some s') :
    s.dict.Grows s'.dict := by
  cases u with
  | expand _ => exact hkeeps.elim
  | resize => exact hkeeps.elim
  | rehash n =>
    rw [DictState.upkeep] at hu
    rcases hidx : s.dict.rehashidx with _ | idx
    · rw [Dict.dictRehash, hidx] at hu
      cases hu
      exact .refl _
    · obtain ⟨d', more, heq, hmoved, -⟩ := h.dictRehash hidx n
      rw [heq] at hu
      cases hu
      exact hmoved.grows (by simp [hidx])
  | enableResize | disableResize =>
    cases hu
    exact .refl _
  | iterate | releaseIterator =>
    cases hu
    exact Dict.grows_setIterators _ _

namespace Scan

variable [DecidableEq κ]

/-- One act. -/
def step (hash : κ → BitVec 64) (t : Scan κ ν) : ScanAct κ ν → Option (Scan κ ν)
  | .call =>
    (t.state.dict.dictScan t.cursor).map fun r =>
      { t with cursor := r.2, emitted := t.emitted ++ r.1 }
  | .cmd c => (t.state.command hash c).map fun r => { t with state := r.1 }
  | .upkeep u => (t.state.upkeep hash u).map fun s => { t with state := s }

/-- Calls, commands and upkeep in any order. -/
def run (hash : κ → BitVec 64) (t : Scan κ ν) : List (ScanAct κ ν) → Option (Scan κ ν)
  | [] => some t
  | a :: as =>
    match t.step hash a with
    | none => none
    | some t => run hash t as

/-- A key has been returned. -/
def Seen (key : κ) (t : Scan κ ν) : Prop :=
  ∃ e ∈ t.emitted, e.1 = key

/-- The invariant of a scan, with the number of calls made and the number of acts to come. -/
structure Ok (hash : κ → BitVec 64) (key : κ) (calls n : ℕ) (t : Scan κ ν) : Prop where
  shows : ∃ m, t.state.Shows hash m ∧ key ∈ m
  room : t.state.dict.entries.length + n ≤ 2 ^ 58
  /-- The tables become no smaller, -/
  growing : t.state.dict.Growing
  cursor : t.cursor.toNat < t.state.dict.ht0.size
  below : Reversed.place (hash key) < Reversed.place t.cursor → t.Seen key
  /-- Before the cursor is back at zero, each call has gone forward by a slot. -/
  forward : t.Seen key ∨
    calls * 2 ^ 64 ≤ Reversed.place t.cursor * t.state.dict.ht0.size

variable {key : κ} {calls n : ℕ} {t : Scan κ ν}

theorem mem_apply {m : Finmap fun _ : κ => ν} {c : MapCmd κ ν} (hkey : key ∈ m)
    (hkeeps : (ScanAct.cmd c).Keeps key) : key ∈ (c.apply m).1 := by
  cases c with
  | add k val =>
    rw [MapCmd.apply]
    split_ifs with hin
    · exact hkey
    · exact Finmap.mem_insert.mpr (.inr hkey)
  | replace k val => exact Finmap.mem_insert.mpr (.inr hkey)
  | find k => exact hkey
  | delete k => exact Finmap.mem_erase.mpr ⟨Ne.symm hkeeps, hkey⟩
  | size => exact hkey
  | empty => exact hkeeps.elim

theorem Ok.cmd (h : t.Ok hash key calls (n + 1)) {c : MapCmd κ ν}
    (hkeeps : (ScanAct.cmd c).Keeps key) :
    ∃ s, t.step hash (.cmd c) = some { t with state := s } ∧
      ({ t with state := s } : Scan κ ν).Ok hash key calls n := by
  obtain ⟨m, hshows, hkey⟩ := h.shows
  have hroom := h.room
  obtain ⟨s, hcommand, hshows', hlen, hgrows⟩ := hshows.command (by omega) c
  have hne : c ≠ .empty := by
    rintro rfl
    exact hkeeps
  obtain ⟨hgrow, hle⟩ := hgrows hne h.growing
  have hroom' : s.dict.entries.length + n ≤ 2 ^ 58 := by omega
  exact ⟨s, by rw [step, hcommand]; rfl, ⟨_, hshows', mem_apply hkey hkeeps⟩, hroom', hgrow,
    h.cursor.trans_le hle, h.below, h.forward.imp_right (·.trans (Nat.mul_le_mul_left _ hle))⟩

theorem Ok.upkeep (h : t.Ok hash key calls (n + 1)) {u : Upkeep}
    (hkeeps : (ScanAct.upkeep u : ScanAct κ ν).Keeps key) :
    ∃ s, t.step hash (.upkeep u) = some { t with state := s } ∧
      ({ t with state := s } : Scan κ ν).Ok hash key calls n := by
  obtain ⟨m, hshows, hkey⟩ := h.shows
  have hroom := h.room
  have hfits : u.Fits := by cases u <;> first | exact hkeeps.elim | trivial
  obtain ⟨s, hupkeep, hwf, hperm⟩ := DictState.upkeep_spec hshows.wf hfits
  have hlen := hperm.length_eq
  have hgrows : t.state.dict.Grows s.dict := DictState.grows_upkeep hshows.wf hkeeps hupkeep
  obtain ⟨hgrow, hle⟩ := hgrows h.growing
  have hroom' : s.dict.entries.length + n ≤ 2 ^ 58 := by omega
  exact ⟨s, by rw [step, hupkeep]; rfl, ⟨m, ⟨hwf, hshows.lists.perm hperm⟩, hkey⟩, hroom', hgrow,
    h.cursor.trans_le hle, h.below, h.forward.imp_right (·.trans (Nat.mul_le_mul_left _ hle))⟩

/-- **A call** keeps the invariant, and the one that ends the scan has returned the key or finds it
returned. -/
theorem Ok.call (h : t.Ok hash key calls (n + 1)) :
    ∃ t', t.step hash .call = some t' ∧ t'.Ok hash key (calls + 1) n ∧
      (t'.cursor = 0 → t'.Seen key) := by
  obtain ⟨m, hshows, hkey⟩ := h.shows
  obtain ⟨e, he, hek⟩ := (hshows.lists.exists_iff key).mpr hkey
  have hused := hshows.wf.dictSize_ne_zero he
  obtain ⟨es, k, hk, hsize, hscan, -, hcell⟩ := hshows.wf.dictScan hused h.growing h.cursor
  have hk64 : k ≤ 64 := by omega
  -- what the walk has seen, as a property of hashes
  let seen : BitVec 64 → Prop := fun x => x = hash key → ∃ e ∈ t.emitted ++ es, e.1 = key
  have hbelow : ∀ x, Reversed.place x < Reversed.place t.cursor → seen x := by
    rintro x hx rfl
    obtain ⟨e, he, hek⟩ := h.below hx
    exact ⟨e, List.mem_append_left _ he, hek⟩
  have hat : ∀ x, Reversed.cell k x = Reversed.cell k t.cursor → seen x := by
    rintro x hx rfl
    exact ⟨e, List.mem_append_right _ (hcell e he (hek ▸ hx)), hek⟩
  have hroom := h.room
  have hend : Reversed.next k t.cursor = 0 → ∃ e ∈ t.emitted ++ es, e.1 = key := fun hzero =>
    Reversed.seen_of_next_eq_zero hk64 hbelow hat hzero (hash key) rfl
  refine ⟨{ t with cursor := Reversed.next k t.cursor, emitted := t.emitted ++ es },
    by rw [step, hscan]; rfl, ⟨⟨m, hshows, hkey⟩, ?_, h.growing, ?_, ?_, ?_⟩, hend⟩
  · show t.state.dict.entries.length + n ≤ 2 ^ 58
    omega
  · show (Reversed.next k t.cursor).toNat < t.state.dict.ht0.size
    rw [hsize]
    exact Reversed.toNat_next_lt hk64 _
  · intro (hlt : Reversed.place (hash key) < Reversed.place (Reversed.next k t.cursor))
    have hne : Reversed.next k t.cursor ≠ 0 := by
      intro hzero
      rw [hzero, Reversed.place_zero] at hlt
      exact absurd hlt (Nat.not_lt_zero _)
    exact Reversed.seen_below_next hk64 hbelow hat hne hlt rfl
  · show (∃ e ∈ t.emitted ++ es, e.1 = key) ∨
      (calls + 1) * 2 ^ 64 ≤ Reversed.place (Reversed.next k t.cursor) * t.state.dict.ht0.size
    by_cases hzero : Reversed.next k t.cursor = 0
    · exact .inl (hend hzero)
    · rcases h.forward with ⟨e, he, hek⟩ | hfar
      · exact .inl ⟨e, List.mem_append_left _ he, hek⟩
      · rw [hsize] at hfar ⊢
        rw [Reversed.place_next_mul hk64 hzero]
        exact .inr (Nat.mul_le_mul_right _ (Nat.succ_le_succ (Reversed.le_cell hk64 hfar)))

/-- When as many calls have been made as there are slots, the key has been returned. -/
theorem Ok.seen (h : t.Ok hash key calls n) (hcalls : t.state.dict.ht0.size ≤ calls) :
    t.Seen key := by
  refine h.forward.resolve_right fun hfar => ?_
  have hlt := Reversed.place_lt t.cursor
  have hpos : 0 < t.state.dict.ht0.size := (Nat.zero_le _).trans_lt h.cursor
  have hle : 2 ^ 64 * t.state.dict.ht0.size ≤ calls * 2 ^ 64 := by
    rw [Nat.mul_comm]
    exact Nat.mul_le_mul_right _ hcalls
  exact absurd (hle.trans hfar) (Nat.not_le.mpr (Nat.mul_lt_mul_of_pos_right hlt hpos))

/-- A run that keeps a key does not crash and keeps the invariant. When the cursor is back at zero
after a call, the key has been returned. -/
theorem Ok.run : ∀ (acts : List (ScanAct κ ν)) {calls : ℕ} {t : Scan κ ν},
    t.Ok hash key calls acts.length → (∀ a ∈ acts, a.Keeps key) →
    ∃ t', t.run hash acts = some t' ∧ t'.Ok hash key (calls + acts.countP ScanAct.isCall) 0 ∧
      ((.call ∈ acts ∨ (t.cursor = 0 → t.Seen key)) → t'.cursor = 0 → t'.Seen key)
  | [], calls, t, h, _ => ⟨t, rfl, h, fun hor => hor.resolve_left (by simp)⟩
  | a :: acts, calls, t, h, hkeeps => by
    have hkeeps' : ∀ b ∈ acts, b.Keeps key := fun b hb => hkeeps b (List.mem_cons_of_mem _ hb)
    have hkeep := hkeeps a (List.mem_cons_self ..)
    cases a with
    | call =>
      obtain ⟨t₁, hstep, hok, hzero⟩ := h.call
      obtain ⟨t', hrun, hok', hend⟩ := Ok.run acts hok hkeeps'
      refine ⟨t', by rw [Scan.run, hstep]; exact hrun, ?_, fun _ => hend (.inr hzero)⟩
      rw [List.countP_cons_of_pos rfl, Nat.add_comm _ 1, ← Nat.add_assoc]
      exact hok'
    | cmd c =>
      obtain ⟨s, hstep, hok⟩ := h.cmd hkeep
      obtain ⟨t', hrun, hok', hend⟩ := Ok.run acts hok hkeeps'
      refine ⟨t', by rw [Scan.run, hstep]; exact hrun, ?_,
        fun hor => hend (hor.imp_left (by simp))⟩
      rwa [List.countP_cons_of_neg (by simp [ScanAct.isCall])]
    | upkeep u =>
      obtain ⟨s, hstep, hok⟩ := h.upkeep hkeep
      obtain ⟨t', hrun, hok', hend⟩ := Ok.run acts hok hkeeps'
      refine ⟨t', by rw [Scan.run, hstep]; exact hrun, ?_,
        fun hor => hend (hor.imp_left (by simp))⟩
      rwa [List.countP_cons_of_neg (by simp [ScanAct.isCall])]

end Scan

/-- **A scan returns what is there from its beginning to its end.** In a dictionary that is reached
by commands and upkeep and is not being rehashed to a smaller table, a scan from cursor zero may be
interleaved with commands and upkeep. If these do not remove a key and do not ask for another size,
nothing crashes, and the key has been returned when the cursor is back at zero, and in any case
after as many calls as there are slots. All this takes up to `2 ^ 58` acts, and no size above
`2 ^ 60` is asked for. -/
theorem dictScan_complete [DecidableEq κ] (hash : κ → BitVec 64)
    (before : List (MapCmd κ ν ⊕ Upkeep)) (hfits : ∀ u, .inr u ∈ before → u.Fits)
    {s : DictState κ ν} {replies : List (MapReply ν)}
    (hs : ({} : DictState κ ν).run hash before = some (s, replies)) (hgrow : s.dict.Growing)
    {key : κ} (hkey : ∃ e ∈ s.dict.entries, e.1 = key) (acts : List (ScanAct κ ν))
    (hlen : before.length + acts.length ≤ 2 ^ 58) (hkeeps : ∀ a ∈ acts, a.Keeps key)
    (hcall : .call ∈ acts) :
    ∃ t, ({ state := s } : Scan κ ν).run hash acts = some t ∧
      (t.cursor = 0 ∨ t.state.dict.ht0.size ≤ acts.countP ScanAct.isCall →
        ∃ e ∈ t.emitted, e.1 = key) := by
  have hempty : ({} : DictState κ ν).dict.entries.length = 0 := rfl
  obtain ⟨s', m, hrun, hshows, hlen'⟩ := DictState.shows_empty.run before (by omega) hfits
  obtain ⟨rfl, -⟩ : s' = s ∧ _ := Prod.ext_iff.mp (Option.some.inj (hrun.symm.trans hs))
  have hpos : 0 < s'.dict.ht0.size := by
    obtain ⟨e, he, -⟩ := hkey
    exact List.length_pos_iff.mpr (hshows.wf.ht0_ne_nil (hshows.wf.dictSize_ne_zero he))
  have hnone : ¬ Reversed.place (hash key) < Reversed.place (0 : BitVec 64) := by
    rw [Reversed.place_zero]
    exact Nat.not_lt_zero _
  have hroom : s'.dict.entries.length + acts.length ≤ 2 ^ 58 := by omega
  have hok : ({ state := s' } : Scan κ ν).Ok hash key 0 acts.length :=
    ⟨⟨m, hshows, (hshows.lists.exists_iff key).mp hkey⟩, hroom, hgrow, hpos,
      fun hlt => absurd hlt hnone, .inr (by rw [Nat.zero_mul]; exact Nat.zero_le _)⟩
  obtain ⟨t, ht, hok', hend⟩ := hok.run acts hkeeps
  refine ⟨t, ht, fun hor => hor.elim (hend (.inl hcall)) fun hcalls => hok'.seen ?_⟩
  rwa [Nat.zero_add]

/-- Commands that leave a rehash under way. -/
def fiveAdds : List (MapCmd ℕ ℕ ⊕ Upkeep) :=
  [.inl (.add 0 10), .inl (.add 1 11), .inl (.add 2 12), .inl (.add 3 13), .inl (.add 4 14)]

/-- The dictionary they leave. -/
def rehashing : DictState ℕ ℕ :=
  ((({} : DictState ℕ ℕ).run (BitVec.ofNat 64) fiveAdds).getD ({}, [])).1

/-- A scan during which another key is added, one is deleted and the rehash is carried on. -/
def scanActs : List (ScanAct ℕ ℕ) :=
  [.call, .cmd (.add 5 15), .call, .cmd (.delete 2), .upkeep (.rehash 1), .call, .call, .call]

theorem exists_run_fiveAdds :
    ∃ replies, ({} : DictState ℕ ℕ).run (BitVec.ofNat 64) fiveAdds = some (rehashing, replies) := by
  have hsome : (({} : DictState ℕ ℕ).run (BitVec.ofNat 64) fiveAdds).isSome := by decide
  obtain ⟨⟨s, replies⟩, hrun⟩ := Option.isSome_iff_exists.mp hsome
  refine ⟨replies, ?_⟩
  rw [rehashing, hrun]
  rfl

theorem dictScan_complete_rehashing :
    ∃ t, ({ state := rehashing } : Scan ℕ ℕ).run (BitVec.ofNat 64) scanActs = some t ∧
      (t.cursor = 0 ∨ t.state.dict.ht0.size ≤ scanActs.countP ScanAct.isCall →
        ∃ e ∈ t.emitted, e.1 = 4) := by
  obtain ⟨replies, hrun⟩ := exists_run_fiveAdds
  refine dictScan_complete (BitVec.ofNat 64) fiveAdds ?_ hrun ?_ ?_ scanActs ?_ ?_ ?_
  · intro u hu
    simp [fiveAdds] at hu
  · intro _
    decide
  · decide
  · simp [fiveAdds, scanActs]
  · intro a ha
    simp only [scanActs, List.mem_cons, List.not_mem_nil, or_false] at ha
    rcases ha with rfl | rfl | rfl | rfl | rfl | rfl | rfl | rfl <;> simp [ScanAct.Keeps]
  · simp [scanActs]

/-- The size must not be changed: here a table of 16 slots is asked to shrink after the first call.
The second call begins its loop over the larger table at slot 8, and the key at slot 4 is not
returned, though it is there all the time and the scan comes to its end. -/
theorem dictScan_misses_resized :
    ((({} : DictState ℕ ℕ).run (BitVec.ofNat 64) [.inr (.expand 16), .inl (.add 4 14)]).bind
        fun r => ({ state := r.1 } : Scan ℕ ℕ).run (BitVec.ofNat 64)
          [.call, .upkeep .resize, .call, .call, .call, .call]).map
      (fun t => (t.cursor, t.emitted, t.state.dict.entries)) = some (0, [], [(4, 14)]) := by
  decide

end RemoveWin
