import Mathlib

/-!
# Tokens, holes and a meter

Every key has a token, a hole, or neither. A put fills the hole of its key if there is one and puts
a token otherwise; a take removes the token if there is one and leaves a hole otherwise. Neither
piles up: a put where a token lies already changes nothing.

A meter is kept beside the board, to tell what tokens and holes weigh together. It goes by whether
the opposite was found and not by whether anything was added, so a put that changes nothing is
charged all the same.
-/

namespace Tokens

variable {κ : Type} [DecidableEq κ]

/-- Tokens and holes, never both at one key. -/
structure Board (κ : Type) where
  /-- The keys with a token. -/
  tokens : Finset κ
  /-- The keys with a hole. -/
  holes : Finset κ
  /-- A token and a hole would have cancelled. -/
  apart : Disjoint tokens holes

/-- What can be done at a key. -/
inductive Move (κ : Type) where
  | put (k : κ)
  | take (k : κ)

/-- The key of a move. -/
def Move.key : Move κ → κ
  | .put k => k
  | .take k => k

/-- What a move counts at a key. -/
def Move.count (k : κ) : Move κ → ℤ
  | .put k' => if k' = k then 1 else 0
  | .take k' => if k' = k then -1 else 0

namespace Board

/-- Nothing anywhere. -/
def empty : Board κ := ⟨∅, ∅, Finset.disjoint_empty_left ∅⟩

/-- Put a token, or fill the hole. -/
def put (b : Board κ) (k : κ) : Board κ :=
  if h : k ∈ b.holes then ⟨b.tokens, b.holes.erase k, b.apart.mono_right (b.holes.erase_subset k)⟩
  else ⟨insert k b.tokens, b.holes, Finset.disjoint_insert_left.mpr ⟨h, b.apart⟩⟩

/-- The board with tokens and holes exchanged. -/
def flip (b : Board κ) : Board κ := ⟨b.holes, b.tokens, b.apart.symm⟩

/-- Take the token, or leave a hole. -/
def take (b : Board κ) (k : κ) : Board κ := (b.flip.put k).flip

/-- Make a move. -/
def move (b : Board κ) : Move κ → Board κ
  | .put k => b.put k
  | .take k => b.take k

/-- The move finds what it would have left. -/
def Blocks (b : Board κ) : Move κ → Prop
  | .put k => k ∈ b.tokens
  | .take k => k ∈ b.holes

instance (b : Board κ) (m : Move κ) : Decidable (b.Blocks m) :=
  match m with
  | .put k => inferInstanceAs (Decidable (k ∈ b.tokens))
  | .take k => inferInstanceAs (Decidable (k ∈ b.holes))

/-- One for a token, minus one for a hole. -/
def height (b : Board κ) (k : κ) : ℤ := if k ∈ b.tokens then 1 else if k ∈ b.holes then -1 else 0

/-- What tokens and holes weigh. -/
def size (w : κ → ℤ) (b : Board κ) : ℤ := ∑ k ∈ b.tokens, w k + ∑ k ∈ b.holes, w k

/-- What the meter is changed by: the weight of the key, taken off if the opposite was found. -/
def charge (w : κ → ℤ) (b : Board κ) : Move κ → ℤ
  | .put k => if k ∈ b.holes then -w k else w k
  | .take k => if k ∈ b.tokens then -w k else w k

variable {b : Board κ} {k : κ} {w : κ → ℤ}

theorem tokens_put : (b.put k).tokens = if k ∈ b.holes then b.tokens else insert k b.tokens := by
  rw [put]
  split_ifs <;> rfl

theorem holes_put : (b.put k).holes = if k ∈ b.holes then b.holes.erase k else b.holes := by
  rw [put]
  split_ifs <;> rfl

omit [DecidableEq κ] in
theorem notMem_holes (h : k ∈ b.tokens) : k ∉ b.holes :=
  Finset.disjoint_left.mp b.apart h

omit [DecidableEq κ] in
theorem size_flip : b.flip.size w = b.size w := add_comm _ _

theorem height_flip : b.flip.height k = -b.height k := by
  rw [height, height]
  by_cases ht : k ∈ b.tokens
  · simp [flip, ht, b.notMem_holes ht]
  · by_cases hh : k ∈ b.holes <;> simp [flip, ht, hh]

/-- A put is charged the weight it adds, and one weight too much if it adds none. -/
theorem charge_put : (if k ∈ b.holes then -w k else w k) =
    (b.put k).size w - b.size w + if k ∈ b.tokens then w k else 0 := by
  rw [size, size, tokens_put, holes_put]
  by_cases hh : k ∈ b.holes
  · have ht : k ∉ b.tokens := fun ht => b.notMem_holes ht hh
    rw [if_pos hh, if_pos hh, if_pos hh, if_neg ht, Finset.sum_erase_eq_sub hh]
    ring
  · rw [if_neg hh, if_neg hh, if_neg hh]
    by_cases ht : k ∈ b.tokens
    · rw [Finset.insert_eq_of_mem ht, if_pos ht]
      ring
    · rw [Finset.sum_insert ht, if_neg ht]
      ring

theorem height_put (ht : k ∉ b.tokens) (k' : κ) :
    (b.put k).height k' = b.height k' + if k = k' then 1 else 0 := by
  rw [height, height, tokens_put, holes_put]
  by_cases hk : k = k'
  · subst hk
    by_cases hh : k ∈ b.holes <;> simp [hh, ht]
  · by_cases hh : k ∈ b.holes <;> simp [hh, hk, Ne.symm hk]

theorem abs_height_le (b : Board κ) (k : κ) : |b.height k| ≤ 1 := by
  rw [height]
  split_ifs <;> simp

/-- **What a move is charged**: what it adds, and once more the weight of a move that is blocked. -/
theorem charge_eq (m : Move κ) :
    b.charge w m = (b.move m).size w - b.size w + if b.Blocks m then w m.key else 0 := by
  cases m with
  | put k => exact charge_put
  | take k =>
    have h := charge_put (b := b.flip) (k := k) (w := w)
    rwa [size_flip, ← size_flip (b := b.flip.put k)] at h

/-- **The height follows the moves**, as long as none is blocked. -/
theorem height_move {m : Move κ} (hm : ¬ b.Blocks m) (k : κ) :
    (b.move m).height k = b.height k + m.count k := by
  cases m with
  | put k' => exact height_put hm k
  | take k' =>
    have h := height_put (b := b.flip) hm k
    rw [height_flip] at h
    show (b.flip.put k').flip.height k = b.height k + if k' = k then -1 else 0
    rw [height_flip, h]
    split_ifs <;> ring

/-- A move is blocked if it would leave the range of heights. -/
theorem not_blocks_iff {m : Move κ} : ¬ b.Blocks m ↔ ∀ k, |b.height k + m.count k| ≤ 1 := by
  refine ⟨fun hm k => height_move hm k ▸ abs_height_le _ k, fun h hm => ?_⟩
  have hkey := h m.key
  cases m with
  | put k =>
    have ht : k ∈ b.tokens := hm
    simp [Move.key, Move.count, height, ht] at hkey
  | take k =>
    have hh : k ∈ b.holes := hm
    have ht : k ∉ b.tokens := fun ht => b.notMem_holes ht hh
    simp [Move.key, Move.count, height, ht, hh] at hkey

end Board

/-! ### Runs -/

/-- A board and its meter. -/
structure Metered (κ : Type) where
  /-- The board. -/
  board : Board κ
  /-- What the meter shows. -/
  meter : ℤ

/-- Make a move and charge it. -/
def Metered.move (w : κ → ℤ) (s : Metered κ) (m : Move κ) : Metered κ :=
  ⟨s.board.move m, s.meter + s.board.charge w m⟩

/-- The board and the meter after a list of moves. -/
def run (w : κ → ℤ) (L : List (Move κ)) : Metered κ := L.foldl (Metered.move w) ⟨.empty, 0⟩

/-- Puts minus takes at a key. -/
def balance (k : κ) (L : List (Move κ)) : ℤ := (L.map (Move.count k)).sum

/-- At no time and at no key do puts and takes part by two. -/
def Level (L : List (Move κ)) : Prop := ∀ L', L' <+: L → ∀ k, |balance k L'| ≤ 1

variable {w : κ → ℤ} {L : List (Move κ)}

theorem run_concat (w : κ → ℤ) (L : List (Move κ)) (m : Move κ) :
    run w (L ++ [m]) = (run w L).move w m := by
  rw [run, List.foldl_append]
  rfl

/-- Tokens were put. -/
theorem exists_of_mem_tokens {k : κ} (h : k ∈ (run w L).board.tokens) : ∃ m ∈ L, m.key = k := by
  induction L using List.reverseRecOn with
  | nil => exact absurd h (Finset.notMem_empty k)
  | append_singleton L m ih =>
    have hold : k ∈ (run w L).board.tokens → ∃ m' ∈ L ++ [m], m'.key = k := by
      intro hk
      obtain ⟨m', hm', rfl⟩ := ih hk
      exact ⟨m', List.mem_append_left [m] hm', rfl⟩
    rw [run_concat] at h
    cases m with
    | put k' =>
      have h : k ∈ ((run w L).board.put k').tokens := h
      rw [Board.tokens_put] at h
      split_ifs at h
      · exact hold h
      · rcases Finset.mem_insert.mp h with rfl | h
        · exact ⟨.put k, List.mem_append_right L (List.mem_singleton_self _), rfl⟩
        · exact hold h
    | take k' =>
      have h : k ∈ ((run w L).board.flip.put k').holes := h
      rw [Board.holes_put] at h
      split_ifs at h
      · exact hold (Finset.mem_of_mem_erase h)
      · exact hold h

theorem balance_concat (k : κ) (L : List (Move κ)) (m : Move κ) :
    balance k (L ++ [m]) = balance k L + m.count k := by
  rw [balance, List.map_append, List.sum_append, List.map_singleton, List.sum_singleton]
  rfl

theorem balance_of_notMem {k : κ} (h : ∀ m ∈ L, m.key ≠ k) : balance k L = 0 := by
  refine List.sum_eq_zero fun n hn => ?_
  obtain ⟨m, hm, rfl⟩ := List.mem_map.mp hn
  cases m with
  | put k' => exact if_neg (h _ hm)
  | take k' => exact if_neg (h _ hm)

/-- Only the keys that are used matter. -/
theorem level_iff_forall_mem :
    (∀ L' ∈ L.inits, ∀ m ∈ L, |balance m.key L'| ≤ 1) ↔ Level L := by
  refine ⟨fun h L' hpre k => ?_, fun h L' hL' m _ => h L' ((List.mem_inits _ _).mp hL') m.key⟩
  by_cases hk : ∃ m ∈ L, m.key = k
  · obtain ⟨m, hm, rfl⟩ := hk
    exact h L' ((List.mem_inits _ _).mpr hpre) m hm
  · rw [balance_of_notMem fun m hm hmk => hk ⟨m, hpre.subset hm, hmk⟩, abs_zero]
    exact zero_le_one

instance (L : List (Move κ)) : Decidable (Level L) := decidable_of_iff _ level_iff_forall_mem

theorem level_concat_iff {m : Move κ} :
    Level (L ++ [m]) ↔ Level L ∧ ∀ k, |balance k L + m.count k| ≤ 1 := by
  constructor
  · refine fun h => ⟨fun L' hpre => h L' (hpre.trans (List.prefix_append L [m])), fun k => ?_⟩
    rw [← balance_concat]
    exact h _ List.prefix_rfl k
  · rintro ⟨hL, hlast⟩ L' hpre k
    rcases List.prefix_concat_iff.mp hpre with rfl | hpre
    · rw [balance_concat]
      exact hlast k
    · exact hL L' hpre k

/-- The three facts that one induction carries: the meter is never too low, it is exact if the run
was level, and then the heights are the balances. -/
theorem run_spec (hw : ∀ m ∈ L, 0 < w m.key) :
    (run w L).board.size w ≤ (run w L).meter ∧
      ((run w L).meter = (run w L).board.size w ↔ Level L) ∧
      (Level L → ∀ k, (run w L).board.height k = balance k L) := by
  induction L using List.reverseRecOn with
  | nil =>
    have hlevel : Level ([] : List (Move κ)) := by
      intro L' hpre k
      rw [List.prefix_nil.mp hpre]
      simp [balance]
    refine ⟨le_of_eq ?_, iff_of_true ?_ hlevel, fun _ k => ?_⟩ <;>
      simp [run, Board.empty, Board.size, Board.height, balance]
  | append_singleton L m ih =>
    obtain ⟨hle, hexact, hheight⟩ := ih fun m' hm' => hw m' (List.mem_append_left [m] hm')
    have hpos := hw m (List.mem_append_right L (List.mem_singleton_self m))
    rw [run_concat, level_concat_iff, Metered.move]
    have hcharge := (run w L).board.charge_eq (w := w) m
    by_cases hm : (run w L).board.Blocks m
    · rw [if_pos hm] at hcharge
      have hlevel : ¬ (Level L ∧ ∀ k, |balance k L + m.count k| ≤ 1) := by
        rintro ⟨hL, hk⟩
        refine Board.not_blocks_iff.mpr (fun k => ?_) hm
        rw [hheight hL]
        exact hk k
      refine ⟨by dsimp only; omega, iff_of_false ?_ hlevel, fun h => absurd h hlevel⟩
      dsimp only
      omega
    · rw [if_neg hm] at hcharge
      have hheights : Level L → ∀ k, |balance k L + m.count k| ≤ 1 := by
        intro hL k
        rw [← hheight hL]
        exact Board.not_blocks_iff.mp hm k
      refine ⟨by dsimp only; omega, ?_, fun h k => ?_⟩
      · rw [and_iff_left_of_imp hheights, ← hexact]
        dsimp only
        omega
      · rw [Board.height_move hm, hheight h.1, balance_concat]

/-- **The meter of a run is exact if and only if the run is level.** -/
theorem meter_eq_size_iff (hw : ∀ m ∈ L, 0 < w m.key) :
    (run w L).meter = (run w L).board.size w ↔ Level L := (run_spec hw).2.1

end Tokens
