import Mathlib

/-!
# Reading a row of cells by position

A decoder is handed a row of cells and picks them by position, some counted from the front and
some from the back. Two things are of interest about it: what it comes to, and where it looked.
Here the positions are part of the result, so that both can be stated of the same computation, and
reading where there is no cell is a failure.

## Rules

`Gives row P m a` says that on `row` the computation `m` comes to `a` and looks only at positions
in `P`. There is a rule for every way to build a computation, and one for loops that take groups
of cells from the last to the first: such a loop meets the groups in reverse order, whatever
stands before them.
-/

namespace Cells

variable {κ α β σ ε : Type}

/-- A computation over a row of cells: its result, and the positions it looked at, in order. -/
def Reads (κ α : Type) : Type := List κ → Option (α × List ℕ)

namespace Reads

instance : Monad (Reads κ) where
  pure a _ := some (a, [])
  bind m f row := (m row).bind fun r => (f r.1 row).map fun r' => (r'.1, r.2 ++ r'.2)

/-- The cell at a position. -/
def cell (i : ℤ) : Reads κ κ := fun row =>
  if 0 ≤ i then row[i.toNat]?.map fun c => (c, [i.toNat]) else none

/-- The number of cells. -/
def size : Reads κ ℤ := fun row => some (row.length, [])

/-- A result that may be missing. -/
def ofOption (o : Option α) : Reads κ α := fun _ => o.map fun a => (a, [])

/-- The cells from a position on, so many of them. -/
def slice : ℤ → ℕ → Reads κ (List κ)
  | _, 0 => pure []
  | i, n + 1 => do
    let c ← cell i
    let cs ← slice (i + 1) n
    return c :: cs

/-- Rounds of a loop, numbered from `i` on. -/
def loop (body : ℕ → σ → Reads κ σ) : ℕ → ℕ → σ → Reads κ σ
  | 0, _, s => pure s
  | n + 1, i, s => do
    let s ← body i s
    loop body n (i + 1) s

end Reads

/-- On `row`, the computation comes to `a` and looks only at positions in `P`. -/
def Gives (row : List κ) (P : ℕ → Prop) (m : Reads κ α) (a : α) : Prop :=
  ∃ ps, m row = some (a, ps) ∧ ∀ p ∈ ps, P p

namespace Gives

open Reads

variable {row : List κ} {P : ℕ → Prop}

theorem pure (a : α) : Gives row P (Pure.pure a) a := ⟨[], rfl, by simp⟩

theorem bind {m : Reads κ α} {f : α → Reads κ β} {a : α} {b : β} (hm : Gives row P m a)
    (hf : Gives row P (f a) b) : Gives row P (m >>= f) b := by
  obtain ⟨ps, hps, hP⟩ := hm
  obtain ⟨qs, hqs, hQ⟩ := hf
  refine ⟨ps ++ qs, ?_, fun p hp => (List.mem_append.mp hp).elim (hP p) (hQ p)⟩
  show ((m row).bind fun r => (f r.1 row).map fun r' => (r'.1, r.2 ++ r'.2)) = _
  simp only [hps, hqs, Option.bind_some, Option.map_some]

theorem size : Gives row P Reads.size (row.length : ℤ) := ⟨[], rfl, by simp⟩

theorem ofOption {o : Option α} {a : α} (h : o = some a) : Gives row P (Reads.ofOption o) a :=
  ⟨[], by rw [h]; rfl, by simp⟩

theorem cell (front back : List κ) {c : κ} {i : ℤ} (hrow : row = front ++ c :: back)
    (hi : i = front.length) (hP : P front.length) : Gives row P (Reads.cell i) c := by
  refine ⟨[front.length], ?_, by simpa using hP⟩
  subst hi hrow
  simp [Reads.cell]

theorem slice {cs : List κ} : ∀ (front back : List κ) {i : ℤ}, row = front ++ (cs ++ back) →
    i = front.length → (∀ p, front.length ≤ p → P p) →
      Gives row P (Reads.slice i cs.length) cs := by
  induction cs with
  | nil => exact fun _ _ _ _ _ _ => Gives.pure []
  | cons c cs ih =>
    intro front back i hrow hi hP
    have hfirst : Gives row P (Reads.cell i) c := .cell front _ hrow hi (hP _ le_rfl)
    have hrest : Gives row P (Reads.slice (i + 1) cs.length) cs := by
      refine ih (front ++ [c]) back (by simpa using hrow) ?_ fun p hp => ?_
      · rw [hi, List.length_append, List.length_singleton, Nat.cast_add, Nat.cast_one]
      · rw [List.length_append, List.length_singleton] at hp
        exact hP p (by omega)
    exact hfirst.bind (hrest.bind (Gives.pure _))

/-- **A loop over groups of `w` cells, from the last to the first.** Round `i` works on the group
that has `w * i + c` cells behind it. -/
theorem loop_back {enc : ε → List κ} {w c : ℕ} {body : ℕ → σ → Reads κ σ} {step : σ → ε → σ}
    (es : List ε) (hw : ∀ e ∈ es, (enc e).length = w)
    (hbody : ∀ e ∈ es, ∀ front back i s, row = front ++ (enc e ++ back) →
      back.length = w * i + c → (∀ p, front.length ≤ p → P p) →
      Gives row P (body i s) (step s e)) :
    ∀ {front back : List κ} {i : ℕ} {s : σ}, row = front ++ (es.flatMap enc ++ back) →
      back.length = w * i + c → (∀ p, front.length ≤ p → P p) →
      Gives row P (Reads.loop body es.length i s) (es.reverse.foldl step s) := by
  -- on the groups from the back, since that is the order the loop meets them in
  induction es using List.reverseRecOn with
  | nil => exact fun _ _ _ => Gives.pure _
  | append_singleton es e ih =>
    intro front back i s hrow hback hP
    have hmem : e ∈ es ++ [e] := by simp
    rw [List.flatMap_append, List.flatMap_singleton, List.append_assoc] at hrow
    rw [List.length_append, List.length_singleton, List.reverse_append]
    have hround : Gives row P (body i s) (step s e) := by
      refine hbody e hmem (front ++ es.flatMap enc) back i s (by simpa using hrow) hback ?_
      intro p hp
      rw [List.length_append] at hp
      exact hP p (by omega)
    refine hround.bind (ih (fun e' he' => hw e' (List.mem_append_left _ he'))
      (fun e' he' => hbody e' (List.mem_append_left _ he')) hrow ?_ hP)
    rw [List.length_append, hw e hmem, hback]
    ring

end Gives

end Cells
