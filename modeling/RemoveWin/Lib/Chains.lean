import Mathlib.Data.List.Perm.Basic
import Mathlib.Data.List.Nodup

/-!
# Rows of chains

A table with chaining is a row of chains, and what it holds is what its chains hold together. Here
are the facts about changing one chain of a row, up to the order of what is held, and about rows in
which everything lies in the chain where it belongs.

## Main results

* `Chains.flatten_set_perm` — what a row holds after one chain of it has been replaced
* `Chains.Placed.mem_chain` — what a row holds is found in one chain
* `Chains.perm_of_find?` — what one chain gives up
-/

namespace Chains

open scoped List

variable {α : Type*}

/-- Everything lies in the chain where it belongs. -/
def Placed (home : α → ℕ) (row : List (List α)) : Prop :=
  ∀ i c, row[i]? = some c → ∀ x ∈ c, home x = i

/-- **One chain replaced**: the row gives up the old chain and takes in the new one. -/
theorem flatten_set_perm {row : List (List α)} {i : ℕ} {c : List α} (hc : row[i]? = some c)
    (c' : List α) : c ++ (row.set i c').flatten ~ c' ++ row.flatten := by
  induction row generalizing i with
  | nil => simp at hc
  | cons d row ih =>
    cases i with
    | zero =>
      obtain rfl : d = c := by simpa using hc
      simpa only [List.set_cons_zero, List.flatten_cons, List.append_assoc] using
        (List.perm_append_comm : d ++ c' ~ c' ++ d).append_right row.flatten
    | succ i =>
      have hrow := ih (i := i) (by simpa using hc)
      calc c ++ (d ++ (row.set i c').flatten)
          ~ d ++ (c ++ (row.set i c').flatten) := List.perm_append_comm_assoc c d _
        _ ~ d ++ (c' ++ row.flatten) := hrow.append_left d
        _ ~ c' ++ (d ++ row.flatten) := List.perm_append_comm_assoc d c' _

theorem placed_replicate_nil (home : α → ℕ) (n : ℕ) : Placed home (List.replicate n []) := by
  intro i c hc x hx
  rw [List.getElem?_replicate] at hc
  split_ifs at hc
  cases hc
  simp at hx

theorem Placed.set {home : α → ℕ} {row : List (List α)} (h : Placed home row) {i : ℕ} {c : List α}
    (hc : ∀ x ∈ c, home x = i) : Placed home (row.set i c) := by
  intro j d hd x hx
  rw [List.getElem?_set] at hd
  split_ifs at hd with hij hlt
  · subst hij
    cases hd
    exact hc x hx
  · exact h j d hd x hx

/-- **What a row holds is found in one chain.** -/
theorem Placed.mem_chain {home : α → ℕ} {row : List (List α)} (h : Placed home row) {x : α}
    {c : List α} (hc : row[home x]? = some c) : x ∈ c ↔ x ∈ row.flatten := by
  constructor
  · intro hx
    exact List.mem_flatten.mpr ⟨c, List.mem_of_getElem? hc, hx⟩
  · intro hx
    obtain ⟨d, hd, hxd⟩ := List.mem_flatten.mp hx
    obtain ⟨i, hi⟩ := List.getElem?_of_mem hd
    have := h i d hi x hxd
    rw [this, hi] at hc
    exact Option.some.inj hc ▸ hxd

/-- **What one chain gives up**: the first that is looked for, and the rest stays. -/
theorem perm_of_find? {p : α → Bool} {c : List α} {x : α} (h : c.find? p = some x) :
    c ~ x :: c.eraseP p := by
  induction c with
  | nil => simp at h
  | cons y c ih =>
    by_cases hy : p y
    · obtain rfl : y = x := by simpa [List.find?_cons, hy] using h
      rw [List.eraseP_cons_of_pos hy]
    · have hx : c.find? p = some x := by simpa [List.find?_cons, hy] using h
      rw [List.eraseP_cons_of_neg (by simpa using hy)]
      exact ((ih hx).cons y).trans (List.Perm.swap x y _)

end Chains
