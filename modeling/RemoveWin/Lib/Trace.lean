import Mathlib

/-!
# Runs of a partial step function

A machine is given by a step function that says what an act leads to, if it is possible. A run is
a list of acts. This file has the two rules by which properties of all states along a run are
proved: from a condition on the acts that suffices for each step, and from one that is exact.
-/

namespace Trace

variable {σ α : Type} (step : σ → α → Option σ)

/-- Perform a list of acts. -/
def run (s : σ) : List α → Option σ
  | [] => some s
  | a :: as => (step s a).bind fun s' => run s' as

variable {step}

theorem run_append (s : σ) (as bs : List α) :
    run step s (as ++ bs) = (run step s as).bind fun s' => run step s' bs := by
  induction as generalizing s with
  | nil => rfl
  | cons a as ih =>
    rw [List.cons_append, run, run, Option.bind_assoc]
    exact Option.bind_congr fun s' _ => ih s'

theorem run_concat (s : σ) (as : List α) (a : α) :
    run step s (as ++ [a]) = (run step s as).bind fun s' => step s' a := by
  rw [run_append]
  exact Option.bind_congr fun s' _ => Option.bind_fun_some (step s' a)

/-- What has been done can be undone: a run has a state after each of its prefixes. -/
theorem exists_run_of_prefix {s s' : σ} {as as' : List α} (hrun : run step s as = some s')
    (hpre : as' <+: as) : ∃ s₁, run step s as' = some s₁ := by
  obtain ⟨l, rfl⟩ := hpre
  induction l using List.reverseRecOn generalizing s' with
  | nil => exact ⟨s', by rwa [List.append_nil] at hrun⟩
  | append_singleton l a ih =>
    rw [← List.append_assoc, run_concat] at hrun
    obtain ⟨s₁, hs₁, -⟩ := Option.bind_eq_some_iff.mp hrun
    exact ih hs₁

variable (step)

/-- Every state along the run has the property. -/
def Throughout (s₀ : σ) (P : σ → Prop) (as : List α) : Prop :=
  ∀ as' s, as' <+: as → run step s₀ as' = some s → P s

/-- Every act of the run meets the condition in the state it is performed in. -/
def Every (s₀ : σ) (c : σ → α → Prop) (as : List α) : Prop :=
  ∀ as' a s, as' ++ [a] <+: as → run step s₀ as' = some s → c s a

variable {step} {s₀ : σ} {P : σ → Prop} {c : σ → α → Prop} {as : List α}

theorem every_nil : Every step s₀ c [] := by
  intro as' a s hpre
  simp at hpre

/-- The condition, one act after the other. -/
theorem Every.cons {a : α} (ha : c s₀ a) (h : ∀ s, step s₀ a = some s → Every step s c as) :
    Every step s₀ c (a :: as) := by
  intro as' b s hpre hs
  cases as' with
  | nil =>
    obtain ⟨rfl, -⟩ := List.cons_prefix_cons.mp hpre
    exact Option.some.inj hs ▸ ha
  | cons a' as' =>
    obtain ⟨rfl, htail⟩ := List.cons_prefix_cons.mp hpre
    obtain ⟨s₁, hs₁, hs⟩ := Option.bind_eq_some_iff.mp hs
    exact h s₁ hs₁ as' b s htail hs

theorem every_cons_iff {a : α} :
    Every step s₀ c (a :: as) ↔ c s₀ a ∧ ∀ s ∈ step s₀ a, Every step s c as := by
  refine ⟨fun h => ⟨h [] a s₀ (List.prefix_append [a] as) rfl, ?_⟩, fun h => .cons h.1 h.2⟩
  intro s hs as' b s' hpre hs'
  refine h (a :: as') b s' (List.cons_prefix_cons.mpr ⟨rfl, hpre⟩) ?_
  rw [run, Option.mem_def.mp hs]
  exact hs'

instance decidableEvery [∀ s a, Decidable (c s a)] : ∀ s₀ as, Decidable (Every step s₀ c as)
  | _, [] => isTrue every_nil
  | s₀, a :: as =>
    have := fun s => decidableEvery s as
    decidable_of_iff (c s₀ a ∧ ∀ s ∈ step s₀ a, Every step s c as) every_cons_iff.symm

theorem Every.imp {c' : σ → α → Prop} (h : Every step s₀ c as) (hc : ∀ s a, c s a → c' s a) :
    Every step s₀ c' as :=
  fun as' a s hpre hs => hc s a (h as' a s hpre hs)

theorem Every.of_prefix (h : Every step s₀ c as) {as' : List α} (hpre : as' <+: as) :
    Every step s₀ c as' :=
  fun as₁ a s h₁ hs => h as₁ a s (h₁.trans hpre) hs

/-- What is left of the run meets the condition from where it is. -/
theorem Every.of_append {bs : List α} {s : σ} (h : Every step s₀ c (as ++ bs))
    (hrun : run step s₀ as = some s) : Every step s c bs := by
  intro bs' b s' hpre hs'
  refine h (as ++ bs') b s' ?_ ?_
  · rw [List.append_assoc]
    exact (List.prefix_append_right_inj as).mpr hpre
  · rw [run_append, hrun]
    exact hs'

/-- **What every step keeps holds throughout.** -/
theorem throughout_of_every (h0 : P s₀)
    (hstep : ∀ {s a s'}, P s → c s a → step s a = some s' → P s') (h : Every step s₀ c as) :
    Throughout step s₀ P as := by
  intro as'
  induction as' using List.reverseRecOn with
  | nil =>
    intro s _ hs
    exact Option.some.inj hs ▸ h0
  | append_singleton as' a ih =>
    intro s' hpre hs'
    rw [run_concat] at hs'
    obtain ⟨s, hs, ha⟩ := Option.bind_eq_some_iff.mp hs'
    exact hstep (ih s ((List.prefix_append _ _).trans hpre) hs) (h as' a s hpre hs) ha

/-- **A condition that is exact for each step is exact for the run.** -/
theorem throughout_iff_every {s' : σ} (h0 : P s₀)
    (hstep : ∀ {s a s'}, P s → step s a = some s' → (P s' ↔ c s a))
    (hrun : run step s₀ as = some s') : Throughout step s₀ P as ↔ Every step s₀ c as := by
  refine ⟨fun h as' a s hpre hs => ?_, throughout_of_every h0 fun hP hc hs => (hstep hP hs).mpr hc⟩
  obtain ⟨s₁, hs₁⟩ := exists_run_of_prefix hrun hpre
  have ha : step s a = some s₁ := by
    rwa [run_concat, hs, Option.bind_some] at hs₁
  exact (hstep (h as' s ((List.prefix_append _ _).trans hpre) hs) ha).mp (h _ s₁ hpre hs₁)

end Trace
