import RemoveWin.Lib.OpBased
import Mathlib.Data.Option.Basic

/-!
# Simulations between replicated objects

Two replicated objects with the same commands and messages, over states of different kinds. If
related states are taken to related states by both halves of every command, with the same message,
then to every run of the one there is a run of the other with the same events, in the same order at
every replica, and with related states. So what is known of the messages of the one is known of the
other, and what is known of its states carries over along the relation.

Only certain commands may have to be simulated, and only the messages that they send.

## Main results

* `Replicated.Simulates.exists_net` — every run has a counterpart
* `Replicated.Simulates.exists_alone` — every run of a replica by itself has one
* `Replicated.Simulates.accepted` — a command that is accepted is accepted there
-/

namespace Replicated

variable {ι σ τ Cmd Msg : Type}

theorem rel_none_right {α β : Type} {p : α → β → Prop} {o : Option α} (h : Option.Rel p o none) :
    o = none := by
  cases h
  rfl

theorem rel_some_right {α β : Type} {p : α → β → Prop} {o : Option α} {b : β}
    (h : Option.Rel p o (some b)) : ∃ a, o = some a ∧ p a b := by
  cases h with
  | some hab => exact ⟨_, rfl, hab⟩

theorem rel_some_left {α β : Type} {p : α → β → Prop} {o : Option β} {a : α}
    (h : Option.Rel p (some a) o) : ∃ b, o = some b ∧ p a b := by
  cases h with
  | some hab => exact ⟨_, rfl, hab⟩

/-- **The first object does what the second does**, for the commands that are `ok` and the messages
that are `good`, which are all that such commands send. -/
structure Simulates (S : OpBased ι σ Cmd Msg) (T : OpBased ι τ Cmd Msg) (R : ι → σ → τ → Prop)
    (ok : Cmd → Prop) (good : Msg → Prop) : Prop where
  init : ∀ r, R r (S.init r) (T.init r)
  prepare : ∀ {r c s t}, ok c → R r s t →
    Option.Rel (fun a b => R r a.1 b.1 ∧ a.2 = b.2 ∧ ∀ m ∈ a.2, good m)
      (S.prepare r c s) (T.prepare r c t)
  effect : ∀ {r m s t}, good m → R r s t → R r (S.effect r m s) (T.effect r m t)

/-- Two nets with the same events and related states. -/
structure Corresponds (R : ι → σ → τ → Prop) (g : Net ι σ Msg) (g' : Net ι τ Msg) : Prop where
  applied : g'.applied = g.applied
  log : g'.log = g.log
  state : ∀ r, R r (g.state r) (g'.state r)

/-- An act whose command, if it is one, is `ok`. -/
def Act.Ok (ok : Cmd → Prop) : Act ι Cmd → Prop
  | .client _ c => ok c
  | .deliver _ _ => True

/-- The commands of clients are `ok`. -/
def asking (ok : Cmd → Prop) : Cond ι σ Cmd Msg := fun _ a _ => a.Ok ok

instance (ok : Cmd → Prop) [DecidablePred ok] (g : Net ι σ Msg) (a : Act ι Cmd)
    (g' : Net ι σ Msg) : Decidable (asking ok g a g') :=
  match a with
  | .client _ c => inferInstanceAs (Decidable (ok c))
  | .deliver _ _ => inferInstanceAs (Decidable True)

namespace Corresponds

variable {R : ι → σ → τ → Prop} {g : Net ι σ Msg} {g' : Net ι τ Msg}

theorem event_eq (h : Corresponds R g g') (r : ι) (m : Msg) : g'.event r m = g.event r m := by
  rw [Net.event, Net.event, h.log, h.applied]

theorem appliedIds_eq (h : Corresponds R g g') (r : ι) : g'.appliedIds r = g.appliedIds r := by
  rw [Net.appliedIds, Net.appliedIds, h.applied]

theorem delivered_iff (h : Corresponds R g g') : Delivered g' ↔ Delivered g := by
  rw [Delivered, Delivered, h.applied, h.log]

theorem announce (h : Corresponds R g g') (e : Event ι Msg) :
    Corresponds R (g.announce e) (g'.announce e) :=
  ⟨h.applied, congrArg (· ++ [e]) h.log, h.state⟩

variable [DecidableEq ι] {r : ι} {s : σ} {t : τ}

theorem update (h : Corresponds R g g') (hst : R r s t) (r' : ι) :
    R r' (Function.update g.state r s r') (Function.update g'.state r t r') := by
  by_cases hr : r' = r
  · subst hr
    rwa [Function.update_self, Function.update_self]
  · rw [Function.update_of_ne hr, Function.update_of_ne hr]
    exact h.state r'

theorem setState (h : Corresponds R g g') (hst : R r s t) :
    Corresponds R (g.setState r s) (g'.setState r t) :=
  ⟨h.applied, h.log, h.update hst⟩

theorem apply (h : Corresponds R g g') (e : Event ι Msg) (hst : R r s t) :
    Corresponds R (g.apply r e s) (g'.apply r e t) := by
  refine ⟨?_, h.log, h.update hst⟩
  rw [Net.apply, Net.apply, h.applied]

end Corresponds

namespace Simulates

variable {S : OpBased ι σ Cmd Msg} {T : OpBased ι τ Cmd Msg} {R : ι → σ → τ → Prop}
  {ok : Cmd → Prop} {good : Msg → Prop}

/-- What a command does to a replica, its own message included. -/
theorem perform (h : Simulates S T R ok good) {r : ι} {c : Cmd} {s : σ} {t : τ} (hc : ok c)
    (hst : R r s t) : Option.Rel (R r) (S.perform r c s) (T.perform r c t) := by
  have hprep := h.prepare hc hst
  rw [OpBased.perform, OpBased.perform]
  generalize S.prepare r c s = x at hprep ⊢
  generalize T.prepare r c t = y at hprep ⊢
  cases hprep with
  | none => exact .none
  | @some a b hab =>
    obtain ⟨s', o⟩ := a
    obtain ⟨t', o'⟩ := b
    obtain ⟨hstate, rfl, hgood⟩ := hab
    cases o with
    | none => exact .some hstate
    | some m => exact .some (h.effect (hgood m rfl) hstate)

/-- A command that the counterpart completes is completed. -/
theorem performed (h : Simulates S T R ok good) {r : ι} {c : Cmd} {s : σ} {t t' : τ} (hc : ok c)
    (hst : R r s t) (ht' : T.perform r c t = some t') :
    ∃ s', S.perform r c s = some s' ∧ R r s' t' := by
  have hrel := h.perform hc hst
  rw [ht'] at hrel
  exact rel_some_right hrel

/-- A command that is accepted is accepted in the counterpart, with the same message. -/
theorem accepted (h : Simulates S T R ok good) {r : ι} {c : Cmd} {s s' : σ} {t : τ} {m : Msg}
    (hc : ok c) (hst : R r s t) (hp : S.prepare r c s = some (s', some m)) :
    ∃ t', T.prepare r c t = some (t', some m) ∧ R r (S.effect r m s') (T.effect r m t') := by
  have hrel := h.prepare hc hst
  rw [hp] at hrel
  obtain ⟨⟨t', o⟩, ht', hstate, rfl, hgood⟩ := rel_some_left hrel
  exact ⟨t', ht', h.effect (hgood m rfl) hstate⟩

/-- **Every run of a replica by itself has a counterpart.** -/
theorem exists_alone (h : Simulates S T R ok good) {r : ι} {cs : List Cmd} {s : σ}
    (hs : Alone S r cs s) (hok : ∀ c ∈ cs, ok c) : ∃ t, Alone T r cs t ∧ R r s t := by
  induction hs with
  | start => exact ⟨_, .start, h.init r⟩
  | @step cs s s' c _ hc ih =>
    obtain ⟨t, ht, hst⟩ := ih fun c' hc' => hok c' (List.mem_append_left _ hc')
    have hrel := h.perform (hok c (by simp)) hst
    rw [hc] at hrel
    obtain ⟨t', ht', hst'⟩ := rel_some_left hrel
    exact ⟨t', ht.step ht', hst'⟩

theorem start (h : Simulates S T R ok good) : Corresponds R S.start T.start := ⟨rfl, rfl, h.init⟩

variable [DecidableEq ι] {g g₁ : Net ι σ Msg} {g' : Net ι τ Msg}

/-- One act has a counterpart. -/
theorem step (h : Simulates S T R ok good) {a : Act ι Cmd} (ha : a.Ok ok)
    (hg : Corresponds R g g') (hgood : ∀ e ∈ g.log, good e.msg) (hs : S.step g a = some g₁) :
    ∃ g₁', T.step g' a = some g₁' ∧ Corresponds R g₁ g₁' ∧ ∀ e ∈ g₁.log, good e.msg := by
  cases a with
  | client r c =>
    have hprep := h.prepare ha (hg.state r)
    rw [OpBased.step] at hs ⊢
    generalize S.prepare r c (g.state r) = x at hprep hs
    generalize T.prepare r c (g'.state r) = y at hprep ⊢
    cases hprep with
    | none => cases hs
    | @some a b hab =>
      obtain ⟨s, o⟩ := a
      obtain ⟨t, o'⟩ := b
      obtain ⟨hstate, rfl, hsent⟩ := hab
      cases o with
      | none =>
        cases hs
        exact ⟨_, rfl, hg.setState hstate, hgood⟩
      | some m =>
        cases hs
        refine ⟨_, rfl, ?_, ?_⟩
        · rw [hg.event_eq]
          exact (hg.announce _).apply _ (h.effect (hsent m rfl) hstate)
        · intro e he
          rcases List.mem_append.mp he with he | he
          · exact hgood e he
          · rw [List.mem_singleton.mp he]
            exact hsent m rfl
  | deliver r i =>
    rw [OpBased.step] at hs
    cases he : g.log[i]? with
    | none =>
      rw [he] at hs
      cases hs
    | some e =>
      simp only [he] at hs
      split at hs
      · cases hs
      · next hi =>
        cases hs
        have heff := h.effect (hgood e (List.mem_of_getElem? he)) (hg.state r)
        refine ⟨_, ?_, hg.apply e heff, hgood⟩
        rw [OpBased.step, hg.log, he]
        simp only [hg.appliedIds_eq, if_neg hi]

/-- **Every run has a counterpart** with the same events and related states. The acts of the
counterpart meet the conditions that carry over. -/
theorem exists_net (h : Simulates S T R ok good) {C : Cond ι σ Cmd Msg} {D : Cond ι τ Cmd Msg}
    (hok : ∀ {g a g₁}, C g a g₁ → a.Ok ok)
    (hD : ∀ {g a g₁ g' g₁'}, Corresponds R g g' → Corresponds R g₁ g₁' → C g a g₁ → D g' a g₁')
    (hg : Reachable S C g) : ∃ g', Reachable T D g' ∧ Corresponds R g g' := by
  suffices ∃ g', Reachable T D g' ∧ Corresponds R g g' ∧ ∀ e ∈ g.log, good e.msg by
    obtain ⟨g', hg', hcorr, -⟩ := this
    exact ⟨g', hg', hcorr⟩
  induction hg with
  | refl => exact ⟨_, .refl, h.start, by simp [OpBased.start]⟩
  | tail _ hc hs ih =>
    obtain ⟨g', hg', hcorr, hgood⟩ := ih
    obtain ⟨g₁', hs', hcorr', hgood'⟩ := h.step (hok hc) hcorr hgood hs
    exact ⟨g₁', hg'.tail (hD hcorr hcorr' hc) hs', hcorr', hgood'⟩

end Simulates

end Replicated
