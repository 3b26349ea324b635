import Mathlib

/-!
# Operation-based replicated objects

A replicated object of the operation-based kind has two halves. The *prepare* half runs once, at
the replica a client talks to: it reads the local state and either refuses or builds a message.
The *effect* half runs at every replica that applies the message, the origin first. This file
fixes the runs of such an object over any number of replicas, with no assumption about the
network beyond "a message is applied at most once per replica".

## Ghost history

An `Event` is a message together with what its origin had applied when it prepared it. The
`deps` field is ghost state: no prepare or effect function can see it. It is what causal
delivery, concurrency and knowledge are stated with, and it is recorded by value, so that the
history of an event does not depend on the net it is looked up in.

## Total effects

`effect` is total. An object whose effect can fail puts the failure into its state type and
makes it absorbing, so that a run goes on and statements about later states have to deal with
it. A prepare half that does not complete (`none`) is no step at all.

## Main definitions

* `Replicated.OpBased` — an object; `Net` — a state of all replicas; `Act` — what can happen
* `Replicated.OpBased.step`, `Steps`, `Reachable` — one act, and runs whose acts meet a condition
* `Replicated.causal`, `fifo`, `anyOrder` — delivery disciplines
* `Replicated.Net.WellFormed` — what holds of the bookkeeping of every run
* `Replicated.Alone` — what a replica does that hears of nobody

## Main results

* `Replicated.OpBased.step_cases` — everything an act can do
* `Replicated.Reachable.wellFormed`
* `Replicated.Steps.joint_invariant` — the induction that local states and messages go through
* `Replicated.Steps.of_run` — executable runs are runs
-/

namespace Replicated

/-- A message of a run with its history: its number in the run, the replica that prepared it
and the messages that replica had applied by then. -/
structure Event (ι Msg : Type) where
  /-- The position of the message in the log of the run. -/
  id : ℕ
  /-- The replica that prepared the message. -/
  origin : ι
  /-- What is broadcast. -/
  msg : Msg
  /-- What the origin had applied when it prepared the message, oldest first. -/
  deps : List (Event ι Msg)

/-- An operation-based object over replicas `ι`. -/
@[ext] structure OpBased (ι σ Cmd Msg : Type) where
  /-- The state a replica starts in. -/
  init : ι → σ
  /-- The prepare half: `none` when it does not complete, otherwise the local state it leaves
  and the message, if the command is accepted. -/
  prepare : ι → Cmd → σ → Option (σ × Option Msg)
  /-- The effect half. -/
  effect : ι → Msg → σ → σ

/-- A state of the whole system. -/
structure Net (ι σ Msg : Type) where
  /-- The local states. -/
  state : ι → σ
  /-- What each replica has applied, oldest first. -/
  applied : ι → List (Event ι Msg)
  /-- Every message broadcast so far, oldest first. -/
  log : List (Event ι Msg)

/-- What can happen: a client sends a command to a replica, or a replica applies the message
with number `i`. -/
inductive Act (ι Cmd : Type) where
  | client (r : ι) (c : Cmd)
  | deliver (r : ι) (i : ℕ)

variable {ι σ Cmd Msg : Type}

namespace Net

/-- The numbers of the messages a replica has applied. -/
def appliedIds (g : Net ι σ Msg) (r : ι) : List ℕ := (g.applied r).map Event.id

/-- The event a message becomes when replica `r` broadcasts it. -/
def event (g : Net ι σ Msg) (r : ι) (m : Msg) : Event ι Msg :=
  ⟨g.log.length, r, m, g.applied r⟩

/-- Put a new event on the log. -/
def announce (g : Net ι σ Msg) (e : Event ι Msg) : Net ι σ Msg :=
  { g with log := g.log ++ [e] }

@[simp] theorem announce_log (g : Net ι σ Msg) (e : Event ι Msg) :
    (g.announce e).log = g.log ++ [e] := rfl

@[simp] theorem announce_state (g : Net ι σ Msg) (e : Event ι Msg) :
    (g.announce e).state = g.state := rfl

@[simp] theorem announce_applied (g : Net ι σ Msg) (e : Event ι Msg) :
    (g.announce e).applied = g.applied := rfl

end Net

/-- The state every run starts in: nothing broadcast, nothing applied. -/
def OpBased.start (S : OpBased ι σ Cmd Msg) : Net ι σ Msg := ⟨S.init, fun _ => [], []⟩

/-! ### Bookkeeping

What the ghost history of a run looks like: numbers are positions, replicas apply what was
broadcast and nothing twice, and an origin's applied list runs through the history of each of
its events and then the event itself. -/

/-- The bookkeeping facts of every reachable net. -/
structure Net.WellFormed (g : Net ι σ Msg) : Prop where
  /-- An event's number is its position. -/
  log_id : ∀ {i : ℕ} {e : Event ι Msg}, g.log[i]? = some e → e.id = i
  /-- Only broadcast messages are applied. -/
  applied_mem : ∀ {r : ι} {e : Event ι Msg}, e ∈ g.applied r → e ∈ g.log
  /-- No message is applied twice. -/
  applied_nodup : ∀ r, (g.appliedIds r).Nodup
  /-- The origin applied the event right after its history. -/
  own : ∀ {e : Event ι Msg}, e ∈ g.log → ∃ l, g.applied e.origin = e.deps ++ e :: l
  /-- The history of an event was broadcast before it. -/
  deps_mem : ∀ {e d : Event ι Msg}, e ∈ g.log → d ∈ e.deps → d ∈ g.log ∧ d.id < e.id

namespace Net.WellFormed

variable {g : Net ι σ Msg} (w : g.WellFormed)
include w

theorem id_lt {e : Event ι Msg} (he : e ∈ g.log) : e.id < g.log.length := by
  obtain ⟨i, hi⟩ := List.mem_iff_getElem?.mp he
  rw [w.log_id hi]
  exact (List.getElem?_eq_some_iff.mp hi).1

theorem getElem?_id {e : Event ι Msg} (he : e ∈ g.log) : g.log[e.id]? = some e := by
  obtain ⟨i, hi⟩ := List.mem_iff_getElem?.mp he
  rwa [w.log_id hi]

/-- Numbers identify events. -/
theorem eq_of_id {e e' : Event ι Msg} (he : e ∈ g.log) (he' : e' ∈ g.log) (h : e.id = e'.id) :
    e = e' := by
  have := w.getElem?_id he
  rw [h, w.getElem?_id he'] at this
  exact (Option.some.inj this).symm

theorem mem_applied_iff {e : Event ι Msg} (he : e ∈ g.log) (r : ι) :
    e.id ∈ g.appliedIds r ↔ e ∈ g.applied r := by
  refine ⟨fun h => ?_, fun h => List.mem_map_of_mem h⟩
  obtain ⟨e', he', hid⟩ := List.mem_map.mp h
  rwa [← w.eq_of_id (w.applied_mem he') he hid]

/-- Replicas with the same numbers have applied the same events. -/
theorem mem_applied_congr {r r' : ι} (h : ∀ n, n ∈ g.appliedIds r ↔ n ∈ g.appliedIds r')
    (e : Event ι Msg) : e ∈ g.applied r ↔ e ∈ g.applied r' := by
  by_cases he : e ∈ g.log
  · rw [← w.mem_applied_iff he, h, w.mem_applied_iff he]
  · exact ⟨fun hr => absurd (w.applied_mem hr) he, fun hr => absurd (w.applied_mem hr) he⟩

/-- Nothing is applied twice. -/
theorem notMem_of_applied {r : ι} {A : List (Event ι Msg)} {e : Event ι Msg}
    (h : g.applied r = A ++ [e]) : e ∉ A := by
  intro he
  have hnodup := w.applied_nodup r
  rw [Net.appliedIds, h, List.map_append] at hnodup
  exact (List.nodup_append.mp hnodup).2.2 e.id (List.mem_map_of_mem he) e.id (by simp) rfl

/-- What has been applied before the last event has been broadcast. -/
theorem mem_log_of_applied {r : ι} {A : List (Event ι Msg)} {e d : Event ι Msg}
    (h : g.applied r = A ++ [e]) (hd : d ∈ A) : d ∈ g.log :=
  w.applied_mem (r := r) (by simp [h, hd])

/-- Delivery everywhere, by numbers. -/
theorem delivered_of_ids (h : ∀ r, ∀ i < g.log.length, i ∈ g.appliedIds r) (r : ι) :
    ∀ e ∈ g.log, e ∈ g.applied r := fun e he =>
  (w.mem_applied_iff he r).mp (h r e.id (w.id_lt he))

/-- Of two events of one origin, the later has the earlier in its history. -/
theorem eq_or_mem_deps {e d : Event ι Msg} (he : e ∈ g.log) (hd : d ∈ g.log)
    (ho : e.origin = d.origin) : e = d ∨ e ∈ d.deps ∨ d ∈ e.deps := by
  obtain ⟨l, hl⟩ := w.own he
  obtain ⟨l', hl'⟩ := w.own hd
  rw [ho, hl', List.append_eq_append_iff] at hl
  rcases hl with ⟨t, ht, ht'⟩ | ⟨t, ht, ht'⟩
  · cases t with
    | nil => exact .inl (List.cons.inj ht').1.symm
    | cons b t =>
      obtain ⟨rfl, -⟩ := List.cons.inj ht'
      exact .inr (.inr (by simp [ht]))
  · cases t with
    | nil => exact .inl (List.cons.inj ht').1
    | cons b t =>
      obtain ⟨rfl, -⟩ := List.cons.inj ht'
      exact .inr (.inl (by simp [ht]))

theorem log_nodup : g.log.Nodup := by
  rw [List.nodup_iff_getElem?_ne_getElem?]
  intro i j hij hj heq
  have hlog := List.getElem?_eq_getElem hj
  have := w.log_id (heq.trans hlog)
  rw [w.log_id hlog] at this
  omega

theorem notMem_deps {e : Event ι Msg} (he : e ∈ g.log) : e ∉ e.deps := fun h =>
  absurd (w.deps_mem he h).2 (Nat.lt_irrefl _)

theorem applied_id_lt {r : ι} {n : ℕ} (h : n ∈ g.appliedIds r) : n < g.log.length := by
  obtain ⟨e, he, rfl⟩ := List.mem_map.mp h
  exact w.id_lt (w.applied_mem he)

end Net.WellFormed

theorem OpBased.start_wellFormed (S : OpBased ι σ Cmd Msg) : S.start.WellFormed where
  log_id h := by simp [OpBased.start] at h
  applied_mem h := by simp [OpBased.start] at h
  applied_nodup r := by simp [OpBased.start, Net.appliedIds]
  own h := by simp [OpBased.start] at h
  deps_mem h := by simp [OpBased.start] at h

section

variable [DecidableEq ι]

namespace Net

/-- Overwrite the local state of one replica. -/
def setState (g : Net ι σ Msg) (r : ι) (s : σ) : Net ι σ Msg :=
  { g with state := Function.update g.state r s }

/-- Record that replica `r` has applied `e` and is now in state `s`. -/
def apply (g : Net ι σ Msg) (r : ι) (e : Event ι Msg) (s : σ) : Net ι σ Msg :=
  { g with
    state := Function.update g.state r s
    applied := Function.update g.applied r (g.applied r ++ [e]) }

@[simp] theorem setState_applied (g : Net ι σ Msg) (r : ι) (s : σ) :
    (g.setState r s).applied = g.applied := rfl

@[simp] theorem setState_log (g : Net ι σ Msg) (r : ι) (s : σ) :
    (g.setState r s).log = g.log := rfl

@[simp] theorem apply_log (g : Net ι σ Msg) (r : ι) (e : Event ι Msg) (s : σ) :
    (g.apply r e s).log = g.log := rfl

@[simp] theorem setState_state_self (g : Net ι σ Msg) (r : ι) (s : σ) :
    (g.setState r s).state r = s := Function.update_self ..

theorem setState_state_of_ne (g : Net ι σ Msg) {r r' : ι} (s : σ) (h : r' ≠ r) :
    (g.setState r s).state r' = g.state r' := Function.update_of_ne h ..

@[simp] theorem apply_state_self (g : Net ι σ Msg) (r : ι) (e : Event ι Msg) (s : σ) :
    (g.apply r e s).state r = s := Function.update_self ..

theorem apply_state_of_ne (g : Net ι σ Msg) {r r' : ι} (e : Event ι Msg) (s : σ) (h : r' ≠ r) :
    (g.apply r e s).state r' = g.state r' := Function.update_of_ne h ..

@[simp] theorem apply_applied_self (g : Net ι σ Msg) (r : ι) (e : Event ι Msg) (s : σ) :
    (g.apply r e s).applied r = g.applied r ++ [e] := Function.update_self ..

theorem apply_applied_of_ne (g : Net ι σ Msg) {r r' : ι} (e : Event ι Msg) (s : σ)
    (h : r' ≠ r) : (g.apply r e s).applied r' = g.applied r' := Function.update_of_ne h ..

end Net

namespace OpBased

variable (S : OpBased ι σ Cmd Msg)

/-- One act. The origin applies its own message at once, so an accepted command broadcasts and
applies in one step. -/
def step (g : Net ι σ Msg) : Act ι Cmd → Option (Net ι σ Msg)
  | .client r c =>
    match S.prepare r c (g.state r) with
    | none => none
    | some (s, none) => some (g.setState r s)
    | some (s, some m) =>
      some ((g.announce (g.event r m)).apply r (g.event r m) (S.effect r m s))
  | .deliver r i =>
    match g.log[i]? with
    | none => none
    | some e =>
      if i ∈ g.appliedIds r then none else some (g.apply r e (S.effect r e.msg (g.state r)))

/-- **Everything an act can do.** A refused command, an accepted one, or a delivery. -/
theorem step_cases {g g' : Net ι σ Msg} {a : Act ι Cmd} (h : S.step g a = some g') :
    (∃ r c s, a = .client r c ∧ S.prepare r c (g.state r) = some (s, none) ∧
        g' = g.setState r s) ∨
      (∃ r c s m, a = .client r c ∧ S.prepare r c (g.state r) = some (s, some m) ∧
        g' = (g.announce (g.event r m)).apply r (g.event r m) (S.effect r m s)) ∨
      (∃ r i e, a = .deliver r i ∧ g.log[i]? = some e ∧ i ∉ g.appliedIds r ∧
        g' = g.apply r e (S.effect r e.msg (g.state r))) := by
  cases a with
  | client r c =>
    simp only [step] at h
    split at h
    · cases h
    · next s hp => exact .inl ⟨r, c, s, rfl, hp, by simpa using h.symm⟩
    · next s m hp => exact .inr (.inl ⟨r, c, s, m, rfl, hp, by simpa using h.symm⟩)
  | deliver r i =>
    simp only [step] at h
    split at h
    · cases h
    · next e he =>
      split at h
      · cases h
      · next hi => exact .inr (.inr ⟨r, i, e, rfl, he, hi, by simpa using h.symm⟩)

end OpBased

/-- A condition on the acts of a run: the net before, the act and the net after. -/
abbrev Cond (ι σ Cmd Msg : Type) := Net ι σ Msg → Act ι Cmd → Net ι σ Msg → Prop

/-- `g` is reached from `g₀` by acts that all meet `C`. -/
inductive Steps (S : OpBased ι σ Cmd Msg) (C : Cond ι σ Cmd Msg) (g₀ : Net ι σ Msg) :
    Net ι σ Msg → Prop
  | refl : Steps S C g₀ g₀
  | tail {g g' : Net ι σ Msg} {a : Act ι Cmd} (hg : Steps S C g₀ g) (hc : C g a g')
      (hs : S.step g a = some g') : Steps S C g₀ g'

/-- `g` is reached in some run whose acts all meet `C`. -/
abbrev Reachable (S : OpBased ι σ Cmd Msg) (C : Cond ι σ Cmd Msg) (g : Net ι σ Msg) : Prop :=
  Steps S C S.start g

/-! ### Delivery disciplines -/

/-- Messages may be applied in any order. -/
def anyOrder : Cond ι σ Cmd Msg := fun _ _ _ => True

/-- A message is applied after everything its origin had applied when it was prepared. -/
def causal : Cond ι σ Cmd Msg
  | g, .deliver r i, _ => ∀ e ∈ g.log[i]?, ∀ d ∈ e.deps, d.id ∈ g.appliedIds r
  | _, .client _ _, _ => True

/-- Messages of one origin are applied in the order they were broadcast. -/
def fifo : Cond ι σ Cmd Msg
  | g, .deliver r i, _ =>
    ∀ e ∈ g.log[i]?, ∀ d ∈ e.deps, d.origin = e.origin → d.id ∈ g.appliedIds r
  | _, .client _ _, _ => True

/-- Every broadcast message has been applied everywhere. -/
def Delivered (g : Net ι σ Msg) : Prop := ∀ r, ∀ e ∈ g.log, e ∈ g.applied r

instance (g : Net ι σ Msg) (a : Act ι Cmd) (g' : Net ι σ Msg) : Decidable (anyOrder g a g') :=
  inferInstanceAs (Decidable True)

instance (g : Net ι σ Msg) (a : Act ι Cmd) (g' : Net ι σ Msg) : Decidable (causal g a g') :=
  match a with
  | .client _ _ => inferInstanceAs (Decidable True)
  | .deliver r i =>
    inferInstanceAs (Decidable (∀ e ∈ g.log[i]?, ∀ d ∈ e.deps, d.id ∈ g.appliedIds r))

instance (g : Net ι σ Msg) (a : Act ι Cmd) (g' : Net ι σ Msg) : Decidable (fifo g a g') :=
  match a with
  | .client _ _ => inferInstanceAs (Decidable True)
  | .deliver r i =>
    inferInstanceAs (Decidable
      (∀ e ∈ g.log[i]?, ∀ d ∈ e.deps, d.origin = e.origin → d.id ∈ g.appliedIds r))

/-! ### Runs -/

variable {S : OpBased ι σ Cmd Msg} {C C' : Cond ι σ Cmd Msg} {g₀ g g' : Net ι σ Msg}

/-- The induction behind every statement about runs. -/
theorem Steps.invariant {P : Net ι σ Msg → Prop} (h0 : P g₀)
    (hstep : ∀ {g g' : Net ι σ Msg} {a : Act ι Cmd}, Steps S C g₀ g → P g → C g a g' →
      S.step g a = some g' → P g') (h : Steps S C g₀ g) : P g := by
  induction h with
  | refl => exact h0
  | tail hg hc hs ih => exact hstep hg ih hc hs

theorem Steps.mono (hC : ∀ {g a g'}, C g a g' → C' g a g') (h : Steps S C g₀ g) :
    Steps S C' g₀ g := by
  induction h with
  | refl => exact .refl
  | tail _ hc hs ih => exact ih.tail (hC hc) hs

theorem Steps.trans (h : Steps S C g₀ g) (h' : Steps S C g g') : Steps S C g₀ g' := by
  induction h' with
  | refl => exact h
  | tail _ hc hs ih => exact ih.tail hc hs

/-- An act leaves the log alone or appends one event. -/
theorem OpBased.step_log {a : Act ι Cmd} (h : S.step g a = some g') :
    g'.log = g.log ∨ ∃ e, g'.log = g.log ++ [e] := by
  obtain ⟨r, c, s, -, -, rfl⟩ | ⟨r, c, s, m, -, -, rfl⟩ | ⟨r, i, e, -, -, -, rfl⟩ :=
    S.step_cases h
  · exact .inl rfl
  · exact .inr ⟨_, rfl⟩
  · exact .inl rfl

/-- What has been applied stays applied. -/
theorem Steps.applied_subset (h : Steps S C g₀ g) (r : ι) :
    ∀ e ∈ g₀.applied r, e ∈ g.applied r := by
  induction h with
  | refl => exact fun _ => id
  | tail _ _ hs ih =>
    intro e he
    obtain ⟨r', c, s, -, -, rfl⟩ | ⟨r', c, s, m, -, -, rfl⟩ | ⟨r', i, e', -, -, -, rfl⟩ :=
      OpBased.step_cases _ hs
    · exact ih e he
    · by_cases hr : r = r'
      · subst hr
        rw [Net.apply_applied_self]
        exact List.mem_append_left _ (ih e he)
      · rw [Net.apply_applied_of_ne _ _ _ hr]
        exact ih e he
    · by_cases hr : r = r'
      · subst hr
        rw [Net.apply_applied_self]
        exact List.mem_append_left _ (ih e he)
      · rw [Net.apply_applied_of_ne _ _ _ hr]
        exact ih e he

/-- A property of the log that passes to prefixes holds all along a run once it holds at the
end, so it may be assumed of every act. -/
theorem Steps.and_log {K : List (Event ι Msg) → Prop} (hK : ∀ l e, K (l ++ [e]) → K l)
    (h : Steps S C g₀ g) (hg : K g.log) :
    Steps S (fun g a g' => C g a g' ∧ K g'.log) g₀ g := by
  induction h with
  | refl => exact .refl
  | @tail g g' a _ hc hs ih =>
    have hlog : K g.log := by
      rcases OpBased.step_log hs with heq | ⟨e, heq⟩
      · rwa [heq] at hg
      · exact hK _ e (heq ▸ hg)
    exact (ih hlog).tail ⟨hc, hg⟩ hs

/-! ### Executable runs -/

/-- Perform a list of acts, checking the condition at each. -/
def OpBased.run (S : OpBased ι σ Cmd Msg) (C : Cond ι σ Cmd Msg)
    [∀ g a g', Decidable (C g a g')] (g : Net ι σ Msg) : List (Act ι Cmd) → Option (Net ι σ Msg)
  | [] => some g
  | a :: as =>
    match S.step g a with
    | none => none
    | some g' => if C g a g' then S.run C g' as else none

theorem Steps.of_run [∀ g a g', Decidable (C g a g')] {as : List (Act ι Cmd)} :
    ∀ {g : Net ι σ Msg}, Steps S C g₀ g → S.run C g as = some g' → Steps S C g₀ g' := by
  induction as with
  | nil =>
    intro g hg h
    obtain rfl : g = g' := by simpa [OpBased.run] using h
    exact hg
  | cons a as ih =>
    intro g hg h
    simp only [OpBased.run] at h
    split at h
    · cases h
    · next g₁ hs =>
      split at h
      · next hc => exact ih (hg.tail hc hs) h
      · cases h

/-- A run that ends in a net that passes a test, found by executing it. -/
theorem Steps.exists_of_run [∀ g a g', Decidable (C g a g')] {p : Net ι σ Msg → Prop}
    [DecidablePred p] (h : Steps S C g₀ g) (as : List (Act ι Cmd))
    (hrun : (S.run C g as).any (fun g' => p g') = true) : ∃ g', Steps S C g₀ g' ∧ p g' := by
  obtain ⟨g', hg', hp⟩ := (Option.any_eq_true ..).mp hrun
  exact ⟨g', h.of_run hg', of_decide_eq_true hp⟩

theorem OpBased.exists_reachable (S : OpBased ι σ Cmd Msg) (C : Cond ι σ Cmd Msg)
    [∀ g a g', Decidable (C g a g')] (p : Net ι σ Msg → Prop) [DecidablePred p]
    (as : List (Act ι Cmd)) (hrun : (S.run C S.start as).any (fun g => p g) = true) :
    ∃ g, Reachable S C g ∧ p g := Steps.exists_of_run .refl as hrun

/-! ### The bookkeeping of runs -/

/-- Applying a broadcast message that was not applied yet keeps the bookkeeping in order. -/
theorem Net.WellFormed.apply (w : g.WellFormed) {r : ι} {e : Event ι Msg} (he : e ∈ g.log)
    (hr : e.id ∉ g.appliedIds r) (s : σ) : (g.apply r e s).WellFormed where
  log_id := w.log_id
  applied_mem {r' e'} h := by
    by_cases hr' : r' = r
    · subst hr'
      rw [Net.apply_applied_self, List.mem_append, List.mem_singleton] at h
      rcases h with h | rfl
      · exact w.applied_mem h
      · exact he
    · rw [Net.apply_applied_of_ne _ _ _ hr'] at h
      exact w.applied_mem h
  applied_nodup r' := by
    by_cases hr' : r' = r
    · subst hr'
      rw [Net.appliedIds, Net.apply_applied_self, List.map_append, List.map_singleton]
      exact (w.applied_nodup r').append (List.nodup_singleton _) (by simpa using hr)
    · rw [Net.appliedIds, Net.apply_applied_of_ne _ _ _ hr']
      exact w.applied_nodup r'
  own {e'} h := by
    obtain ⟨l, hl⟩ := w.own h
    by_cases hr' : e'.origin = r
    · exact ⟨l ++ [e], by rw [hr', Net.apply_applied_self, ← hr', hl]; simp⟩
    · exact ⟨l, by rw [Net.apply_applied_of_ne _ _ _ hr', hl]⟩
  deps_mem := w.deps_mem

/-- Broadcasting and applying a new event keeps the bookkeeping in order. -/
theorem Net.WellFormed.issue (w : g.WellFormed) (r : ι) (m : Msg) (s : σ) :
    ((g.announce (g.event r m)).apply r (g.event r m) s).WellFormed where
  log_id {i e} h := by
    rw [Net.apply_log, Net.announce_log, List.getElem?_append] at h
    split at h
    · exact w.log_id h
    · next hi =>
      rw [List.getElem?_singleton] at h
      split at h
      · next h0 =>
        cases h
        exact show g.log.length = i by omega
      · cases h
  applied_mem {r' e} h := by
    rw [Net.apply_log, Net.announce_log, List.mem_append, List.mem_singleton]
    by_cases hr' : r' = r
    · subst hr'
      rw [Net.apply_applied_self, List.mem_append, List.mem_singleton] at h
      exact h.imp w.applied_mem id
    · rw [Net.apply_applied_of_ne _ _ _ hr'] at h
      exact .inl (w.applied_mem h)
  applied_nodup r' := by
    by_cases hr' : r' = r
    · subst hr'
      rw [Net.appliedIds, Net.apply_applied_self, List.map_append, List.map_singleton]
      refine (w.applied_nodup r').append (List.nodup_singleton _) ?_
      have hfresh : (g.event r' m).id ∉ g.appliedIds r' := fun h =>
        absurd (w.applied_id_lt h) (Nat.lt_irrefl _)
      simpa using hfresh
    · rw [Net.appliedIds, Net.apply_applied_of_ne _ _ _ hr']
      exact w.applied_nodup r'
  own {e} h := by
    rw [Net.apply_log, Net.announce_log, List.mem_append, List.mem_singleton] at h
    rcases h with h | rfl
    · obtain ⟨l, hl⟩ := w.own h
      by_cases hr' : e.origin = r
      · refine ⟨l ++ [g.event r m], ?_⟩
        rw [hr', Net.apply_applied_self, Net.announce_applied, ← hr', hl]
        simp
      · exact ⟨l, by rw [Net.apply_applied_of_ne _ _ _ hr', Net.announce_applied, hl]⟩
    · exact ⟨[], Net.apply_applied_self ..⟩
  deps_mem {e d} h hd := by
    rw [Net.apply_log, Net.announce_log, List.mem_append, List.mem_singleton] at h ⊢
    rcases h with h | rfl
    · exact ⟨.inl (w.deps_mem h hd).1, (w.deps_mem h hd).2⟩
    · exact ⟨.inl (w.applied_mem hd), w.id_lt (w.applied_mem hd)⟩

theorem OpBased.step_wellFormed {a : Act ι Cmd} (w : g.WellFormed) (h : S.step g a = some g') :
    g'.WellFormed := by
  obtain ⟨r, c, s, -, -, rfl⟩ | ⟨r, c, s, m, -, -, rfl⟩ | ⟨r, i, e, -, he, hi, rfl⟩ :=
    S.step_cases h
  · exact ⟨w.log_id, w.applied_mem, w.applied_nodup, w.own, w.deps_mem⟩
  · exact w.issue r m _
  · refine w.apply (List.mem_of_getElem? he) ?_ _
    rwa [w.log_id he]

theorem Steps.wellFormed (h0 : g₀.WellFormed) (h : Steps S C g₀ g) : g.WellFormed :=
  h.invariant h0 fun _ w _ hs => OpBased.step_wellFormed w hs

theorem Reachable.wellFormed (h : Reachable S C g) : g.WellFormed :=
  Steps.wellFormed S.start_wellFormed h

/-- The act that leads from `g` to `g'` applies event `e` at replica `r`, in state `s`: the state
the replica was in, or the one its prepare half left. -/
structure Applies (S : OpBased ι σ Cmd Msg) (C : Cond ι σ Cmd Msg) (g₀ g g' : Net ι σ Msg) (r : ι)
    (e : Event ι Msg) (s : σ) : Prop where
  /-- The run up to here. -/
  before : Steps S C g₀ g
  /-- The run with this act. -/
  after : Steps S C g₀ g'
  /-- The event has been broadcast. -/
  mem : e ∈ g'.log
  /-- The event is applied. -/
  applied : g'.applied r = g.applied r ++ [e]
  /-- The act is its delivery, or the command it answers. -/
  source : (s = g.state r ∧ ∃ i, C g (.deliver r i) g' ∧ g.log[i]? = some e) ∨
    ∃ c, C g (.client r c) g' ∧ S.prepare r c (g.state r) = some (s, some e.msg)

/-- **Local states and messages by one induction over runs.** `I r A s` speaks about one replica:
what it has applied and the state it is in. `J e` speaks about one event. Both hold all along a
run if a prepare half keeps `I` without anything being applied and establishes `J` of what it
sends, and an effect keeps `I` when its event joins the applied list. -/
theorem Steps.apply_invariant {I : ι → List (Event ι Msg) → σ → Prop} {J : Event ι Msg → Prop}
    (h0 : ∀ r, I r (g₀.applied r) (g₀.state r)) (h0' : ∀ e ∈ g₀.log, J e)
    (hprep : ∀ {g g' : Net ι σ Msg} {r : ι} {c : Cmd} {s : σ} {o : Option Msg},
      Steps S C g₀ g → C g (.client r c) g' → S.prepare r c (g.state r) = some (s, o) →
      I r (g.applied r) (g.state r) → I r (g.applied r) s)
    (hissue : ∀ {g g' : Net ι σ Msg} {r : ι} {c : Cmd} {s : σ} {m : Msg},
      Steps S C g₀ g → (∀ e ∈ g.log, J e) → I r (g.applied r) (g.state r) →
      C g (.client r c) g' → g'.log = g.log ++ [g.event r m] →
      g'.applied r = g.applied r ++ [g.event r m] →
      S.prepare r c (g.state r) = some (s, some m) → J (g.event r m))
    (happly : ∀ {g g' : Net ι σ Msg} {r : ι} {e : Event ι Msg} {s : σ},
      Applies S C g₀ g g' r e s → (∀ e ∈ g'.log, J e) → I r (g.applied r) s →
      I r (g.applied r ++ [e]) (S.effect r e.msg s))
    (h : Steps S C g₀ g) : (∀ e ∈ g.log, J e) ∧ ∀ r, I r (g.applied r) (g.state r) := by
  refine h.invariant (P := fun g => (∀ e ∈ g.log, J e) ∧ ∀ r, I r (g.applied r) (g.state r))
    ⟨h0', h0⟩ ?_
  rintro g g' a hg ⟨ihJ, ihI⟩ hc hs
  have hg' : Steps S C g₀ g' := hg.tail hc hs
  obtain ⟨r, c, s, rfl, hp, rfl⟩ | ⟨r, c, s, m, rfl, hp, rfl⟩ | ⟨r, i, e, rfl, he, hi, rfl⟩ :=
    S.step_cases hs
  · refine ⟨ihJ, fun r' => ?_⟩
    by_cases hr : r' = r
    · subst hr
      rw [Net.setState_state_self, Net.setState_applied]
      exact hprep hg hc hp (ihI r')
    · rw [Net.setState_state_of_ne _ _ hr]
      exact ihI r'
  · have hJ : ∀ e ∈ g.log ++ [g.event r m], J e := by
      intro e he
      rw [List.mem_append, List.mem_singleton] at he
      rcases he with he | rfl
      · exact ihJ e he
      · exact hissue hg ihJ (ihI r) hc rfl (Net.apply_applied_self ..) hp
    refine ⟨hJ, fun r' => ?_⟩
    by_cases hr : r' = r
    · subst hr
      rw [Net.apply_state_self, Net.apply_applied_self]
      exact happly (g := g) (e := g.event r' m) ⟨hg, hg', by simp, Net.apply_applied_self ..,
        .inr ⟨c, hc, hp⟩⟩ hJ (hprep hg hc hp (ihI r'))
    · rw [Net.apply_state_of_ne _ _ _ hr, Net.apply_applied_of_ne _ _ _ hr]
      exact ihI r'
  · refine ⟨ihJ, fun r' => ?_⟩
    by_cases hr : r' = r
    · subst hr
      rw [Net.apply_state_self, Net.apply_applied_self]
      exact happly ⟨hg, hg', List.mem_of_getElem? he, Net.apply_applied_self ..,
        .inl ⟨rfl, i, hc, he⟩⟩ ihJ (ihI r')
    · rw [Net.apply_state_of_ne _ _ _ hr, Net.apply_applied_of_ne _ _ _ hr]
      exact ihI r'

/-- The same, for invariants that need not know which act applied an event. -/
theorem Steps.joint_invariant {I : ι → List (Event ι Msg) → σ → Prop} {J : Event ι Msg → Prop}
    (h0 : ∀ r, I r (g₀.applied r) (g₀.state r)) (h0' : ∀ e ∈ g₀.log, J e)
    (hprep : ∀ {g g' : Net ι σ Msg} {r : ι} {c : Cmd} {s : σ} {o : Option Msg},
      Steps S C g₀ g → C g (.client r c) g' → S.prepare r c (g.state r) = some (s, o) →
      I r (g.applied r) (g.state r) → I r (g.applied r) s)
    (hissue : ∀ {g g' : Net ι σ Msg} {r : ι} {c : Cmd} {s : σ} {m : Msg},
      Steps S C g₀ g → (∀ e ∈ g.log, J e) → I r (g.applied r) (g.state r) →
      C g (.client r c) g' → g'.log = g.log ++ [g.event r m] →
      S.prepare r c (g.state r) = some (s, some m) → J (g.event r m))
    (happly : ∀ {g' : Net ι σ Msg} {r : ι} {e : Event ι Msg} {A : List (Event ι Msg)} {s : σ},
      Steps S C g₀ g' → (∀ e ∈ g'.log, J e) → e ∈ g'.log → g'.applied r = A ++ [e] → I r A s →
      I r (A ++ [e]) (S.effect r e.msg s))
    (h : Steps S C g₀ g) : (∀ e ∈ g.log, J e) ∧ ∀ r, I r (g.applied r) (g.state r) :=
  h.apply_invariant h0 h0' hprep (fun hg hJ hI hc hlog _ hp => hissue hg hJ hI hc hlog hp)
    fun ha hJ hI => happly ha.after hJ ha.mem ha.applied hI

/-- Local states alone. -/
theorem Steps.local_invariant {I : ι → List (Event ι Msg) → σ → Prop}
    (h0 : ∀ r, I r (g₀.applied r) (g₀.state r))
    (hprep : ∀ {g g' : Net ι σ Msg} {r : ι} {c : Cmd} {s : σ} {o : Option Msg},
      Steps S C g₀ g → C g (.client r c) g' → S.prepare r c (g.state r) = some (s, o) →
      I r (g.applied r) (g.state r) → I r (g.applied r) s)
    (happly : ∀ {g' : Net ι σ Msg} {r : ι} {e : Event ι Msg} {A : List (Event ι Msg)} {s : σ},
      Steps S C g₀ g' → e ∈ g'.log → g'.applied r = A ++ [e] → I r A s →
      I r (A ++ [e]) (S.effect r e.msg s))
    (h : Steps S C g₀ g) : ∀ r, I r (g.applied r) (g.state r) :=
  (h.joint_invariant (J := fun _ => True) h0 (fun _ _ => trivial) hprep
    (fun _ _ _ _ _ _ => trivial) fun hg' _ he happ hI => happly hg' he happ hI).2

/-- Messages alone. -/
theorem Steps.log_invariant {J : Event ι Msg → Prop} (h0 : ∀ e ∈ g₀.log, J e)
    (hissue : ∀ {g g' : Net ι σ Msg} {r : ι} {c : Cmd} {s : σ} {m : Msg},
      Steps S C g₀ g → (∀ e ∈ g.log, J e) → C g (.client r c) g' → g'.log = g.log ++ [g.event r m] →
      S.prepare r c (g.state r) = some (s, some m) → J (g.event r m))
    (h : Steps S C g₀ g) : ∀ e ∈ g.log, J e :=
  (h.joint_invariant (I := fun _ _ _ => True) (fun _ => trivial) h0 (fun _ _ _ _ => trivial)
    (fun hg ihJ _ hc hlog hp => hissue hg ihJ hc hlog hp) fun _ _ _ _ _ => trivial).1

end

/-! ### Messages made of items -/

/-- An effect that goes through the items of a message one by one keeps a property of "the items
received so far and the state" if each item does. -/
theorem foldl_received {α β : Type} {P : List β → α → Prop} {f : α → β → α} {a : α} :
    ∀ {L L' : List β}, P L a → (∀ L a, ∀ b ∈ L', P L a → P (L ++ [b]) (f a b)) →
      P (L ++ L') (L'.foldl f a) := by
  intro L L'
  induction L' generalizing L a with
  | nil => intro h _; simpa using h
  | cons b L' ih =>
    intro h hs
    have := ih (hs L a b (by simp) h) fun L a b' hb' => hs L a b' (by simp [hb'])
    simpa using this

/-- An item that occurs once in everything a list of events carries belongs to one event. -/
theorem eq_of_nodup_items {α β : Type} {l : List α} {f : α → List β} (h : (l.flatMap f).Nodup)
    {a b : α} (ha : a ∈ l) (hb : b ∈ l) {x : β} (hxa : x ∈ f a) (hxb : x ∈ f b) : a = b := by
  by_contra hne
  have hsymm : Std.Symm (Function.onFun List.Disjoint f) := ⟨fun _ _ hd => hd.symm⟩
  exact (List.nodup_flatMap.mp h).2.forall ha hb hne hxa hxb

/-- Items that occur once in what was broadcast occur once in what a replica applied. -/
theorem Net.WellFormed.nodup_items {g : Net ι σ Msg} (w : g.WellFormed) {β : Type}
    {f : Event ι Msg → List β} (h : (g.log.flatMap f).Nodup) (r : ι) :
    ((g.applied r).flatMap f).Nodup := by
  rw [List.nodup_flatMap]
  refine ⟨fun e he => (List.nodup_flatMap.mp h).1 e (w.applied_mem he), ?_⟩
  refine (w.applied_nodup r).of_map.imp_of_mem fun {e d} he hd hne x hx hx' => hne ?_
  exact eq_of_nodup_items h (w.applied_mem he) (w.applied_mem hd) hx hx'

/-! ### Causal order -/

/-- Every event of the list comes after its own history. -/
def CausalList (A : List (Event ι Msg)) : Prop :=
  ∀ l e l', A = l ++ e :: l' → ∀ d ∈ e.deps, d ∈ l

theorem causalList_nil : CausalList ([] : List (Event ι Msg)) := by
  intro l e l' h
  simp at h

theorem CausalList.of_append {A B : List (Event ι Msg)} (h : CausalList (A ++ B)) :
    CausalList A := by
  intro l e l' hA
  exact h l e (l' ++ B) (by simp [hA])

theorem CausalList.concat {A : List (Event ι Msg)} {e : Event ι Msg} (h : CausalList A)
    (he : ∀ d ∈ e.deps, d ∈ A) : CausalList (A ++ [e]) := by
  intro l e' l' heq
  rcases List.eq_nil_or_concat l' with rfl | ⟨l'', b, rfl⟩
  · obtain ⟨rfl, hlast⟩ := List.append_inj' heq rfl
    obtain rfl : e = e' := by simpa using hlast
    exact he
  · rw [List.concat_eq_append, ← List.cons_append, ← List.append_assoc] at heq
    obtain ⟨hA, -⟩ := List.append_inj' heq rfl
    exact h l e' l'' hA

theorem CausalList.deps_mem {A : List (Event ι Msg)} (h : CausalList A) {e d : Event ι Msg}
    (he : e ∈ A) (hd : d ∈ e.deps) : d ∈ A := by
  obtain ⟨l, l', rfl⟩ := List.append_of_mem he
  exact List.mem_append_left _ (h l e l' rfl d hd)

theorem CausalList.last {A : List (Event ι Msg)} {e : Event ι Msg} (h : CausalList (A ++ [e]))
    {d : Event ι Msg} (hd : d ∈ e.deps) : d ∈ A := h A e [] rfl d hd

section

variable [DecidableEq ι] {S : OpBased ι σ Cmd Msg} {C : Cond ι σ Cmd Msg} {g₀ g : Net ι σ Msg}

/-- **What causal delivery keeps.** Every applied list has a property that does not get lost when an
event joins a list that contains its history. -/
theorem Steps.applied_invariant {P : List (Event ι Msg) → Prop}
    (hC : ∀ {g a g'}, C g a g' → causal g a g') (h0 : g₀.WellFormed)
    (hconcat : ∀ {A e}, P A → (∀ d ∈ e.deps, d ∈ A) → P (A ++ [e]))
    (hc0 : ∀ r, P (g₀.applied r)) (h : Steps S C g₀ g) (r : ι) : P (g.applied r) := by
  revert r
  refine h.invariant (P := fun g => ∀ r, P (g.applied r)) hc0 ?_
  intro g g' a hg ih hc hs r'
  obtain ⟨r, c, s, rfl, hp, rfl⟩ | ⟨r, c, s, m, rfl, hp, rfl⟩ | ⟨r, i, e, rfl, he, hi, rfl⟩ :=
    S.step_cases hs
  · exact ih r'
  · by_cases hr : r' = r
    · subst hr
      rw [Net.apply_applied_self]
      exact hconcat (ih r') fun d hd => hd
    · rw [Net.apply_applied_of_ne _ _ _ hr]
      exact ih r'
  · by_cases hr : r' = r
    · subst hr
      rw [Net.apply_applied_self]
      refine hconcat (ih r') fun d hd => ?_
      have w : g.WellFormed := hg.wellFormed h0
      have hmem := hC hc e he d hd
      exact (w.mem_applied_iff (w.deps_mem (List.mem_of_getElem? he) hd).1 r').mp hmem
    · rw [Net.apply_applied_of_ne _ _ _ hr]
      exact ih r'

/-- Under causal delivery every replica's applied list is causally ordered. -/
theorem Steps.causalList (hC : ∀ {g a g'}, C g a g' → causal g a g') (h0 : g₀.WellFormed)
    (hc0 : ∀ r, CausalList (g₀.applied r)) (h : Steps S C g₀ g) (r : ι) :
    CausalList (g.applied r) :=
  h.applied_invariant hC h0 CausalList.concat hc0 r

theorem Reachable.causalList (hC : ∀ {g a g'}, C g a g' → causal g a g')
    (h : Reachable S C g) (r : ι) : CausalList (g.applied r) :=
  Steps.causalList hC S.start_wellFormed (fun _ => causalList_nil) h r

end

/-- The history of a broadcast event is causally ordered. -/
theorem Net.WellFormed.causalList_deps {g : Net ι σ Msg} (w : g.WellFormed)
    (hA : ∀ r, CausalList (g.applied r)) {e : Event ι Msg} (he : e ∈ g.log) :
    CausalList e.deps := by
  obtain ⟨l, hl⟩ := w.own he
  have := hA e.origin
  rw [hl] at this
  exact this.of_append

/-! ### Closed histories -/

/-- The list contains the history of each of its events. -/
def Closed (A : List (Event ι Msg)) : Prop := ∀ e ∈ A, ∀ d ∈ e.deps, d ∈ A

theorem Closed.concat {A : List (Event ι Msg)} {e : Event ι Msg} (h : Closed A)
    (he : ∀ d ∈ e.deps, d ∈ A) : Closed (A ++ [e]) := by
  intro e' he' d hd
  rw [List.mem_append, List.mem_singleton] at he'
  refine List.mem_append_left _ ?_
  rcases he' with he' | rfl
  · exact h e' he' d hd
  · exact he d hd

/-- A replica that has applied everything has a closed history. -/
theorem Delivered.closed {g : Net ι σ Msg} (hd : Delivered g) (w : g.WellFormed) (r : ι) :
    Closed (g.applied r) := fun _ he _ hd' => hd r _ (w.deps_mem (w.applied_mem he) hd').1

/-- A replica that has applied everything has applied what was broadcast, in some order. -/
theorem Delivered.perm {g : Net ι σ Msg} (hd : Delivered g) (w : g.WellFormed) (r : ι) :
    (g.applied r).Perm g.log :=
  (List.perm_ext_iff_of_nodup (w.applied_nodup r).of_map w.log_nodup).mpr fun e =>
    ⟨w.applied_mem, hd r e⟩

section

variable [DecidableEq ι] {S : OpBased ι σ Cmd Msg} {C : Cond ι σ Cmd Msg} {g₀ g : Net ι σ Msg}

/-- Causal delivery keeps histories closed. -/
theorem Steps.closed (hC : ∀ {g a g'}, C g a g' → causal g a g') (h0 : g₀.WellFormed)
    (hc0 : ∀ r, Closed (g₀.applied r)) (h : Steps S C g₀ g) (r : ι) : Closed (g.applied r) :=
  h.applied_invariant hC h0 Closed.concat hc0 r

/-- What is broadcast under causal delivery has a closed history. -/
theorem Steps.closed_deps (hC : ∀ {g a g'}, C g a g' → causal g a g') (h0 : g₀.WellFormed)
    (hc0 : ∀ r, Closed (g₀.applied r)) (h : Steps S C g₀ g) :
    ∀ e ∈ g.log, e ∉ g₀.log → Closed e.deps := by
  refine h.log_invariant (fun e he hne => absurd he hne) ?_
  intro g g' r c s m hg _ _ _ _ _
  exact hg.closed hC h0 hc0 r

/-- What is broadcast after everything has been delivered has all of it in its history. -/
theorem Steps.old_mem_deps (hd₀ : Delivered g₀) (h : Steps S C g₀ g) :
    ∀ e ∈ g.log, e ∉ g₀.log → ∀ d ∈ g₀.log, d ∈ e.deps := by
  refine h.log_invariant (fun e he hne => absurd he hne) ?_
  intro g g' r c s m hg _ _ _ _ _ d hd
  exact hg.applied_subset r d (hd₀ r d hd)

end

/-- An event that has just been applied comes after its history. -/
theorem Closed.mem_of_concat {A : List (Event ι Msg)} {e d : Event ι Msg} (h : Closed (A ++ [e]))
    (he : e ∉ e.deps) (hd : d ∈ e.deps) : d ∈ A := by
  have hmem := h e (by simp) d hd
  rw [List.mem_append, List.mem_singleton] at hmem
  refine hmem.resolve_right ?_
  rintro rfl
  exact he hd

/-! ### A replica by itself

A replica that hears of nobody executes the commands of its own clients one after the other. -/

/-- A command at a replica: the prepare half and then, if it is accepted, its own effect. -/
def OpBased.perform (S : OpBased ι σ Cmd Msg) (r : ι) (c : Cmd) (s : σ) : Option σ :=
  match S.prepare r c s with
  | none => none
  | some (s', none) => some s'
  | some (s', some m) => some (S.effect r m s')

theorem OpBased.perform_eq {S : OpBased ι σ Cmd Msg} {r : ι} {c : Cmd} {s s' : σ}
    {o : Option Msg} (h : S.prepare r c s = some (s', o)) :
    S.perform r c s = some (o.elim s' (S.effect r · s')) := by
  rw [OpBased.perform, h]
  cases o <;> rfl

/-- Replica `r` has executed these commands, and nothing else, and is in this state. -/
inductive Alone (S : OpBased ι σ Cmd Msg) (r : ι) : List Cmd → σ → Prop
  | start : Alone S r [] (S.init r)
  | step {cs : List Cmd} {s s' : σ} {c : Cmd} (h : Alone S r cs s)
      (hc : S.perform r c s = some s') : Alone S r (cs ++ [c]) s'

/-- Executing commands one after the other. -/
def OpBased.performAll (S : OpBased ι σ Cmd Msg) (r : ι) : List Cmd → σ → Option σ
  | [], s => some s
  | c :: cs, s => (S.perform r c s).bind (S.performAll r cs)

theorem Alone.append {S : OpBased ι σ Cmd Msg} {r : ι} {cs cs' : List Cmd} {s s' : σ}
    (h : Alone S r cs s) (hrun : S.performAll r cs' s = some s') : Alone S r (cs ++ cs') s' := by
  induction cs' generalizing cs s with
  | nil =>
    cases hrun
    rwa [List.append_nil]
  | cons c cs' ih =>
    obtain ⟨s₁, hc, hrun⟩ := Option.bind_eq_some_iff.mp hrun
    have hnext := ih (h.step hc) hrun
    rwa [List.append_assoc] at hnext

theorem OpBased.performAll_concat (S : OpBased ι σ Cmd Msg) (r : ι) (cs : List Cmd) (c : Cmd)
    (s : σ) : S.performAll r (cs ++ [c]) s = (S.performAll r cs s).bind (S.perform r c) := by
  induction cs generalizing s with
  | nil => simp [OpBased.performAll]
  | cons c' cs ih =>
    simp only [List.cons_append, OpBased.performAll, Option.bind_assoc]
    exact Option.bind_congr fun s' _ => ih s'

/-- The commands determine the state. -/
theorem Alone.performAll_eq {S : OpBased ι σ Cmd Msg} {r : ι} {cs : List Cmd} {s : σ}
    (h : Alone S r cs s) : S.performAll r cs (S.init r) = some s := by
  induction h with
  | start => rfl
  | step _ hc ih => rw [OpBased.performAll_concat, ih, Option.bind_some, hc]

theorem Alone.unique {S : OpBased ι σ Cmd Msg} {r : ι} {cs : List Cmd} {s s' : σ}
    (h : Alone S r cs s) (h' : Alone S r cs s') : s = s' :=
  Option.some.inj (h.performAll_eq.symm.trans h'.performAll_eq)

/-- The first commands have been executed before the others. -/
theorem Alone.exists_of_prefix {S : OpBased ι σ Cmd Msg} {r : ι} {cs cs' : List Cmd} {s : σ}
    (h : Alone S r cs s) (hpre : cs' <+: cs) : ∃ s', Alone S r cs' s' := by
  induction h with
  | start =>
    obtain rfl := List.prefix_nil.mp hpre
    exact ⟨_, .start⟩
  | step h hc ih =>
    rcases List.prefix_concat_iff.mp hpre with rfl | hpre
    · exact ⟨_, h.step hc⟩
    · exact ih hpre

theorem OpBased.exists_alone (S : OpBased ι σ Cmd Msg) (r : ι) (p : σ → Prop) [DecidablePred p]
    (cs : List Cmd) (hrun : (S.performAll r cs (S.init r)).any (fun s => p s) = true) :
    ∃ s, Alone S r cs s ∧ p s := by
  obtain ⟨s, hs, hp⟩ := (Option.any_eq_true ..).mp hrun
  exact ⟨s, Alone.start.append hs, of_decide_eq_true hp⟩

section

variable [DecidableEq ι] {S : OpBased ι σ Cmd Msg} {g : Net ι σ Msg}

/-- Performing a command is what an act of a client does to its replica. -/
theorem OpBased.exists_step_of_perform {r : ι} {c : Cmd} {s : σ}
    (h : S.perform r c (g.state r) = some s) : ∃ g', S.step g (.client r c) = some g' ∧
      g'.state r = s ∧ ∀ e ∈ g'.applied r, e ∈ g.applied r ∨ e.origin = r := by
  rw [OpBased.perform] at h
  split at h
  · cases h
  · next s' hp =>
    obtain rfl := Option.some.inj h
    refine ⟨g.setState r s', by rw [OpBased.step, hp], by simp, fun e he => .inl he⟩
  · next s' m hp =>
    cases h
    refine ⟨_, by rw [OpBased.step, hp], by simp, fun e he => ?_⟩
    rw [Net.apply_applied_self, List.mem_append, List.mem_singleton] at he
    exact he.imp_right fun he => by rw [he]; rfl

/-- **A replica by itself is part of a run** in which it applies its own messages only. -/
theorem Alone.exists_reachable {C : Cond ι σ Cmd Msg} {r : ι} {cs : List Cmd} {s : σ}
    (h : Alone S r cs s) (hC : ∀ c ∈ cs, ∀ g g', C g (.client r c) g') :
    ∃ g, Reachable S C g ∧ g.state r = s ∧ ∀ e ∈ g.applied r, e.origin = r := by
  induction h with
  | start => exact ⟨S.start, .refl, rfl, by simp [OpBased.start]⟩
  | @step cs s s' c _ hc ih =>
    obtain ⟨g, hg, rfl, hown⟩ := ih fun c' hc' => hC c' (List.mem_append_left _ hc')
    obtain ⟨g', hs, hstate, happ⟩ := OpBased.exists_step_of_perform hc
    exact ⟨g', hg.tail (hC c (by simp) g g') hs, hstate, fun e he => (happ e he).elim (hown e) id⟩

end

end Replicated
