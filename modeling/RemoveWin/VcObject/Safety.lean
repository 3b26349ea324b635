import RemoveWin.VcObject.Convergence

/-!
# Clock objects that do not stop the server

Whether a key exists is asked where a command is issued and not where its effect runs. Two `VCNEW`
of a key that are issued before either has arrived at the other's origin are both accepted, and
where both arrive the second runs into the assertion of `dbAdd`. A `VCINC` that overtakes the
`VCNEW` of its key looks for a clock that is not there.

Channels are first-in first-out, so a `VCINC` cannot overtake a `VCNEW` of its own origin. That
makes a discipline for clients: create a key where all earlier creations of it are known, and
increase it at the replica it was created at, or anywhere once the creation has arrived everywhere.
Commands that are refused are free.
-/

namespace RemoveWin

open Replicated

section

variable {N : ℕ}

/-- `VCNEW` of a key is issued where every `VCNEW` of it has arrived. -/
def newKnown : Cond (Fin N) (Option VcKeys) VcCmd VcMsg
  | g, .client r (.new key more), _ =>
    more = [] → ∀ e ∈ g.log, e.msg.isNew → e.msg.key = key → e.id ∈ g.appliedIds r
  | _, _, _ => True

/-- Where the `VCNEW` of a key has arrived, `VCINC` of it is issued if that is where it came from or
if it has arrived everywhere. -/
def incSpread : Cond (Fin N) (Option VcKeys) VcCmd VcMsg
  | g, .client r (.inc key more), _ =>
    more = [] → ∀ e ∈ g.log, e.msg.isNew → e.msg.key = key → e.id ∈ g.appliedIds r →
      e.origin = r ∨ ∀ r', e.id ∈ g.appliedIds r'
  | _, _, _ => True

/-- Both, with channels that are first-in first-out. -/
def clockClients : Cond (Fin N) (Option VcKeys) VcCmd VcMsg :=
  fun g a g' => fifo g a g' ∧ newKnown g a g' ∧ incSpread g a g'

instance decidableNewKnown (g : Net (Fin N) (Option VcKeys) VcMsg) (a : Act (Fin N) VcCmd)
    (g' : Net (Fin N) (Option VcKeys) VcMsg) : Decidable (newKnown g a g') :=
  match a with
  | .client r (.new key more) => inferInstanceAs (Decidable
      (more = [] → ∀ e ∈ g.log, e.msg.isNew → e.msg.key = key → e.id ∈ g.appliedIds r))
  | .client _ (.inc _ _) | .deliver _ _ => inferInstanceAs (Decidable True)

instance decidableIncSpread (g : Net (Fin N) (Option VcKeys) VcMsg) (a : Act (Fin N) VcCmd)
    (g' : Net (Fin N) (Option VcKeys) VcMsg) : Decidable (incSpread g a g') :=
  match a with
  | .client r (.inc key more) => inferInstanceAs (Decidable
      (more = [] → ∀ e ∈ g.log, e.msg.isNew → e.msg.key = key → e.id ∈ g.appliedIds r →
        e.origin = r ∨ ∀ r', e.id ∈ g.appliedIds r'))
  | .client _ (.new _ _) | .deliver _ _ => inferInstanceAs (Decidable True)

instance decidableClockClients (g : Net (Fin N) (Option VcKeys) VcMsg) (a : Act (Fin N) VcCmd)
    (g' : Net (Fin N) (Option VcKeys) VcMsg) : Decidable (clockClients g a g') :=
  inferInstanceAs (Decidable (_ ∧ _ ∧ _))

/-- The list has a `VCNEW` of the key. -/
def KeyMade (A : List (Event (Fin N) VcMsg)) (key : Sds) : Prop :=
  ∃ n ∈ A, n.msg.isNew ∧ n.msg.key = key

/-- **The state of a run.** -/
structure ClocksMade (g : Net (Fin N) (Option VcKeys) VcMsg) : Prop where
  /-- Servers are up, and hold clocks of messages they have applied. -/
  stored : ∀ r, ∃ ks, g.state r = some ks ∧ ∀ k, VcStored (g.applied r) k (ks k)
  /-- Keys that messages have been applied for have been made. -/
  made : ∀ r, ∀ e ∈ g.applied r, KeyMade (g.applied r) e.msg.key
  /-- A `VCINC` comes from where its key was made, or from when that was known everywhere. -/
  spread : ∀ e ∈ g.log, ¬ e.msg.isNew → ∃ n ∈ e.deps, n.msg.isNew ∧ n.msg.key = e.msg.key ∧
    (n.origin = e.origin ∨ ∀ r, n ∈ g.applied r)

variable {iter : Fin N → Iteration} {g : Net (Fin N) (Option VcKeys) VcMsg}
  {e : Event (Fin N) VcMsg}

theorem ClocksMade.announce (h : ClocksMade g) (hspread : ¬ e.msg.isNew →
      ∃ n ∈ e.deps, n.msg.isNew ∧ n.msg.key = e.msg.key ∧
        (n.origin = e.origin ∨ ∀ r, n ∈ g.applied r)) : ClocksMade (g.announce e) where
  stored := h.stored
  made := h.made
  spread := by
    intro d hd hinc
    rw [Net.announce_log, List.mem_append, List.mem_singleton] at hd
    rcases hd with hd | rfl
    · exact h.spread d hd hinc
    · exact hspread hinc

/-- A message is applied, a `VCINC` where its key has been made. -/
theorem ClocksMade.apply (h : ClocksMade g) (hmem : ∀ r, ∀ d ∈ g.applied r, d ∈ g.log)
    (hunique : ∀ n ∈ g.log, ∀ n' ∈ g.log, n.msg.isNew → n'.msg.isNew → n.msg.key = n'.msg.key →
      n = n')
    (he : e ∈ g.log) {r : Fin N} (hfresh : e ∉ g.applied r)
    (hinc : ¬ e.msg.isNew → KeyMade (g.applied r) e.msg.key) :
    ClocksMade (g.apply r e ((g.state r).bind (vcEffect e.msg))) := by
  have hgrow : ∀ {r' d}, d ∈ g.applied r' →
      d ∈ (g.apply r e ((g.state r).bind (vcEffect e.msg))).applied r' := by
    intro r' d hd
    by_cases hr : r' = r
    · subst hr
      rw [Net.apply_applied_self]
      exact List.mem_append_left _ hd
    · rwa [Net.apply_applied_of_ne _ _ _ hr]
  have hmade : ∀ {r' k}, KeyMade (g.applied r') k →
      KeyMade ((g.apply r e ((g.state r).bind (vcEffect e.msg))).applied r') k := by
    rintro r' k ⟨n, hn, hnew, hkey⟩
    exact ⟨n, hgrow hn, hnew, hkey⟩
  constructor
  · intro r'
    by_cases hr : r' = r
    · subst hr
      obtain ⟨ks, hks, hst⟩ := h.stored r'
      rw [Net.apply_state_self, Net.apply_applied_self, hks]
      refine exists_vcEffect hst (fun hnew d hd hkey => ?_) fun hm => ?_
      · obtain ⟨n, hn, hnnew, hnkey⟩ := h.made r' d hd
        exact hfresh (hunique n (hmem r' n hn) e he hnnew hnew (hnkey.trans hkey) ▸ hn)
      · obtain ⟨n, hn, -, hkey⟩ := hinc hm
        exact ⟨n, hn, hkey⟩
    · rw [Net.apply_state_of_ne _ _ _ hr, Net.apply_applied_of_ne _ _ _ hr]
      exact h.stored r'
  · intro r' d hd
    by_cases hr : r' = r
    · subst hr
      rw [Net.apply_applied_self, List.mem_append, List.mem_singleton] at hd
      rcases hd with hd | rfl
      · exact hmade (h.made r' d hd)
      · by_cases hnew : d.msg.isNew
        · exact ⟨d, by simp, hnew, rfl⟩
        · exact hmade (hinc hnew)
    · rw [Net.apply_applied_of_ne _ _ _ hr] at hd
      exact hmade (h.made r' d hd)
  · intro d hd hm
    obtain ⟨n, hn, hnew, hkey, hor⟩ := h.spread d hd hm
    exact ⟨n, hn, hnew, hkey, hor.imp_right fun hall r' => hgrow (hall r')⟩

/-- **No server stops** if clients keep to the discipline and channels are first-in first-out: no
`VCNEW` is applied where the key exists, and no `VCINC` where it does not. -/
theorem vcObject_never_stops (hg : Reachable (vcObject iter) clockClients g) (r : Fin N) :
    ∃ ks, g.state r = some ks := by
  suffices h : ClocksMade g by
    obtain ⟨ks, hks, -⟩ := h.stored r
    exact ⟨ks, hks⟩
  induction hg with
  | refl =>
    refine ⟨fun r => ⟨_, rfl, fun k => .inl ⟨rfl, ?_⟩⟩, ?_, ?_⟩ <;> simp [OpBased.start]
  | @tail g g' a hg hc hs ih =>
    have w := Reachable.wellFormed hg
    have hg' := hg.tail hc hs
    have hunique := new_unique (C := clockClients) (fun h => h.2.1 rfl) hg'
    obtain ⟨r, c, s, rfl, hp, rfl⟩ | ⟨r, c, s, m, rfl, hp, rfl⟩ | ⟨r, i, e, rfl, he, hi, rfl⟩ :=
      (vcObject iter).step_cases hs
    · obtain ⟨rfl, -⟩ := vcObject_prepare hp
      rwa [Net.setState, Function.update_eq_self]
    · obtain ⟨rfl, ks, hks, hm⟩ := vcObject_prepare hp
      -- a `VCINC` that is accepted finds its key made
      have hinc : ¬ m.isNew → ∃ n ∈ g.applied r, n.msg.isNew ∧ n.msg.key = m.key ∧
          (n.origin = r ∨ ∀ r', n ∈ g.applied r') := by
        intro hinc
        cases c with
        | new key more =>
          obtain ⟨-, -, rfl⟩ := vcnewPrepare_eq_some hm.symm
          exact absurd rfl hinc
        | inc key more =>
          obtain ⟨rfl, c, hkey, rfl⟩ := vcincPrepare_eq_some hm.symm
          obtain ⟨ks', hks', hst⟩ := ih.stored r
          obtain rfl : ks = ks' := Option.some.inj (hks.symm.trans hks')
          obtain ⟨hnone, -⟩ | ⟨d, hd, hdk, -⟩ := hst key
          · rw [hnone] at hkey
            cases hkey
          · obtain ⟨n, hn, hnew, hnk⟩ := ih.made r d hd
            have hnlog := w.applied_mem hn
            have hor := hc.2.2 rfl n hnlog hnew (hnk.trans hdk) ((w.mem_applied_iff hnlog r).mpr hn)
            exact ⟨n, hn, hnew, hnk.trans hdk,
              hor.imp_right fun hall r' => (w.mem_applied_iff hnlog r').mp (hall r')⟩
      refine (ih.announce (e := g.event r m) hinc).apply ?_ hunique (by simp) ?_ fun hnew => ?_
      · exact fun r' d hd => List.mem_append_left _ (w.applied_mem hd)
      · intro hmem
        exact absurd (w.id_lt (w.applied_mem hmem)) (lt_irrefl _)
      · obtain ⟨n, hn, hnnew, hnk, -⟩ := hinc hnew
        exact ⟨n, hn, hnnew, hnk⟩
    · have hmem : e ∈ g.log := List.mem_of_getElem? he
      obtain rfl : i = e.id := (w.log_id he).symm
      refine ih.apply (fun r' d => w.applied_mem) hunique hmem ?_ fun hinc => ?_
      · exact fun happ => hi ((w.mem_applied_iff hmem r).mpr happ)
      · obtain ⟨n, hn, hnew, hkey, hor⟩ := ih.spread e hmem hinc
        refine ⟨n, ?_, hnew, hkey⟩
        rcases hor with hor | hall
        · exact (w.mem_applied_iff (w.deps_mem hmem hn).1 r).mp (hc.1 e he n hn hor)
        · exact hall r

end

/-- A key is created and increased at one replica, and then at another one. -/
theorem vcObject_never_stops_late :
    ∃ g, Reachable (vcObject (inOrder 3)) clockClients g ∧
      (g.applied 2).length = 3 ∧ ∃ ks, g.state 2 = some ks := by
  obtain ⟨g, hg, hlen⟩ := (vcObject (inOrder 3)).exists_reachable clockClients
    (fun g => (g.applied 2).length = 3)
    [.client 0 (.new [115] []), .client 0 (.inc [115] []), .deliver 1 0, .deliver 2 0,
      .client 1 (.inc [115] []), .deliver 2 2, .deliver 2 1] (by decide)
  exact ⟨g, hg, hlen, vcObject_never_stops hg 2⟩

/-- **Two ways to stop a server.** First, two replicas create one key, and one of them hears of the
other. Second, a key is created by one replica and increased by another, and the third hears of the
increase first. -/
theorem vcObject_stops :
    (∃ g, Reachable (vcObject (inOrder 2)) fifo g ∧ g.state 1 = none) ∧
    ∃ g, Reachable (vcObject (inOrder 3)) fifo g ∧ g.state 2 = none := by
  constructor
  · obtain ⟨g, hg, hs⟩ := (vcObject (inOrder 2)).exists_reachable fifo
      (fun g => (g.state 1).isNone)
      [.client 0 (.new [115] []), .client 1 (.new [115] []), .deliver 1 0] (by decide)
    exact ⟨g, hg, Option.isNone_iff_eq_none.mp hs⟩
  · obtain ⟨g, hg, hs⟩ := (vcObject (inOrder 3)).exists_reachable fifo
      (fun g => (g.state 2).isNone)
      [.client 0 (.new [115] []), .deliver 1 0, .client 1 (.inc [115] []), .deliver 2 1]
      (by decide)
    exact ⟨g, hg, Option.isNone_iff_eq_none.mp hs⟩

end RemoveWin
