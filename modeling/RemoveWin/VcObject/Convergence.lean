import RemoveWin.VcObject.Model

/-!
# Clock objects with two writers

If only two replicas increase a clock, all replicas end with the same one. The reason is that the
replica with the greater id is never overruled: its `VCINC` is taken for greater than anything
that does not know of it, and so its counter is the same wherever the same of its messages have
arrived. The counter of the other may fall, when its own clock is replaced by one that knows less
of it, but not while that of the greater stays.

So rank the messages by the counter of the greater id first and that of the smaller id second.
Messages never have one rank, a message is ranked above all that it knows of, and a replica holds
the one ranked highest among what it has applied. `compareVC` itself is not transitive, even on
these: it ranks two clocks of one replica by the first counter in which they differ.

## Main results

* `RemoveWin.vcObject_up` — no replica stops
* `RemoveWin.ClockPair.top_step` — `compareVC` against the rank
* `RemoveWin.eq_of_delivered` — two writers converge
-/

namespace RemoveWin

open Replicated

section

variable {N : ℕ} {iter : Fin N → Iteration} {C : Cond (Fin N) (Option VcKeys) VcCmd VcMsg}
  {g : Net (Fin N) (Option VcKeys) VcMsg}

/-- Delivery is causal, and clocks are created before they are used. -/
def VcRegular (C : Cond (Fin N) (Option VcKeys) VcCmd VcMsg) : Prop :=
  ∀ {g a g'}, C g a g' → causal g a g' ∧ created g a g'

theorem VcRegular.newOnce (hC : VcRegular C) {g g' : Net (Fin N) (Option VcKeys) VcMsg} {r : Fin N}
    {key : Sds} (hc : C g (.client r (.new key [])) g') :
    ∀ e ∈ g.log, e.msg.isNew → e.msg.key = key → e.id ∈ g.appliedIds r := (hC hc).2

theorem exists_of_applied (h : Reachable (vcObject iter) C g) (r : Fin N) :
    ∀ ks, g.state r = some ks → ∀ e ∈ g.applied r, ks e.msg.key ≠ none := by
  refine h.local_invariant (I := fun _ A s => ∀ ks, s = some ks → ∀ e ∈ A, ks e.msg.key ≠ none)
    ?_ ?_ ?_ r
  · intro r ks _ e he
    simp [OpBased.start] at he
  · intro g g' r c s o _ _ hp hI
    rwa [(vcObject_prepare hp).1]
  · intro g' r e A s _ _ _ hI ks' hks' e' he'
    obtain ⟨ks, rfl, heff⟩ := Option.bind_eq_some_iff.mp hks'
    by_cases hkey : e'.msg.key = e.msg.key
    · rw [hkey]
      obtain ⟨-, -, rfl⟩ | ⟨-, o, ho, rfl⟩ := vcEffect_cases heff
      · simp
      · split <;> simp [ho]
    · rw [vcEffect_of_ne heff hkey]
      rw [List.mem_append, List.mem_singleton] at he'
      refine hI ks rfl e' (he'.resolve_right ?_)
      rintro rfl
      exact hkey rfl

/-- A key is created once, if `VCNEW` is issued where every `VCNEW` of it has arrived. -/
theorem new_unique (hC : ∀ {g r key g'}, C g (.client r (.new key [])) g' →
      ∀ e ∈ g.log, e.msg.isNew → e.msg.key = key → e.id ∈ g.appliedIds r)
    (h : Reachable (vcObject iter) C g) :
    ∀ e ∈ g.log, ∀ e' ∈ g.log, e.msg.isNew → e'.msg.isNew → e.msg.key = e'.msg.key → e = e' := by
  refine h.invariant (P := fun g => ∀ e ∈ g.log, ∀ e' ∈ g.log, e.msg.isNew → e'.msg.isNew →
    e.msg.key = e'.msg.key → e = e') (by simp [OpBased.start]) ?_
  intro g g' a hg ih hc hs
  obtain ⟨r, c, s, rfl, hp, rfl⟩ | ⟨r, c, s, m, rfl, hp, rfl⟩ | ⟨r, i, e, rfl, he, hi, rfl⟩ :=
    (vcObject iter).step_cases hs
  · exact ih
  · -- the key is absent where `VCNEW` is accepted, so no `VCNEW` of it was ever sent
    have hfresh : m.isNew → ∀ e ∈ g.log, e.msg.isNew → e.msg.key ≠ m.key := by
      intro hm e he hnew hkey
      obtain ⟨-, ks, hks, hm'⟩ := vcObject_prepare hp
      cases c with
      | inc key more =>
        obtain ⟨-, c, -, rfl⟩ := vcincPrepare_eq_some hm'.symm
        simp at hm
      | new key more =>
        obtain ⟨rfl, hnone, rfl⟩ := vcnewPrepare_eq_some hm'.symm
        have hid : e.id ∈ g.appliedIds r := hC hc e he hnew hkey
        have happ := ((Reachable.wellFormed hg).mem_applied_iff he r).mp hid
        exact exists_of_applied hg r ks hks e happ (hkey ▸ hnone)
    intro e he e' he' hnew hnew' hkey
    rw [Net.apply_log, Net.announce_log, List.mem_append, List.mem_singleton] at he he'
    rcases he with he | rfl <;> rcases he' with he' | rfl
    · exact ih e he e' he' hnew hnew' hkey
    · exact absurd hkey (hfresh hnew' e he hnew)
    · exact absurd hkey.symm (hfresh hnew e' he' hnew')
    · rfl
  · exact ih

/-- What an event on a clock is made of: `VCNEW` comes with a fresh clock and knows of
nothing about its key, and `VCINC` knows of a `VCNEW`. -/
structure VcEvent (iter : Fin N → Iteration) (e : Event (Fin N) VcMsg) : Prop where
  /-- `VCNEW`. -/
  new : e.msg.isNew → e.msg.clock = lNewVC (.of iter e.origin) ∧
    ∀ d ∈ e.deps, d.msg.key ≠ e.msg.key
  /-- `VCINC`. -/
  inc : ¬ e.msg.isNew → ∃ n ∈ e.deps, n.msg.isNew ∧ n.msg.key = e.msg.key

/-- What a replica that is up holds under each key: the clock of an event it has applied. -/
def VcStored (A : List (Event (Fin N) VcMsg)) (k : Sds) (o : Option VcObj) : Prop :=
  (o = none ∧ ∀ e ∈ A, e.msg.key ≠ k) ∨
    ∃ e ∈ A, e.msg.key = k ∧ o = some (.clock e.msg.clock)

theorem VcStored.concat {A : List (Event (Fin N) VcMsg)} {k : Sds} {o : Option VcObj}
    (h : VcStored A k o) {e : Event (Fin N) VcMsg} (he : e.msg.key ≠ k) :
    VcStored (A ++ [e]) k o := by
  obtain ⟨ho, hno⟩ | ⟨t, ht, hstored⟩ := h
  · refine .inl ⟨ho, fun e' he' => ?_⟩
    rw [List.mem_append, List.mem_singleton] at he'
    rcases he' with he' | rfl
    · exact hno e' he'
    · exact he
  · exact .inr ⟨t, List.mem_append_left _ ht, hstored⟩

/-- **An effect that comes in time**: `VCNEW` before anything else about its key, and `VCINC` after
something. -/
theorem exists_vcEffect {A : List (Event (Fin N) VcMsg)} {e : Event (Fin N) VcMsg} {ks : VcKeys}
    (h : ∀ k, VcStored A k (ks k)) (hnew : e.msg.isNew → ∀ e' ∈ A, e'.msg.key ≠ e.msg.key)
    (hinc : ¬ e.msg.isNew → ∃ n ∈ A, n.msg.key = e.msg.key) :
    ∃ ks', vcEffect e.msg ks = some ks' ∧ ∀ k, VcStored (A ++ [e]) k (ks' k) := by
  obtain ⟨ks', heff, hkey⟩ : ∃ ks', vcEffect e.msg ks = some ks' ∧
      VcStored (A ++ [e]) e.msg.key (ks' e.msg.key) := by
    by_cases hm : e.msg.isNew
    · have hnone : ks e.msg.key = none := by
        obtain ⟨hnone, -⟩ | ⟨e', he', hek, -⟩ := h e.msg.key
        · exact hnone
        · exact absurd hek (hnew hm e' he')
      exact ⟨_, vcEffect_of_new hm hnone, .inr ⟨e, by simp, rfl, Function.update_self ..⟩⟩
    · obtain ⟨n, hn, hnkey⟩ := hinc hm
      obtain ⟨-, hno⟩ | ⟨t, ht, htk, hstored⟩ := h e.msg.key
      · exact absurd hnkey (hno n hn)
      · refine ⟨_, vcEffect_of_inc hm hstored, ?_⟩
        split
        · exact .inr ⟨e, by simp, rfl, Function.update_self ..⟩
        · exact .inr ⟨t, by simp [ht], htk, hstored⟩
  refine ⟨ks', heff, fun k => ?_⟩
  by_cases hk : k = e.msg.key
  · exact hk ▸ hkey
  · rw [vcEffect_of_ne heff hk]
    exact (h k).concat (Ne.symm hk)

/-- `VCNEW` arrives before anything else about its key. -/
theorem key_ne_of_new (hC : VcRegular C) (h : Reachable (vcObject iter) C g)
    (hJ : ∀ e ∈ g.log, VcEvent iter e) {r : Fin N} {A : List (Event (Fin N) VcMsg)}
    {e : Event (Fin N) VcMsg} (he : e ∈ g.log) (happ : g.applied r = A ++ [e])
    (hnew : e.msg.isNew) : ∀ e' ∈ A, e'.msg.key ≠ e.msg.key := by
  have w := Reachable.wellFormed h
  have hlast : e ∉ A := by
    intro hmem
    have hnodup := (w.applied_nodup r).of_map
    rw [happ, List.nodup_append] at hnodup
    exact hnodup.2.2 e hmem e (by simp) rfl
  have hmem : ∀ e' ∈ A, e' ∈ g.log := fun e' he' => w.applied_mem (r := r) (by simp [happ, he'])
  intro e' he' hkey
  by_cases hnew' : e'.msg.isNew
  · exact hlast (new_unique hC.newOnce h e' (hmem e' he') e he hnew' hnew hkey ▸ he')
  · obtain ⟨n, hn, hnnew, hnkey⟩ := (hJ e' (hmem e' he')).inc hnew'
    obtain rfl := new_unique hC.newOnce h n (w.deps_mem (hmem e' he') hn).1 e he hnnew hnew
      (hnkey.trans hkey)
    have hcl := Reachable.causalList (fun hc => (hC hc).1) h r
    rw [happ] at hcl
    exact hlast (hcl.of_append.deps_mem he' hn)

/-- **No replica stops**, and each holds clocks of events it has applied. -/
theorem vcObject_up (hC : VcRegular C) (h : Reachable (vcObject iter) C g) :
    (∀ e ∈ g.log, VcEvent iter e) ∧
      ∀ r, ∃ ks, g.state r = some ks ∧ ∀ k, VcStored (g.applied r) k (ks k) := by
  refine h.joint_invariant (J := VcEvent iter)
    (I := fun _ A s => ∃ ks, s = some ks ∧ ∀ k, VcStored A k (ks k)) ?_ (by simp [OpBased.start])
    ?_ ?_ ?_
  · exact fun r => ⟨fun _ => none, rfl, fun k => .inl ⟨rfl, by simp [OpBased.start]⟩⟩
  · intro g g' r c s o _ _ hp hI
    rwa [(vcObject_prepare hp).1]
  · intro g g' r c s m hg hJ hI hc _ hp
    obtain ⟨-, ks, hks, hm⟩ := vcObject_prepare hp
    obtain ⟨ks', hks', hst⟩ := hI
    obtain rfl : ks = ks' := Option.some.inj (hks.symm.trans hks')
    cases c with
    | new key more =>
      obtain ⟨-, hnone, rfl⟩ := vcnewPrepare_eq_some hm.symm
      refine ⟨fun _ => ⟨rfl, fun d hd hkey => ?_⟩, fun hinc => absurd rfl hinc⟩
      exact exists_of_applied hg r ks hks d hd (hkey ▸ hnone)
    | inc key more =>
      obtain ⟨-, c, hkey, rfl⟩ := vcincPrepare_eq_some hm.symm
      refine ⟨fun hnew => by simp [Net.event] at hnew, fun _ => ?_⟩
      obtain ⟨hnone, -⟩ | ⟨e, he, hek, -⟩ := hst key
      · simp [hnone] at hkey
      · by_cases hnew : e.msg.isNew
        · exact ⟨e, he, hnew, hek⟩
        · have w := Reachable.wellFormed hg
          obtain ⟨n, hn, hnnew, hnkey⟩ := (hJ e (w.applied_mem he)).inc hnew
          have hcl := Reachable.causalList (fun hc => (hC hc).1) hg r
          exact ⟨n, hcl.deps_mem he hn, hnnew, hnkey.trans hek⟩
  · rintro g' r e A s hg' hJ he happ ⟨ks, rfl, hst⟩
    refine exists_vcEffect hst (key_ne_of_new hC hg' hJ he happ) fun hinc => ?_
    obtain ⟨n, hn, -, hnkey⟩ := (hJ e he).inc hinc
    have hcl := Reachable.causalList (fun hc => (hC hc).1) hg' r
    rw [happ] at hcl
    exact ⟨n, hcl.last hn, hnkey⟩

/-! ### Two writers -/

/-- The rank of an event: the counter of `q`, and then that of `p`. -/
def clockRank (p q : Fin N) (e : Event (Fin N) VcMsg) : ℤ ×ₗ ℤ :=
  toLex (e.msg.clock.entry q, e.msg.clock.entry p)

/-- The event on a key that is ranked above all others in a list. -/
structure ClockTop (key : Sds) (p q : Fin N) (A : List (Event (Fin N) VcMsg))
    (t : Event (Fin N) VcMsg) : Prop where
  mem : t ∈ A
  about : t.msg.key = key
  lt : ∀ e ∈ A, e.msg.key = key → e ≠ t → clockRank p q e < clockRank p q t

variable {key : Sds} {p q : Fin N} {A B : List (Event (Fin N) VcMsg)} {e t : Event (Fin N) VcMsg}

theorem ClockTop.le (h : ClockTop key p q A t) (he : e ∈ A) (hk : e.msg.key = key) :
    clockRank p q e ≤ clockRank p q t := by
  by_cases heq : e = t
  · rw [heq]
  · exact (h.lt e he hk heq).le

/-- The top has the greatest counter of `q`. -/
theorem ClockTop.entry_le (h : ClockTop key p q A t) (he : e ∈ A) (hk : e.msg.key = key) :
    e.msg.clock.entry q ≤ t.msg.clock.entry q :=
  (Prod.Lex.toLex_le_toLex.mp (h.le he hk)).elim (fun hlt => hlt.le) fun heq => heq.1.le

theorem ClockTop.unique {t' : Event (Fin N) VcMsg} (h : ClockTop key p q A t)
    (h' : ClockTop key p q B t') (hmem : t ∈ B) (hmem' : t' ∈ A) : t = t' := by
  by_contra hne
  exact lt_asymm (h.lt t' hmem' h'.about (Ne.symm hne)) (h'.lt t hmem h.about hne)

theorem ClockTop.keep (h : ClockTop key p q A t)
    (he : e.msg.key = key → clockRank p q e < clockRank p q t) :
    ClockTop key p q (A ++ [e]) t where
  mem := List.mem_append_left _ h.mem
  about := h.about
  lt := by
    intro e' he' hk hne
    rw [List.mem_append, List.mem_singleton] at he'
    rcases he' with he' | rfl
    · exact h.lt e' he' hk hne
    · exact he hk

theorem ClockTop.replace (h : ClockTop key p q A t) (hk : e.msg.key = key)
    (hlt : clockRank p q t < clockRank p q e) : ClockTop key p q (A ++ [e]) e where
  mem := by simp
  about := hk
  lt := by
    intro e' he' hk' hne
    rw [List.mem_append, List.mem_singleton] at he'
    exact (h.le (he'.resolve_right hne) hk').trans_lt hlt

/-- What is known of an event on a clock that only `p` and `q` increase. -/
structure ClockPairEvent (key : Sds) (p q : Fin N) (e : Event (Fin N) VcMsg) : Prop where
  size : e.msg.clock.size = N
  /-- `VCINC` is issued at one of the two, on the top of what it knows of. -/
  inc : ¬ e.msg.isNew → (e.origin = p ∨ e.origin = q) ∧
    ∃ d, ClockTop key p q e.deps d ∧ e.msg.clock = increaseVC d.msg.clock e.origin
  /-- The counter of `q` is what the last `VCINC` of `q` made it. -/
  last : e.msg.clock.entry q = 0 ∨ ∃ b, (b = e ∨ b ∈ e.deps) ∧ b.msg.key = key ∧
    ¬ b.msg.isNew ∧ b.origin = q ∧ b.msg.clock.entry q = e.msg.clock.entry q

/-- A net in which only `p` and `q` have increased a clock. -/
structure ClockPair (iter : Fin N → Iteration) (key : Sds) (p q : Fin N)
    (g : Net (Fin N) (Option VcKeys) VcMsg) : Prop where
  wf : g.WellFormed
  causalList : ∀ r, CausalList (g.applied r)
  unique : ∀ e ∈ g.log, ∀ e' ∈ g.log, e.msg.isNew → e'.msg.isNew → e.msg.key = e'.msg.key → e = e'
  event : ∀ e ∈ g.log, VcEvent iter e
  pair : ∀ e ∈ g.log, e.msg.key = key → ClockPairEvent key p q e

namespace ClockPair

variable (h : ClockPair iter key p q g)
include h

/-- The base of a `VCINC`, with what is increased. -/
theorem exists_base (he : e ∈ g.log) (hk : e.msg.key = key) (hinc : ¬ e.msg.isNew) :
    ∃ d, ClockTop key p q e.deps d ∧ e.msg.clock = increaseVC d.msg.clock e.origin ∧
      d.msg.clock.size = N ∧ 0 ≤ d.msg.clock.entry q ∧
      e.msg.clock.entry =
        Function.update d.msg.clock.entry e.origin (d.msg.clock.entry e.origin + 1) := by
  obtain ⟨-, d, hd, hclock⟩ := (h.pair e he hk).inc hinc
  have hdlog := (h.wf.deps_mem he hd.mem).1
  have hsize := (h.pair d hdlog hd.about).size
  refine ⟨d, hd, hclock, hsize, ?_, ?_⟩
  · obtain ⟨n, hn, hnew, hnk⟩ := (h.event e he).inc hinc
    have hnlog := (h.wf.deps_mem he hn).1
    have hzero : n.msg.clock.entry q = 0 := by
      rw [((h.event n hnlog).new hnew).1, entry_lNewVC, Pi.zero_apply]
    exact hzero ▸ hd.entry_le hn (hnk.trans hk)
  · rw [hclock, entry_increaseVC (by simp [hsize]), Int.toNat_natCast]

/-- A `VCINC` is ranked above its base. -/
theorem rank_base_lt (he : e ∈ g.log) (hk : e.msg.key = key) (hinc : ¬ e.msg.isNew)
    {d : Event (Fin N) VcMsg} (hentry : e.msg.clock.entry =
      Function.update d.msg.clock.entry e.origin (d.msg.clock.entry e.origin + 1)) :
    clockRank p q d < clockRank p q e := by
  rw [clockRank, clockRank, Prod.Lex.toLex_lt_toLex, hentry]
  by_cases hq : e.origin = q
  · rw [hq]
    simp
  · have hp : e.origin = p := (((h.pair e he hk).inc hinc).1).resolve_right hq
    subst hp
    have hne : (q : ℕ) ≠ e.origin := fun heq => hq (Fin.ext heq.symm)
    simp [Function.update_of_ne hne]

/-- A `VCINC` of `q` counts more than everything it knows of. -/
theorem entry_lt_of_mem_deps (he : e ∈ g.log) (hk : e.msg.key = key) (hinc : ¬ e.msg.isNew)
    (hq : e.origin = q) {d : Event (Fin N) VcMsg} (hd : d ∈ e.deps) (hdk : d.msg.key = key) :
    d.msg.clock.entry q < e.msg.clock.entry q := by
  obtain ⟨b, hb, -, -, -, hentry⟩ := h.exists_base he hk hinc
  rw [hentry, hq, Function.update_self]
  exact (hb.entry_le hd hdk).trans_lt (lt_add_one _)

variable {r : Fin N} (happ : g.applied r = A ++ [e])
include happ

theorem mem_log_of_mem (ht : t ∈ A) : t ∈ g.log := h.wf.applied_mem (r := r) (by simp [happ, ht])

theorem last_mem_log : e ∈ g.log := h.wf.applied_mem (r := r) (by simp [happ])

theorem deps_mem_of_mem (ht : t ∈ A) {d : Event (Fin N) VcMsg} (hd : d ∈ t.deps) : d ∈ A := by
  have hcl := h.causalList r
  rw [happ] at hcl
  exact hcl.of_append.deps_mem ht hd

theorem mem_deps_of_origin (ht : t ∈ A) (ho : t.origin = e.origin) : t ∈ e.deps := by
  have hlast : e ∉ A := by
    intro hmem
    have hnodup := (h.wf.applied_nodup r).of_map
    rw [happ, List.nodup_append] at hnodup
    exact hnodup.2.2 e hmem e (by simp) rfl
  obtain rfl | hmem | hmem :=
    h.wf.eq_or_mem_deps (h.mem_log_of_mem happ ht) (h.last_mem_log happ) ho
  · exact absurd ht hlast
  · exact hmem
  · exact absurd (h.deps_mem_of_mem happ ht hmem) hlast

/-- What is not known to a `VCINC` is a `VCINC` of the other replica. -/
theorem inc_of_notMem_deps (hk : e.msg.key = key) (hinc : ¬ e.msg.isNew) (ht : t ∈ A)
    (htk : t.msg.key = key) (hno : t ∉ e.deps) :
    ¬ t.msg.isNew ∧ t.origin ≠ e.origin ∧ (t.origin = p ∨ t.origin = q) := by
  have htlog := h.mem_log_of_mem happ ht
  have helog := h.last_mem_log happ
  have htinc : ¬ t.msg.isNew := by
    intro hnew
    obtain ⟨n, hn, hnnew, hnk⟩ := (h.event e helog).inc hinc
    have heq := h.unique n (h.wf.deps_mem helog hn).1 t htlog hnnew hnew
      (hnk.trans (hk.trans htk.symm))
    exact hno (heq ▸ hn)
  exact ⟨htinc, fun ho => hno (h.mem_deps_of_origin happ ht ho), ((h.pair t htlog htk).inc htinc).1⟩

/-- A `VCINC` of `q` counts more than everything that arrived before it. -/
theorem entry_lt_of_mem (hk : e.msg.key = key) (hinc : ¬ e.msg.isNew) (hq : e.origin = q)
    (ht : t ∈ A) (htk : t.msg.key = key) : t.msg.clock.entry q < e.msg.clock.entry q := by
  have helog := h.last_mem_log happ
  obtain hzero | ⟨b, hb, hbk, hbinc, hbq, hbe⟩ := (h.pair t (h.mem_log_of_mem happ ht) htk).last
  · obtain ⟨d, -, -, -, hpos, hentry⟩ := h.exists_base helog hk hinc
    rw [hzero, hentry, hq, Function.update_self]
    exact hpos.trans_lt (lt_add_one _)
  · have hbA : b ∈ A := hb.elim (fun hbt => hbt ▸ ht) (h.deps_mem_of_mem happ ht)
    rw [← hbe]
    exact h.entry_lt_of_mem_deps helog hk hinc hq
      (h.mem_deps_of_origin happ hbA (hbq.trans hq.symm)) hbk

/-- A `VCINC` of `q` that a `VCINC` of `p` does not know of counts more. -/
theorem entry_lt_of_notMem_deps (hk : e.msg.key = key) (hinc : ¬ e.msg.isNew) (hq : e.origin ≠ q)
    (htop : ClockTop key p q A t) (htinc : ¬ t.msg.isNew) (htq : t.origin = q) (hno : t ∉ e.deps) :
    e.msg.clock.entry q < t.msg.clock.entry q := by
  have helog := h.last_mem_log happ
  have htlog := h.mem_log_of_mem happ htop.mem
  have hcl := h.causalList r
  rw [happ] at hcl
  obtain ⟨d, hd, -, -, hpos, hentry⟩ := h.exists_base helog hk hinc
  have hsame : e.msg.clock.entry q = d.msg.clock.entry q := by
    rw [hentry, Function.update_of_ne fun heq => hq (Fin.ext heq.symm)]
  rw [hsame]
  refine lt_of_le_of_ne (htop.entry_le (hcl.last hd.mem) hd.about) fun heq => ?_
  -- the last `VCINC` of `q` that the base knows of would be this one
  obtain hzero | ⟨b, hb, hbk, hbinc, hbq, hbe⟩ :=
    (h.pair d (h.wf.deps_mem helog hd.mem).1 hd.about).last
  · obtain ⟨d', -, -, -, hpos', hentry'⟩ := h.exists_base htlog htop.about htinc
    rw [heq, hentry', htq, Function.update_self] at hzero
    omega
  · have hdeps := h.wf.causalList_deps h.causalList helog
    have hbe' : b ∈ e.deps := hb.elim (fun hbd => hbd ▸ hd.mem) (hdeps.deps_mem hd.mem)
    have hblog := (h.wf.deps_mem helog hbe').1
    obtain rfl | hbt | htb := h.wf.eq_or_mem_deps hblog htlog (hbq.trans htq.symm)
    · exact hno hbe'
    · have hlt := h.entry_lt_of_mem_deps htlog htop.about htinc htq hbt hbk
      exact hlt.ne (hbe.trans heq)
    · exact hno (hdeps.deps_mem hbe' htb)

/-- **A `VCINC` that arrives replaces the top if it is ranked above, and is ranked below
otherwise.** -/
theorem top_step (hpq : p ≤ q) (hk : e.msg.key = key) (hinc : ¬ e.msg.isNew)
    (htop : ClockTop key p q A t) :
    compareVC t.msg.clock e.msg.clock < 0 ∧ clockRank p q t < clockRank p q e ∨
      ¬ compareVC t.msg.clock e.msg.clock < 0 ∧ clockRank p q e < clockRank p q t := by
  have helog := h.last_mem_log happ
  have htlog := h.mem_log_of_mem happ htop.mem
  have hsize : t.msg.clock.size = e.msg.clock.size := by
    rw [(h.pair t htlog htop.about).size, (h.pair e helog hk).size]
  obtain ⟨d, hd, hclock, hdsize, -, hentry⟩ := h.exists_base helog hk hinc
  by_cases hmem : t ∈ e.deps
  · -- the top was the top when the message was prepared
    have hcl := h.causalList r
    rw [happ] at hcl
    obtain rfl : t = d := htop.unique hd hmem (hcl.last hd.mem)
    refine .inl ⟨compareVC_neg_of_lt hsize ?_, h.rank_base_lt helog hk hinc hentry⟩
    rw [hclock]
    exact entry_lt_increaseVC (by simp [hdsize])
  · obtain ⟨htinc, hne, hor⟩ := h.inc_of_notMem_deps happ hk hinc htop.mem htop.about hmem
    obtain ⟨d', -, htclock, -⟩ := h.exists_base htlog htop.about htinc
    have hide : e.msg.clock.id = (e.origin : ℕ) := by rw [hclock, id_increaseVC]
    have hidt : t.msg.clock.id = (t.origin : ℕ) := by rw [htclock, id_increaseVC]
    have hid : t.msg.clock.id ≠ e.msg.clock.id := by
      rw [hide, hidt]
      exact fun heq => hne (Fin.ext (Int.natCast_inj.mp heq))
    have horigin := ((h.pair e helog hk).inc hinc).1
    by_cases hq : e.origin = q
    · have hlt := h.entry_lt_of_mem happ hk hinc hq htop.mem htop.about
      have hpt : t.origin = p := hor.resolve_right fun htq => hne (htq.trans hq.symm)
      refine .inl ⟨(compareVC_neg_iff hsize hid).mpr (.inr ⟨?_, fun hgt => ?_⟩), ?_⟩
      · rw [hide, hidt, hpt, hq]
        have hpq' : p < q := lt_of_le_of_ne hpq fun heq => hne (hpt.trans (heq.trans hq.symm))
        exact_mod_cast hpq'
      · exact absurd (hgt.le q) (not_le.mpr hlt)
      · exact Prod.Lex.toLex_lt_toLex.mpr (.inl hlt)
    · have hp : e.origin = p := horigin.resolve_right hq
      have htq : t.origin = q := hor.resolve_left fun htp => hne (htp.trans hp.symm)
      have hlt := h.entry_lt_of_notMem_deps happ hk hinc hq htop htinc htq hmem
      refine .inr ⟨fun hneg => ?_, Prod.Lex.toLex_lt_toLex.mpr (.inl hlt)⟩
      obtain hlt' | ⟨hidlt, -⟩ := (compareVC_neg_iff hsize hid).mp hneg
      · exact absurd (hlt'.le q) (not_le.mpr hlt)
      · rw [hide, hidt, htq, hp] at hidlt
        exact absurd hpq (not_le.mpr (by exact_mod_cast hidlt))

end ClockPair

theorem pair_of_pairEvent (hC : VcRegular C) (h : Reachable (vcObject iter) C g)
    (hJ : ∀ e ∈ g.log, e.msg.key = key → ClockPairEvent key p q e) : ClockPair iter key p q g where
  wf := Reachable.wellFormed h
  causalList := Reachable.causalList (fun hc => (hC hc).1) h
  unique := new_unique hC.newOnce h
  event := (vcObject_up hC h).1
  pair := hJ

/-- **What two writers leave.** Every replica holds the clock of the top of what it has applied. -/
theorem top_of_reachable (hC : VcRegular C)
    (hpair : ∀ {g r more g'}, C g (.client r (.inc key more)) g' → r = p ∨ r = q) (hpq : p ≤ q)
    (h : Reachable (vcObject iter) C g) :
    (∀ e ∈ g.log, e.msg.key = key → ClockPairEvent key p q e) ∧
      ∀ r ks c, g.state r = some ks → ks key = some (.clock c) →
        ∃ t, ClockTop key p q (g.applied r) t ∧ c = t.msg.clock := by
  refine h.joint_invariant (J := fun e => e.msg.key = key → ClockPairEvent key p q e)
    (I := fun _ A s => ∀ ks c, s = some ks → ks key = some (.clock c) →
      ∃ t, ClockTop key p q A t ∧ c = t.msg.clock) ?_ (by simp [OpBased.start]) ?_ ?_ ?_
  · intro r ks c hks hkey
    obtain rfl : _ = ks := Option.some.inj hks
    cases hkey
  · intro g g' r c s o _ _ hp hI
    rwa [(vcObject_prepare hp).1]
  · intro g g' r c s m hg hJ hI hc _ hp hk
    have hP := pair_of_pairEvent hC hg hJ
    obtain ⟨-, ks, hks, hm⟩ := vcObject_prepare hp
    cases c with
    | new k more =>
      obtain ⟨-, -, rfl⟩ := vcnewPrepare_eq_some hm.symm
      exact ⟨size_lNewVC _, fun hinc => absurd rfl hinc, .inl (by simp [Net.event])⟩
    | inc k more =>
      obtain ⟨-, c, hkey, rfl⟩ := vcincPrepare_eq_some hm.symm
      obtain rfl : k = key := hk
      obtain ⟨t, htop, rfl⟩ := hI ks c hks hkey
      have htlog := hP.wf.applied_mem htop.mem
      have hsize := (hP.pair t htlog htop.about).size
      refine ⟨?_, fun _ => ⟨hpair hc, t, htop, rfl⟩, ?_⟩
      · exact (size_increaseVC ..).trans hsize
      · by_cases hq : r = q
        · exact .inr ⟨_, .inl rfl, rfl, by simp [Net.event], hq, rfl⟩
        · have hentry : (increaseVC t.msg.clock r).entry q = t.msg.clock.entry q := by
            rw [entry_increaseVC (by simp [hsize]), Int.toNat_natCast,
              Function.update_of_ne fun heq => hq (Fin.ext heq.symm)]
          obtain hzero | ⟨b, hb, hbk, hbinc, hbq, hbe⟩ := (hP.pair t htlog htop.about).last
          · exact .inl (hentry.trans hzero)
          · refine .inr ⟨b, .inr ?_, hbk, hbinc, hbq, hbe.trans hentry.symm⟩
            exact hb.elim (fun hbt => hbt ▸ htop.mem) ((hP.causalList r).deps_mem htop.mem)
  · intro g' r e A s hg' hJ he happ hI ks' c hks' hkey'
    have hP := pair_of_pairEvent hC hg' hJ
    obtain ⟨ks, rfl, heff⟩ := Option.bind_eq_some_iff.mp hks'
    by_cases hk : key = e.msg.key
    · subst hk
      obtain ⟨hnew, -, rfl⟩ | ⟨hinc, o, ho, rfl⟩ := vcEffect_cases heff
      · obtain rfl : e.msg.clock = c := by simpa using hkey'
        have hfirst := key_ne_of_new hC hg' hP.event he happ hnew
        refine ⟨e, ⟨by simp, rfl, fun e' he' hk hne => ?_⟩, rfl⟩
        rw [List.mem_append, List.mem_singleton] at he'
        exact absurd hk (hfirst e' (he'.resolve_right hne))
      · obtain ⟨t, htop, rfl⟩ := hI ks o rfl ho
        obtain ⟨hneg, hlt⟩ | ⟨hneg, hlt⟩ := hP.top_step happ hpq rfl hinc htop
        · obtain rfl : e.msg.clock = c := by simpa [hneg] using hkey'
          exact ⟨e, htop.replace rfl hlt, rfl⟩
        · obtain rfl : t.msg.clock = c := by simpa [hneg, ho] using hkey'
          exact ⟨t, htop.keep fun _ => hlt, rfl⟩
    · rw [vcEffect_of_ne heff hk] at hkey'
      obtain ⟨t, htop, rfl⟩ := hI ks c rfl hkey'
      exact ⟨t, htop.keep fun heq => absurd heq.symm hk, rfl⟩

/-- **Two writers converge.** -/
theorem eq_of_delivered (hC : VcRegular C)
    (hpair : ∀ {g r more g'}, C g (.client r (.inc key more)) g' → r = p ∨ r = q) (hpq : p ≤ q)
    (h : Reachable (vcObject iter) C g) (hd : Delivered g) (r r' : Fin N) {ks ks' : VcKeys}
    (hks : g.state r = some ks) (hks' : g.state r' = some ks') : ks key = ks' key := by
  have w := Reachable.wellFormed h
  have hstored : ∀ {r ks}, g.state r = some ks → VcStored (g.applied r) key (ks key) := by
    intro r ks hks
    obtain ⟨ks₁, hks₁, hst⟩ := (vcObject_up hC h).2 r
    obtain rfl : ks = ks₁ := Option.some.inj (hks.symm.trans hks₁)
    exact hst key
  have hsub : ∀ {r r' e}, e ∈ g.applied r → e ∈ g.applied r' := fun he => hd _ _ (w.applied_mem he)
  obtain ⟨hn, hno⟩ | ⟨e, he, hek, hc⟩ := hstored hks <;>
    obtain ⟨hn', hno'⟩ | ⟨e', he', hek', hc'⟩ := hstored hks'
  · rw [hn, hn']
  · exact absurd hek' (hno e' (hsub he'))
  · exact absurd hek (hno' e (hsub he))
  · obtain ⟨-, htop⟩ := top_of_reachable hC hpair hpq h
    obtain ⟨t, ht, hclock⟩ := htop r ks _ hks hc
    obtain ⟨t', ht', hclock'⟩ := htop r' ks' _ hks' hc'
    rw [hc, hc', hclock, hclock', ht.unique ht' (hsub ht.mem) (hsub ht'.mem)]

end

end RemoveWin
