import RemoveWin.Lib.Completion
import RemoveWin.VcObject.Convergence

/-!
# Clock objects with three writers

`compareVC` orders clocks by their counters where these are in order and by their ids where they
are not, and the two orders do not go together: of three writers, the greatest increases the clock,
the least increases it again, and the middle one increases the clock it started with. The second
clock is above the first, the third above the second by its id, and the first above the third by
its id. A replica that hears of the third last keeps it, and one that hears of it first does not.

So the clocks of all replicas agree in the end, whatever the order of arrival, exactly if at most
two replicas increase them.

## Main results

* `RemoveWin.compareVC_circle` — the three clocks
* `RemoveWin.exists_diverging` — a run that leaves two clocks
* `RemoveWin.vcObject_converges_iff` — when clock objects converge
-/

namespace RemoveWin

open Replicated

/-- What `VCINC` does to the stored clock. -/
def pick (c c' : VC) : VC := if compareVC c c' < 0 then c' else c

/-- Keys with one clock. -/
def oneClock (key : Sds) (c : VC) : VcKeys := Function.update (fun _ => none) key (some (.clock c))

@[simp] theorem oneClock_self (key : Sds) (c : VC) : oneClock key c key = some (.clock c) :=
  Function.update_self ..

theorem vcEffect_oneClock (key : Sds) (c c' : VC) :
    vcEffect ⟨false, key, c'⟩ (oneClock key c) = some (oneClock key (pick c c')) := by
  have hinc : ¬ (VcMsg.mk false key c').isNew := by simp
  rw [vcEffect_of_inc hinc (oneClock_self key c), pick]
  split
  · rw [oneClock, oneClock, Function.update_idem]
  · rfl

theorem foldl_vcEffect_oneClock (key : Sds) (c : VC) (cs : List VC) :
    (cs.map fun c => VcMsg.mk false key c).foldl (fun s m => s.bind (vcEffect m))
      (some (oneClock key c)) = some (oneClock key (cs.foldl pick c)) := by
  induction cs generalizing c with
  | nil => rfl
  | cons c' cs ih => simp [vcEffect_oneClock, ih]

section

variable {N : ℕ} {iter : Fin N → Iteration} {key : Sds} {W : Finset (Fin N)}
  {g : Net (Fin N) (Option VcKeys) VcMsg}

/-- The runs in which a clock is increased at certain replicas only. -/
def vcRuns (key : Sds) (W : Finset (Fin N)) : Cond (Fin N) (Option VcKeys) VcCmd VcMsg :=
  fun g a g' => causal g a g' ∧ created g a g' ∧ incAt key W g a g'

theorem state_of_applied (h : Reachable (vcObject iter) (vcRuns key W) g) {r : Fin N} {c : VC}
    {cs : List VC} (happ : (g.applied r).map Event.msg =
      ⟨true, key, c⟩ :: cs.map fun c => VcMsg.mk false key c) :
    g.state r = some (oneClock key (cs.foldl pick c)) := by
  have hfirst : vcEffect ⟨true, key, c⟩ (fun _ => none) = some (oneClock key c) :=
    vcEffect_of_new (m := ⟨true, key, c⟩) rfl rfl
  have hfold : ((g.applied r).map Event.msg).foldl (fun s m => s.bind (vcEffect m))
      (some fun _ => none) =
      (g.applied r).foldl (fun s e => s.bind (vcEffect e.msg)) (some fun _ => none) :=
    List.foldl_map
  rw [happ, List.foldl_cons, Option.bind_some, hfirst, foldl_vcEffect_oneClock] at hfold
  rw [hfold]
  exact Reachable.state_eq_foldl (fun hp => (vcObject_prepare hp).1) h r

theorem vcRuns_deliver {g' : Net (Fin N) (Option VcKeys) VcMsg} {r : Fin N} {i : ℕ}
    (hc : (causal : Cond (Fin N) (Option VcKeys) VcCmd VcMsg) g (.deliver r i) g') :
    vcRuns key W g (.deliver r i) g' := ⟨hc, trivial, trivial⟩

/-- A `VCNEW` that has arrived everywhere. -/
theorem exists_new (iter : Fin N → Iteration) (key : Sds) (W : Finset (Fin N)) (p : Fin N) :
    ∃ g e₀, Reachable (vcObject iter) (vcRuns key W) g ∧ g.log = [e₀] ∧
      e₀.msg = ⟨true, key, lNewVC (.of iter p)⟩ ∧ ∀ r, g.applied r = [e₀] := by
  have hp : (vcObject iter).prepare p (.new key []) ((vcObject iter).start.state p) =
      some (some fun _ => none, some ⟨true, key, lNewVC (.of iter p)⟩) := rfl
  have h₀ : Reachable (vcObject iter) (vcRuns key W) (vcObject iter).start := .refl
  obtain ⟨g₁, h₁, hlog₁, -, -⟩ := h₀.exists_issue hp fun _ =>
    ⟨trivial, by simp [created, OpBased.start], trivial⟩
  have hw := (vcObject iter).start_wellFormed
  obtain ⟨g₂, h₂, hd, hlog₂, -⟩ := h₁.exists_delivered hw vcRuns_deliver
  have hlog : g₂.log = [(vcObject iter).start.event p ⟨true, key, lNewVC (.of iter p)⟩] :=
    hlog₂.trans hlog₁
  refine ⟨g₂, _, h₂, hlog, rfl, fun r => ?_⟩
  exact List.perm_singleton.mp (hlog ▸ hd.perm (Reachable.wellFormed h₂) r)

/-- One more `VCINC`. -/
theorem exists_inc (c : VC) (cs : List VC) (h : Reachable (vcObject iter) (vcRuns key W) g)
    {r : Fin N} (hr : r ∈ W) (happ : (g.applied r).map Event.msg =
      ⟨true, key, c⟩ :: cs.map fun c => VcMsg.mk false key c)
    (hall : ∀ e ∈ g.log, e.msg.isNew → ∀ r, e ∈ g.applied r) :
    ∃ g' e, Reachable (vcObject iter) (vcRuns key W) g' ∧
      e.msg = ⟨false, key, increaseVC (cs.foldl pick c) r⟩ ∧ e.origin = r ∧
      e.deps = g.applied r ∧ g'.log = g.log ++ [e] ∧ g'.applied r = g.applied r ++ [e] ∧
      ∀ r', r' ≠ r → g'.applied r' = g.applied r' := by
  have hp : (vcObject iter).prepare r (.inc key []) (g.state r) =
      some (some (oneClock key (cs.foldl pick c)),
        some ⟨false, key, increaseVC (cs.foldl pick c) r⟩) := by
    rw [state_of_applied h happ]
    simp [vcObject, vcPrepare, vcincPrepare, lIncreaseVC, Server.of]
  have hcreated : ∀ g', created g (.client r (.inc key [])) g' :=
    fun _ e he hnew _ r' => List.mem_map_of_mem (hall e he hnew r')
  obtain ⟨g', hg', hlog, hself, hother⟩ :=
    h.exists_issue hp fun _ => ⟨trivial, hcreated _, fun _ => hr⟩
  exact ⟨g', _, hg', rfl, rfl, rfl, hlog, hself, hother⟩

theorem pick_increaseVC {c : VC} (hc : c.size = N) (r : Fin N) :
    pick c (increaseVC c r) = increaseVC c r := by
  rw [pick, if_pos (compareVC_neg_of_lt (by simp) (entry_lt_increaseVC (by simp [hc])))]

theorem pick_of_id_lt {c c' : VC} (hs : c.size = c'.size) (hid : c.id < c'.id) {i : ℕ}
    (hi : c.entry i < c'.entry i) : pick c c' = c' := by
  have hgt : ¬ c'.entry < c.entry := fun hgt => absurd (hgt.le i) (not_le.mpr hi)
  rw [pick, if_pos ((compareVC_neg_iff hs hid.ne).mpr (.inr ⟨hid, hgt⟩))]

/-- **`compareVC` goes round in a circle.** Take the clock that the greatest of three ids has
increased, the same increased once more by the least, and one that only the middle one has
increased. The first is below the second, that is below the third, and that is below the first. -/
theorem compareVC_circle {z : VC} (hz : z.size = N) (hz0 : z.entry = 0) {p m s : Fin N}
    (hpm : p < m) (hms : m < s) :
    pick (increaseVC (increaseVC z s) p) (increaseVC z m) = increaseVC z m ∧
      pick (increaseVC z m) (increaseVC z s) = increaseVC z s := by
  have hentry : ∀ {c : VC} {r : Fin N}, c.size = N →
      (increaseVC c r).entry = Function.update c.entry r (c.entry r + 1) := by
    intro c r hc
    rw [entry_increaseVC (by simp [hc]), Int.toNat_natCast]
  have hne : ∀ {r r' : Fin N}, r < r' → (r' : ℕ) ≠ r := fun hlt => (Fin.lt_def.mp hlt).ne'
  constructor
  · refine pick_of_id_lt (i := m) (by simp) (by simpa using hpm) ?_
    rw [hentry (by simpa using hz), hentry hz, hentry hz, Function.update_self,
      Function.update_of_ne (hne hpm), Function.update_of_ne (hne hms).symm, hz0]
    simp
  · refine pick_of_id_lt (i := s) (by simp) (by simpa using hms) ?_
    rw [hentry hz, hentry hz, Function.update_self, Function.update_of_ne (hne hms), hz0]
    simp

/-- What has arrived everywhere stays there when a replica applies one more message. -/
theorem mem_applied_of_act {g g' : Net (Fin N) (Option VcKeys) VcMsg} {r : Fin N}
    {e e₀ : Event (Fin N) VcMsg} (hself : g'.applied r = g.applied r ++ [e])
    (hother : ∀ r', r' ≠ r → g'.applied r' = g.applied r') (h : ∀ r', e₀ ∈ g.applied r')
    (r' : Fin N) : e₀ ∈ g'.applied r' := by
  by_cases hr : r' = r
  · subst hr
    rw [hself]
    exact List.mem_append_left _ (h r')
  · rw [hother r' hr]
    exact h r'

/-- A run of three writers in which the least hears of the middle one last and the middle one of
itself first. -/
theorem exists_crossed (iter : Fin N → Iteration) (key : Sds) {p m s : Fin N} (hp : p ∈ W)
    (hm : m ∈ W) (hs : s ∈ W) (hpm : p < m) (hms : m < s) {z : VC}
    (hz : z = lNewVC (.of iter p)) :
    ∃ g e₀ a b c, Reachable (vcObject iter) (vcRuns key W) g ∧ Delivered g ∧
      e₀.msg = ⟨true, key, z⟩ ∧ a.msg = ⟨false, key, increaseVC z s⟩ ∧
      b.msg = ⟨false, key, increaseVC (increaseVC z s) p⟩ ∧ c.msg = ⟨false, key, increaseVC z m⟩ ∧
      g.applied p = [e₀, a, b, c] ∧ g.applied m = [e₀, c, a, b] := by
  have hps : p ≠ s := (hpm.trans hms).ne
  have hw := (vcObject iter).start_wellFormed
  obtain ⟨g₀, e₀, h₀, hlog₀, he₀, happ₀⟩ := exists_new iter key W p
  rw [← hz] at he₀
  have hne₀ : ∀ {e : Event (Fin N) VcMsg} {c : VC}, e.msg = ⟨false, key, c⟩ → e ≠ e₀ := by
    rintro e c he rfl
    simp [he₀] at he
  -- the greatest increases the clock, and the least gets to know of it
  obtain ⟨g₁, a, h₁, ha, hao, had, hlog₁, hs₁, ho₁⟩ := exists_inc z [] h₀ hs
    (by simp [happ₀, he₀]) (by simp [hlog₀, happ₀])
  rw [List.foldl_nil] at ha
  rw [hlog₀] at hlog₁
  rw [happ₀] at had
  have hp₁ : g₁.applied p = [e₀] := (ho₁ p hps).trans (happ₀ p)
  have hm₁ : g₁.applied m = [e₀] := (ho₁ m hms.ne).trans (happ₀ m)
  obtain ⟨g₂, h₂, hlog₂, hp₂', ho₂⟩ := h₁.exists_deliver hw vcRuns_deliver (r := p) (e := a)
    (by simp [hlog₁]) (by simp [hp₁, hne₀ ha]) (by simp [had, hp₁])
  have hp₂ : g₂.applied p = [e₀, a] := by rw [hp₂', hp₁]; rfl
  have hm₂ : g₂.applied m = [e₀] := (ho₂ m hpm.ne').trans hm₁
  have hall₀ : ∀ r, e₀ ∈ g₀.applied r := fun r => by simp [happ₀]
  have hall₂ := mem_applied_of_act hp₂' ho₂ (mem_applied_of_act hs₁ ho₁ hall₀)
  -- the least increases it again
  obtain ⟨g₃, b, h₃, hb, hbo, hbd, hlog₃, hp₃, ho₃⟩ := exists_inc z
    [increaseVC z s] h₂ hp (by simp [hp₂, he₀, ha])
    (by simp [hlog₂, hlog₁, ha, hall₂])
  have hall₃ := mem_applied_of_act hp₃ ho₃ hall₂
  rw [hp₂] at hbd hp₃
  rw [hlog₂, hlog₁] at hlog₃
  -- and so does the middle one, which knows of nothing
  obtain ⟨g₄, c, h₄, hc, hco, hcd, hlog₄, hm₄, ho₄⟩ := exists_inc z [] h₃ hm
    (by simp [ho₃ m hpm.ne', hm₂, he₀]) (by simp [hlog₃, ha, hb, hall₃])
  rw [ho₃ m hpm.ne', hm₂] at hcd hm₄
  rw [hlog₃] at hlog₄
  have hp₄ := (ho₄ p hpm.ne).trans hp₃
  -- the least and the middle one hear of the rest
  have hne : ∀ {e e' : Event (Fin N) VcMsg}, e.origin ≠ e'.origin → e ≠ e' :=
    fun ho heq => ho (congrArg Event.origin heq)
  have hca : c ≠ a := hne (by rw [hco, hao]; exact hms.ne)
  have hcb : c ≠ b := hne (by rw [hco, hbo]; exact hpm.ne')
  have hba : b ≠ a := hne (by rw [hbo, hao]; exact hps)
  obtain ⟨g₅, h₅, hlog₅, hp₅, ho₅⟩ := h₄.exists_deliver hw vcRuns_deliver (r := p) (e := c)
    (by simp [hlog₄]) (by simp [hp₄, hne₀ hc, hca, hcb]) (by simp [hcd, hp₄])
  have hm₅ := (ho₅ m hpm.ne').trans hm₄
  obtain ⟨g₆, h₆, hlog₆, hm₆, ho₆⟩ := h₅.exists_deliver hw vcRuns_deliver (r := m) (e := a)
    (by simp [hlog₅, hlog₄]) (by simp [hm₅, hne₀ ha, hca.symm]) (by simp [had, hm₅])
  obtain ⟨g₇, h₇, hlog₇, hm₇, ho₇⟩ := h₆.exists_deliver hw vcRuns_deliver (r := m) (e := b)
    (by simp [hlog₆, hlog₅, hlog₄]) (by simp [hm₆, hm₅, hne₀ hb, hcb.symm, hba])
    (by simp [hbd, hm₆, hm₅])
  rw [hlog₆, hlog₅, hlog₄] at hlog₇
  rw [hm₆, hm₅] at hm₇
  have hp₇ := (ho₇ p hpm.ne).trans ((ho₆ p hpm.ne).trans hp₅)
  rw [hp₄] at hp₇
  -- the two have applied everything, so completing the run leaves them alone
  obtain ⟨g, h, hd, -, hsame⟩ := h₇.exists_delivered hw vcRuns_deliver
  have hp₈ : g.applied p = [e₀, a, b, c] := by
    rw [hsame p (by simp [hlog₇, hp₇]), hp₇]
    simp
  have hm₈ : g.applied m = [e₀, c, a, b] := by
    rw [hsame m (by simp [hlog₇, hm₇]), hm₇]
    simp
  refine ⟨g, e₀, a, b, c, h, hd, he₀, ha, ?_, hc, hp₈, hm₈⟩
  rw [hb, List.foldl_cons, List.foldl_nil, pick_increaseVC (hz ▸ size_lNewVC _)]

/-- **Three writers can leave two clocks.** -/
theorem exists_diverging (iter : Fin N → Iteration) (key : Sds) {p m s : Fin N} (hp : p ∈ W)
    (hm : m ∈ W) (hs : s ∈ W) (hpm : p < m) (hms : m < s) :
    ∃ g, Reachable (vcObject iter) (vcRuns key W) g ∧ Delivered g ∧
      ∃ c c', c ≠ c' ∧ g.state p = some (oneClock key c) ∧ g.state m = some (oneClock key c') := by
  set z : VC := lNewVC (.of iter p) with hzdef
  have hz : z.size = N := size_lNewVC _
  obtain ⟨g, e₀, a, b, c, h, hd, he₀, ha, hb, hc, happ, happ'⟩ :=
    exists_crossed iter key hp hm hs hpm hms hzdef
  obtain ⟨hbc, hca'⟩ := compareVC_circle hz (entry_lNewVC _) hpm hms
  have hpa := pick_increaseVC hz s
  have hpb := pick_increaseVC (c := increaseVC z s) (by simpa using hz) p
  refine ⟨g, h, hd, increaseVC z m, increaseVC (increaseVC z s) p, ?_, ?_, ?_⟩
  · intro heq
    have hid := congrArg VC.id heq
    simp only [id_increaseVC, Int.natCast_inj] at hid
    exact hpm.ne' (Fin.ext hid)
  · have hclock : [increaseVC z s, increaseVC (increaseVC z s) p, increaseVC z m].foldl pick z =
        increaseVC z m := by
      simp only [List.foldl_cons, List.foldl_nil, hpa, hpb, hbc]
    rw [← hclock]
    refine state_of_applied h ?_
    simp [happ, he₀, ha, hb, hc]
  · have hclock : [increaseVC z m, increaseVC z s, increaseVC (increaseVC z s) p].foldl pick z =
        increaseVC (increaseVC z s) p := by
      simp only [List.foldl_cons, List.foldl_nil, pick_increaseVC hz m, hca', hpb]
    rw [← hclock]
    refine state_of_applied h ?_
    simp [happ', he₀, ha, hb, hc]

theorem exists_pair_of_card_le (hW : W.card ≤ 2) (r : Fin N) :
    ∃ p q : Fin N, p ≤ q ∧ ∀ x ∈ W, x = p ∨ x = q := by
  rcases W.eq_empty_or_nonempty with rfl | hne
  · exact ⟨r, r, le_rfl, by simp⟩
  · refine ⟨W.min' hne, W.max' hne, W.min'_le _ (W.max'_mem hne), fun x hx => ?_⟩
    by_contra hno
    rw [not_or] at hno
    have hlt := lt_of_le_of_ne (W.min'_le x hx) (Ne.symm hno.1)
    have hgt := lt_of_le_of_ne (W.le_max' x hx) hno.2
    have hthree := Finset.two_lt_card.mpr
      ⟨_, W.min'_mem hne, x, hx, _, W.max'_mem hne, hlt.ne, (hlt.trans hgt).ne, hgt.ne⟩
    omega

/-- **When clock objects converge.** Let a clock be created before it is used and increased at the
replicas in `W` only. All replicas hold the same clock once all messages have arrived, in every such
run, exactly if `W` has at most two elements. Clocks are unbounded here: in the code they are exact
below `INT_MAX` and for at most `100` replicas. -/
theorem vcObject_converges_iff (iter : Fin N → Iteration) (key : Sds) (W : Finset (Fin N)) :
    (∀ g, Reachable (vcObject iter) (vcRuns key W) g → Delivered g →
      ∀ r r', ∃ ks ks', g.state r = some ks ∧ g.state r' = some ks' ∧ ks key = ks' key) ↔
      W.card ≤ 2 := by
  constructor
  · intro h
    by_contra hcard
    have hlt : 2 < W.card := not_le.mp hcard
    set f := W.orderEmbOfFin rfl
    have hmem : ∀ i, f i ∈ W := fun i => W.orderEmbOfFin_mem rfl i
    obtain ⟨g, hg, hd, c, c', hne, hp, hm⟩ := exists_diverging iter key (hmem ⟨0, by omega⟩)
      (hmem ⟨1, by omega⟩) (hmem ⟨2, hlt⟩) (f.lt_iff_lt.mpr (by simp)) (f.lt_iff_lt.mpr (by simp))
    obtain ⟨ks, ks', hks, hks', heq⟩ := h g hg hd (f ⟨0, by omega⟩) (f ⟨1, by omega⟩)
    obtain rfl := Option.some.inj (hp.symm.trans hks)
    obtain rfl := Option.some.inj (hm.symm.trans hks')
    rw [oneClock_self, oneClock_self] at heq
    exact hne (VcObj.clock.inj (Option.some.inj heq))
  · intro hcard g hg hd r r'
    obtain ⟨p, q, hpq, hW⟩ := exists_pair_of_card_le hcard r
    have hC : VcRegular (vcRuns key W) := fun hc => ⟨hc.1, hc.2.1⟩
    obtain ⟨ks, hks, -⟩ := (vcObject_up hC hg).2 r
    obtain ⟨ks', hks', -⟩ := (vcObject_up hC hg).2 r'
    refine ⟨ks, ks', hks, hks', ?_⟩
    exact eq_of_delivered hC (fun hc => hW _ (hc.2.2 rfl)) hpq hg hd r r' hks hks'

/-- Three replicas increase a clock: the last one, then the first one after it has heard of that,
and the second one on its own. The first one ends with the clock of the second, and the second with
that of the first. -/
theorem vcObject_diverges :
    ∃ g, Reachable (vcObject (inOrder 3))
        (fun g a g' => causal g a g' ∧ created g a g') g ∧ Delivered g ∧
      (g.state 0).map (vcget [115]) = some (.clock ⟨[0, 1, 0], 1⟩) ∧
      (g.state 1).map (vcget [115]) = some (.clock ⟨[1, 0, 1], 0⟩) := by
  obtain ⟨g, hg, hids, hstates⟩ := (vcObject (inOrder 3)).exists_reachable
    (fun g a g' => causal g a g' ∧ created g a g')
    (fun g => (∀ r, ∀ i < g.log.length, i ∈ g.appliedIds r) ∧
      (g.state 0).map (vcget [115]) = some (.clock ⟨[0, 1, 0], 1⟩) ∧
      (g.state 1).map (vcget [115]) = some (.clock ⟨[1, 0, 1], 0⟩))
    [.client 0 (.new [115] []), .deliver 1 0, .deliver 2 0, .client 2 (.inc [115] []), .deliver 0 1,
      .client 0 (.inc [115] []), .client 1 (.inc [115] []), .deliver 0 3, .deliver 1 1,
      .deliver 1 2, .deliver 2 2, .deliver 2 3] (by decide)
  exact ⟨g, hg, (Reachable.wellFormed hg).delivered_of_ids hids, hstates⟩

end

end RemoveWin
