import RemoveWin.Lib.Knowledge
import RemoveWin.Tree.Acyclic

/-!
# Updates of nodes that are everywhere

Once a tree has been delivered to all replicas and nobody deletes or inserts, the headers stand
still and what remains are updates: writes of values, and moves. Both carry a clock of their own
that every replica joins into the node's, whether the update takes place or not. So these clocks
count updates, in the sense of `Replicated.Counting`, in any run whatever. Under causal delivery
that settles the questions the effects ask: an update is always `causally_ready` when it arrives,
and `checkCurrency` finds out whether the node has seen an update that the new one has not.
-/

namespace RemoveWin

open Replicated

/-! ### Clocks of updates -/

/-- A clock in the nodes that is joined with the clock of every update of some kind, and that
such an update takes one further at its origin. -/
structure ClockField where
  /-- The clock of a node. -/
  get : Rtn → VC
  /-- The clock a message brings for the node with a given key. -/
  sent : Sds → TreeMsg → Option VC
  new : ∀ srv, get (rtnNew srv) = lNewVC srv
  kept : ∀ {srv n}, RtnShape srv n → (get n).Kept srv
  clocks : ∀ {j m v}, sent j m = some v → v ∈ m.clocks
  frame : ∀ {srv m j n n'}, TreeMsg.Frame srv m j n n' →
    get n' = (sent j m).elim (get n) (updateVC (get n))
  accepts : ∀ {srv ht fuel cmd m}, Accepts srv ht fuel cmd m →
    ∀ j v, sent j m = some v → v = nowVC (get (ht.node srv j))

/-- The clock of values. -/
def valueClock : ClockField where
  get n := n.vectorClock
  sent j
    | .changeValue uid _ v _ => if j = sdsnew uid then some v else none
    | _ => none
  new _ := rfl
  kept h := h.vectorClock
  clocks {j m v} h := by
    cases m with
    | changeValue => simp_all [TreeMsg.clocks]
    | _ => cases h
  frame {srv m j n n'} h := by
    rw [h.vectorClock]
    cases m with
    | changeValue =>
      dsimp only [TreeMsg.onVectorClock]
      split <;> rfl
    | _ => rfl
  accepts {srv ht fuel cmd m} h j v hv := by
    cases h with
    | changeValue =>
      obtain ⟨rfl, rfl⟩ := by simpa [Option.ite_none_right_eq_some] using hv
      rfl
    | _ => cases hv

/-- The clock of moves. -/
def moveClock : ClockField where
  get n := n.moveVC
  sent j
    | .move _ src v _ _ => if j = sdsnew src then some v else none
    | _ => none
  new _ := rfl
  kept h := h.moveVC
  clocks {j m v} h := by
    cases m with
    | move => simp_all [TreeMsg.clocks]
    | _ => cases h
  frame {srv m j n n'} h := by
    rw [h.moveVC]
    cases m with
    | move =>
      dsimp only [TreeMsg.onMoveVC]
      split <;> rfl
    | _ => rfl
  accepts {srv ht fuel cmd m} h j v hv := by
    cases h with
    | move =>
      obtain ⟨rfl, rfl⟩ := by simpa [Option.ite_none_right_eq_some] using hv
      rfl
    | _ => cases hv

namespace ClockField

variable {N : ℕ} {iter : Fin N → Iteration} {C₀ C : TreeCond N}
  {g₀ g g' : TreeNet N} (f : ClockField)

/-- The event updates the node with key `j`. -/
def About (j : Sds) (e : TreeEvent N) : Prop := (f.sent j e.msg).isSome

/-- The clock of the update. -/
def stamp (j : Sds) (e : TreeEvent N) : ℕ → ℤ := (f.sent j e.msg).elim 0 VC.entry

theorem stamp_eq {j : Sds} {e : TreeEvent N} {v : VC} (h : f.sent j e.msg = some v) :
    f.stamp j e = v.entry := by
  rw [stamp, h, Option.elim_some]

theorem about_of_sent {j : Sds} {e : TreeEvent N} {v : VC}
    (h : f.sent j e.msg = some v) : f.About j e := by
  rw [About, h, Option.isSome_some]

theorem isLUB_of_reachable (hg : Reachable (rwTree iter) C g) (r : Fin N) {ht : TreeHT}
    (hs : g.state r = some ht) (j : Sds) :
    IsLUB (insert 0 (stamps (f.About j) (f.stamp j) (g.applied r)))
      (f.get (ht.node (.of iter r) j)).entry := by
  refine (tree_invariant (P := fun r A F => ∀ j, RtnShape (.of iter r) (F j) ∧
    IsLUB (insert 0 (stamps (f.About j) (f.stamp j) A)) (f.get (F j)).entry) ?_ ?_ hg r ht hs j).2
  · intro r ht hs j
    cases hs
    refine ⟨rtnShape_rtnNew _, ?_⟩
    rw [TreeHT.node_empty, f.new, entry_lNewVC, OpBased.start, stamps_nil]
    simp
  · intro g' r e A ht ht' hg' he _ ih heff j
    obtain ⟨hshape, hlub⟩ := ih j
    have hframe := treeEffect_frame heff j
    refine ⟨hframe.shape hshape, ?_⟩
    rw [f.frame hframe]
    cases hsent : f.sent j e.msg with
    | none =>
      rw [stamps_concat_of_not_about (by simp [About, hsent]), Option.elim_none]
      exact hlub
    | some v =>
      have hsize := (treeClock_of_reachable hg' e he v (f.clocks hsent)).size
      rw [stamps_concat_of_about (f.about_of_sent hsent), f.stamp_eq hsent, Option.elim_some,
        entry_updateVC ((f.kept hshape).size.trans hsize.symm), Set.insert_comm, sup_comm]
      exact hlub.insert v.entry

/-- **The clock counts updates.** -/
theorem counting (hg : Reachable (rwTree iter) C g) (j : Sds) :
    Counting Fin.val (f.About j) (f.About j) (f.stamp j) g.log := by
  refine ⟨Fin.val_injective, fun h => h, ?_, fun e _ ha hn => absurd ha hn⟩
  refine tree_log_invariant (by simp [OpBased.start]) ?_ hg
  intro g g' r fuel cmd m ht hg _ _ _ hs hacc ha
  obtain ⟨v, hv⟩ := Option.isSome_iff_exists.mp ha
  refine ⟨(f.get (ht.node (.of iter r) j)).entry, f.isLUB_of_reachable hg r hs j, ?_⟩
  have hkept := f.kept (treeShape_of_reachable hg r hs j)
  have hid : (f.get (ht.node (.of iter r) j)).id.toNat = r.val := by
    rw [hkept.id]
    simp [Server.of]
  have hlt : (f.get (ht.node (.of iter r) j)).id.toNat <
      (f.get (ht.node (.of iter r) j)).size := by
    rw [hid, hkept.size]
    exact r.isLt
  rw [f.stamp_eq hv, f.accepts hacc j v hv, entry_nowVC hlt, hid]
  rfl

end ClockField

/-! ### After everything has been delivered -/

section

variable {N : ℕ} {iter : Fin N → Iteration} {C₀ C : TreeCond N}
  {g₀ g g' : TreeNet N} {r : Fin N} {e : TreeEvent N}
  {ht : TreeHT}

theorem reachable_of_steps (h₀ : Reachable (rwTree iter) C₀ g₀) (h : Steps (rwTree iter) C g₀ g) :
    Reachable (rwTree iter) anyOrder g :=
  Steps.trans (h₀.mono fun _ => trivial) (h.mono fun _ => trivial)

/-- The event is applied in causal order, at a time when everything up to `g₀` had been
applied. -/
structure InOrder (g₀ g g' : TreeNet N) (r : Fin N)
    (e : TreeEvent N) : Prop where
  /-- It has not been applied before. -/
  fresh : e ∉ g.applied r
  /-- So it is new. -/
  new : e ∉ g₀.log
  /-- What has been applied is closed. -/
  closed : Closed (g.applied r)
  deps : ∀ d ∈ e.deps, d ∈ g.applied r
  /-- Its history is closed. -/
  closed_deps : Closed e.deps
  /-- Everything up to `g₀` is part of it. -/
  old : ∀ d ∈ g₀.log, d ∈ e.deps
  applied_mem : ∀ d ∈ g.applied r, d ∈ g'.log

theorem TreeApplies.of_start (h₀ : Reachable (rwTree iter) C₀ g₀)
    (ha : TreeApplies iter C g₀ g g' r e ht) :
    TreeApplies iter anyOrder (rwTree iter).start g g' r e ht where
  before := reachable_of_steps h₀ ha.before
  after := reachable_of_steps h₀ ha.after
  mem := ha.mem
  applied := ha.applied
  state := ha.state
  source := ha.source.imp (fun ⟨i, _, hi⟩ => ⟨i, trivial, hi⟩)
    fun ⟨ht₀, fuel, cmd, _, hacc⟩ => ⟨ht₀, fuel, cmd, trivial, hacc⟩

theorem TreeApplies.inOrder (hC : ∀ {g a g'}, C g a g' → causal g a g')
    (h₀ : Reachable (rwTree iter) C₀ g₀) (hd₀ : Delivered g₀)
    (ha : TreeApplies iter C g₀ g g' r e ht) : InOrder g₀ g g' r e := by
  have w₀ := Reachable.wellFormed h₀
  have w' := ha.after.wellFormed w₀
  have hclosed := ha.after.closed hC w₀ (hd₀.closed w₀) r
  rw [ha.applied] at hclosed
  have hfresh : e ∉ g.applied r := w'.notMem_of_applied ha.applied
  have hnew : e ∉ g₀.log := fun he => hfresh (ha.before.applied_subset r e (hd₀ r e he))
  exact ⟨hfresh, hnew, ha.before.closed hC w₀ (hd₀.closed w₀) r,
    fun d => hclosed.mem_of_concat (w'.notMem_deps ha.mem),
    ha.after.closed_deps hC w₀ (hd₀.closed w₀) e ha.mem hnew,
    ha.after.old_mem_deps hd₀ e ha.mem hnew,
    fun _ => w'.mem_log_of_applied ha.applied⟩

/-! ### Top updates -/

/-- The event `e` updates the node with key `k` to `v`, and no update of that node in `A` was
prepared with knowledge of it. What counts as an update is up to `upd`. -/
def Top (upd : TreeMsg → Option (Sds × Sds)) (A : List (TreeEvent N))
    (e : TreeEvent N) (k v : Sds) : Prop :=
  e ∈ A ∧ upd e.msg = some (k, v) ∧ ∀ d ∈ A, ∀ w, upd d.msg = some (k, w) → e ∉ d.deps

variable {upd : TreeMsg → Option (Sds × Sds)} {A B : List (TreeEvent N)} {k v : Sds}

theorem top_congr (hAB : ∀ e, e ∈ A ↔ e ∈ B) : Top upd A e k v ↔ Top upd B e k v := by
  simp only [Top, hAB]

theorem top_of_inOrder (ho : InOrder g₀ g g' r e) (hdeps : e ∉ e.deps)
    (hm : upd e.msg = some (k, v)) : Top upd (g.applied r ++ [e]) e k v := by
  refine ⟨by simp, hm, fun d hd _ _ hed => ?_⟩
  rw [List.mem_append, List.mem_singleton] at hd
  rcases hd with hd | rfl
  · exact ho.fresh (ho.closed d hd e hed)
  · exact hdeps hed

theorem top_concat_iff {d : TreeEvent N} (hd : d ∈ A) :
    Top upd (A ++ [e]) d k v ↔
      Top upd A d k v ∧ ∀ w, upd e.msg = some (k, w) → d ∉ e.deps := by
  constructor
  · rintro ⟨-, hm, htop⟩
    exact ⟨⟨hd, hm, fun d' hd' => htop d' (List.mem_append_left _ hd')⟩, htop e (by simp)⟩
  · rintro ⟨⟨-, hm, htop⟩, he⟩
    refine ⟨List.mem_append_left _ hd, hm, fun d' hd' => ?_⟩
    rw [List.mem_append, List.mem_singleton] at hd'
    rcases hd' with hd' | rfl
    · exact htop d' hd'
    · exact he

theorem exists_top (w₀ : g₀.WellFormed) (w : g.WellFormed) (hA : ∀ d ∈ A, d ∈ g.log)
    (hcl : ∀ d ∈ A, d ∉ g₀.log → Closed d.deps) {m : TreeEvent N} (hm : m ∈ A)
    (hnew : m ∉ g₀.log) (hupd : upd m.msg = some (k, v)) :
    ∃ c s, c ∉ g₀.log ∧ Top upd A c k s ∧ (m = c ∨ m ∈ c.deps) := by
  -- climb from each update to one that knows it; event numbers grow on the way
  induction hn : g.log.length - m.id using Nat.strong_induction_on generalizing m v with
  | _ n ih =>
    by_cases htop : Top upd A m k v
    · exact ⟨m, v, hnew, htop, .inl rfl⟩
    · obtain ⟨d, hd, s, hs, hmd⟩ : ∃ d ∈ A, ∃ s, upd d.msg = some (k, s) ∧ m ∈ d.deps := by
        by_contra hno
        refine htop ⟨hm, hupd, fun d hd s hs hmd => hno ⟨d, hd, s, hs, hmd⟩⟩
      have hdnew : d ∉ g₀.log := fun hd₀ => hnew (w₀.deps_mem hd₀ hmd).1
      have hlt := (w.deps_mem (hA d hd) hmd).2
      have hdlt := w.id_lt (hA d hd)
      obtain ⟨c, s', hc, hctop, hdc⟩ := ih (g.log.length - d.id) (by omega) hd hdnew hs rfl
      refine ⟨c, s', hc, hctop, .inr ?_⟩
      rcases hdc with rfl | hdc
      · exact hmd
      · exact hcl c hctop.1 hc d hdc m hmd

namespace ClockField

variable (f : ClockField)

/-- **An update is ready when it arrives.** -/
theorem ready (ha : TreeApplies iter C (rwTree iter).start g g' r e ht) (ho : InOrder g₀ g g' r e)
    {j : Sds} {v : VC} (hv : f.sent j e.msg = some v) :
    causallyReady (f.get (ht.node (.of iter r) j)) v = true := by
  have hkept := f.kept (ha.shape j)
  have hv' := treeClock_of_reachable ha.after e ha.mem v (f.clocks hv)
  have hid : v.id.toNat = e.origin.val := by
    rw [hv'.id]
    simp [Server.of]
  obtain ⟨ht₀, hs, hnode⟩ := ha.state
  have hlub := f.isLUB_of_reachable ha.before r hs j
  rw [hnode] at hlub
  obtain ⟨hle, hown⟩ := (f.counting ha.after j).next (Reachable.wellFormed ha.after)
    ho.applied_mem ho.closed hlub ha.mem (f.about_of_sent hv) ho.fresh ho.deps
  rw [f.stamp_eq hv] at hle hown
  rw [causallyReady_iff (hkept.size.trans hv'.size.symm) (by rw [hv'.id]; simp [Server.of]), hid]
  exact ⟨hle, hown⟩

/-- **Whether an update is concurrent with something the node has seen.** -/
theorem checkCurrency_iff (ha : TreeApplies iter C (rwTree iter).start g g' r e ht)
    (ho : InOrder g₀ g g' r e) {j : Sds} {v : VC} (hv : f.sent j e.msg = some v) :
    checkCurrency (f.get (ht.node (.of iter r) j)) v = true ↔
      ∃ m ∈ g.applied r, f.About j m ∧ m ∉ e.deps := by
  have hkept := f.kept (ha.shape j)
  have hv' := treeClock_of_reachable ha.after e ha.mem v (f.clocks hv)
  obtain ⟨ht₀, hs, hnode⟩ := ha.state
  have hlub := f.isLUB_of_reachable ha.before r hs j
  rw [hnode] at hlub
  have hcount := f.counting ha.after j
  have w := Reachable.wellFormed ha.after
  have habout := f.about_of_sent hv
  obtain ⟨-, hown⟩ := hcount.next w ho.applied_mem ho.closed hlub ha.mem habout ho.fresh ho.deps
  have hle := hcount.le_next_iff w ho.applied_mem ho.closed hlub ha.mem habout ho.fresh ho.deps
    ho.closed_deps
  rw [f.stamp_eq hv] at hle hown
  have hnle : ¬ v.entry ≤ (f.get (ht.node (.of iter r) j)).entry := by
    have hlt : (f.get (ht.node (.of iter r) j)).entry e.origin.val < v.entry e.origin.val := by
      rw [hown]
      exact lt_add_one _
    exact fun h => absurd (h e.origin.val) (not_le.mpr hlt)
  rw [RemoveWin.checkCurrency_iff (hkept.size.trans hv'.size.symm), hle, and_iff_left hnle]
  push Not
  rfl

end ClockField

/-! ### Headers that stand still -/

/-- Once everything has been delivered, all replicas have the same clocks in their headers. -/
theorem exists_current_of_delivered (h₀ : Reachable (rwTree iter) C₀ g₀) (hd₀ : Delivered g₀) :
    ∃ H : Sds → ℕ → ℤ, ∀ r ht, g₀.state r = some ht →
      ∀ k, (ht.node (.of iter r) k).header.current.entry = H k := by
  have w := Reachable.wellFormed h₀
  have hlub : ∀ r ht, g₀.state r = some ht → ∀ k, IsLUB (insert 0 (stampEntries g₀.log k))
      (ht.node (.of iter r) k).header.current.entry := by
    intro r ht hs k
    have happ : stampEntries (g₀.applied r) k = stampEntries g₀.log k := by
      ext c
      exact exists_congr fun e => and_congr_left fun _ => ⟨w.applied_mem, hd₀ r e⟩
    rw [← happ]
    exact isLUB_current_of_reachable h₀ r hs k
  by_cases hup : ∃ r ht, g₀.state r = some ht
  · obtain ⟨r₀, ht₀, hs₀⟩ := hup
    exact ⟨fun k => (ht₀.node (.of iter r₀) k).header.current.entry,
      fun r ht hs k => (hlub r ht hs k).unique (hlub r₀ ht₀ hs₀ k)⟩
  · exact ⟨0, fun r ht hs => absurd ⟨r, ht, hs⟩ hup⟩

end

end RemoveWin
