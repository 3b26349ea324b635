import RemoveWin.Tree.Updates

/-!
# Concurrent writes of values

A write is meant to take place if its clock is greater in a total order, or if it comes next.
Under causal delivery every write comes next when it arrives, so the order never decides
anything and the value a replica ends up with is that of the write it applied last. That write is
one that no other write of the node depends on. If all such writes carry one value, replicas
agree in the end, and two concurrent writes of different values make them differ.

## Main results

* `RemoveWin.sameValues_of_structural` — replicas agree once a tree has been built and delivered
* `RemoveWin.rwTree_values_converge` — and still do after writes whose top ones agree
* `RemoveWin.rwTree_values_diverge` — what happens otherwise
-/

namespace RemoveWin

open Replicated

/-- The key of the node that is written and the value. -/
def TreeMsg.writeOf : TreeMsg → Option (Sds × Sds)
  | .changeValue uid name _ _ => some (sdsnew uid, name)
  | _ => none

/-- Whether the command writes a value. -/
def TreeCmd.isWrite : TreeCmd → Bool
  | .changeValue _ _ => true
  | _ => false

section

variable {N : ℕ}

/-- Clients only write values. -/
def onlyWrites : TreeCond N
  | _, .client _ c, _ => c.cmd.isWrite
  | _, .deliver _ _, _ => True

instance (g : TreeNet N) (a : Act (Fin N) TreeCall)
    (g' : TreeNet N) : Decidable (onlyWrites g a g') :=
  match a with
  | .client _ c => inferInstanceAs (Decidable (c.cmd.isWrite = true))
  | .deliver _ _ => inferInstanceAs (Decidable True)

/-- Only writes, in causal order. -/
def writesOnly : TreeCond N :=
  fun g a g' => causal g a g' ∧ onlyWrites g a g'

instance (g : TreeNet N) (a : Act (Fin N) TreeCall)
    (g' : TreeNet N) : Decidable (writesOnly g a g') :=
  inferInstanceAs (Decidable (_ ∧ _))

/-- All replicas are up and show the same values. -/
def SameValues (iter : Fin N → Iteration) (g : TreeNet N) : Prop :=
  ∃ value : Sds → Option Sds, ∀ r, ∃ ht, g.state r = some ht ∧
    ∀ k, (ht.node (.of iter r) k).name = value k

/-- A write that no write of the same node depends on. -/
abbrev TopWrite (A : List (TreeEvent N)) (e : TreeEvent N) (k v : Sds) : Prop :=
  Top TreeMsg.writeOf A e k v

/-- For each node, the top writes since `g₀` carry one value. -/
def TopWritesAgree (g₀ g : TreeNet N) : Prop :=
  ∀ k v v' e e', e ∉ g₀.log → e' ∉ g₀.log → TopWrite g.log e k v → TopWrite g.log e' k v' → v = v'

/-! ### A replica that applies writes -/

/-- What a replica shows: the value from before, or that of a write it has applied and that no
write it has applied depends on. -/
def Shows (old : Sds → Option Sds) (log₀ A : List (TreeEvent N)) (F : Forest)
    (k : Sds) : Prop :=
  ((F k).name = old k ∧ ∀ e ∈ A, e ∉ log₀ → ∀ v, e.msg.writeOf ≠ some (k, v)) ∨
    ∃ e v, e ∉ log₀ ∧ TopWrite A e k v ∧ (F k).name = some v

/-- A write of the second part of a run carries the clock that all headers have. -/
def WriteMsg (H : Sds → ℕ → ℤ) (m : TreeMsg) : Prop :=
  ∃ uid name v t, m = .changeValue uid name v t ∧ t.entry = H (sdsnew uid)

variable {iter : Fin N → Iteration} {C₀ : TreeCond N}
  {g₀ g g' : TreeNet N} {r : Fin N} {e : TreeEvent N}
  {ht : TreeHT} {H : Sds → ℕ → ℤ} {old : Sds → Option Sds}

/-- **Every write takes place.** -/
theorem changeValueEffect_of_inOrder {C : TreeCond N}
    (ha : TreeApplies iter C (rwTree iter).start g g' r e ht) (ho : InOrder g₀ g g' r e)
    {uid name : Sds} {v t : VC} (hm : e.msg = .changeValue uid name v t)
    (ht' : t.entry = (ht.node (.of iter r) (sdsnew uid)).header.current.entry) :
    ∃ ht', treeEffect (.of iter r) ht e.msg = some ht' ∧ ∀ j,
      (ht'.node (.of iter r) j).header = (ht.node (.of iter r) j).header ∧
      (ht'.node (.of iter r) j).name =
        if j = sdsnew uid then some name else (ht.node (.of iter r) j).name := by
  have hsize := ha.size (j := sdsnew uid) (t := t) (by simp [hm, TreeMsg.stampsFor])
  have hcalm : ¬ removeCheck (ht.node (.of iter r) (sdsnew uid)).header t := by
    rw [removeCheck_iff hsize, ht', not_not]
  have hready := valueClock.ready ha ho (j := sdsnew uid) (v := v) (by rw [hm]; exact if_pos rfl)
  have hwrites : WritesName (ht.node (.of iter r) (sdsnew uid)) v t :=
    ⟨(updateCheck_iff hsize).mpr ht', .inr hready⟩
  obtain ⟨ht₁, heff, hnode⟩ :
      ∃ ht₁, changeValueEffect (.of iter r) uid name v t ht = some ht₁ ∧ _ :=
    changeValueEffect_of_calm hcalm
  refine ⟨ht₁, by rw [hm]; exact heff, fun j => ?_⟩
  rw [hnode]
  refine ⟨rfl, ?_⟩
  by_cases hj : j = sdsnew uid
  · subst hj
    simp [hwrites]
  · simp [hj]

theorem Shows.concat_of_ne {log₀ A : List (TreeEvent N)} {F F' : Forest} {k : Sds}
    (h : Shows old log₀ A F k) (hF : (F' k).name = (F k).name)
    (hm : ∀ v, e.msg.writeOf ≠ some (k, v)) : Shows old log₀ (A ++ [e]) F' k := by
  rw [Shows, hF]
  rcases h with ⟨hold, hno⟩ | ⟨d, v, hnew, htop, hname⟩
  · refine .inl ⟨hold, fun d hd => ?_⟩
    rw [List.mem_append, List.mem_singleton] at hd
    rcases hd with hd | rfl
    · exact hno d hd
    · exact fun _ => hm
  · exact .inr ⟨d, v, hnew, (top_concat_iff htop.1).mpr ⟨htop, fun w hw => absurd hw (hm w)⟩, hname⟩

theorem shows_of_writesOnly (h₀ : Reachable (rwTree iter) C₀ g₀) (hd₀ : Delivered g₀)
    (hold : ∀ r, ∃ ht, g₀.state r = some ht ∧ ∀ k, (ht.node (.of iter r) k).name = old k)
    (h : Steps (rwTree iter) writesOnly g₀ g) :
    ∀ r, ∃ ht, g.state r = some ht ∧
      ∀ k, Shows old g₀.log (g.applied r) (ht.node (.of iter r)) k := by
  have w₀ := Reachable.wellFormed h₀
  obtain ⟨H, hH⟩ := exists_current_of_delivered h₀ hd₀
  have hinv := tree_apply_invariant (J := fun e => e ∉ g₀.log → WriteMsg H e.msg)
    (P := fun _ A F => (∀ k, (F k).header.current.entry = H k) ∧ ∀ k, Shows old g₀.log A F k)
    ?_ (fun e he hne => absurd he hne) ?_ ?_ h
  · intro r
    obtain ⟨ht, hs, -, hshows⟩ := hinv.2 r
    exact ⟨ht, hs, hshows⟩
  · intro r
    obtain ⟨ht, hs, hname⟩ := hold r
    refine ⟨ht, hs, hH r ht hs, fun k => .inl ⟨hname k, fun e he hne => ?_⟩⟩
    exact absurd (w₀.applied_mem he) hne
  · intro g g' r fuel cmd m ht _ _ _ hP hc _ _ hacc _
    cases hacc with
    | changeValue => exact ⟨_, _, _, _, rfl, hP.1 _⟩
    | _ => cases hc.2
  · intro g g' r e ht ha ihJ hP
    have ho := ha.inOrder (fun hc => hc.1) h₀ hd₀
    obtain ⟨uid, name, v, t, hm, ht'⟩ := ihJ e ha.mem ho.new
    obtain ⟨ht₁, heff, hnode⟩ := changeValueEffect_of_inOrder (ha.of_start h₀) ho hm
      (ht'.trans (hP.1 _).symm)
    refine ⟨ht₁, heff, fun k => by rw [(hnode k).1, hP.1], fun k => ?_⟩
    have hw : e.msg.writeOf = some (sdsnew uid, name) := by rw [hm]; rfl
    by_cases hk : k = sdsnew uid
    · subst hk
      refine .inr ⟨e, name, ho.new, top_of_inOrder ho ?_ hw, by rw [(hnode _).2, if_pos rfl]⟩
      exact (ha.after.wellFormed w₀).notMem_deps ha.mem
    · refine (hP.2 k).concat_of_ne (by rw [(hnode k).2, if_neg hk]) fun v' hv' => hk ?_
      rw [hw] at hv'
      exact (Prod.mk.inj (Option.some.inj hv')).1.symm

/-- **Values converge if the top writes agree.** Take any run after which everything has been
delivered and all replicas show the same values, and go on with writes alone, in any causal order of
delivery. Once they have all been delivered, and if for each node those of them that no other write
of the node depends on carry one value, all replicas show the same values again. Clocks are
unbounded here: in the code they are exact below `INT_MAX` and for at most `100` replicas. -/
theorem rwTree_values_converge (h₀ : Reachable (rwTree iter) C₀ g₀) (hd₀ : Delivered g₀)
    (hsame : SameValues iter g₀) (h : Steps (rwTree iter) writesOnly g₀ g) (hd : Delivered g)
    (htop : TopWritesAgree g₀ g) : SameValues iter g := by
  obtain ⟨old, hold⟩ := hsame
  have w := h.wellFormed (Reachable.wellFormed h₀)
  have happ : ∀ r e, e ∈ g.applied r ↔ e ∈ g.log := fun r e => ⟨w.applied_mem, hd r e⟩
  have hshows := shows_of_writesOnly h₀ hd₀ hold h
  -- the value is that of any top write, and the old one if there is none
  have hvalue : ∀ k, ∃ v, ∀ r (F : Forest), Shows old g₀.log (g.applied r) F k →
      (F k).name = v := by
    intro k
    by_cases hex : ∃ e v, e ∉ g₀.log ∧ TopWrite g.log e k v
    · obtain ⟨e, v, hne, he⟩ := hex
      refine ⟨some v, fun r F hsh => ?_⟩
      rcases hsh with ⟨-, hno⟩ | ⟨e', v', hne', he', hname⟩
      · exact absurd he.2.1 (hno e ((happ r e).mpr he.1) hne v)
      · rw [hname, htop k v v' e e' hne hne' he ((top_congr (happ r)).mp he')]
    · refine ⟨old k, fun r F hsh => ?_⟩
      rcases hsh with ⟨hname, -⟩ | ⟨e', v', hne', he', -⟩
      · exact hname
      · exact absurd ⟨e', v', hne', (top_congr (happ r)).mp he'⟩ hex
  choose value hvalue using hvalue
  refine ⟨value, fun r => ?_⟩
  obtain ⟨ht, hs, hsh⟩ := hshows r
  exact ⟨ht, hs, fun k => hvalue k r _ (hsh k)⟩

/-- Replicas agree once a tree has been built under the benchmark's discipline and delivered. -/
theorem sameValues_of_structural (hg : Reachable (rwTree iter) structural g) (hd : Delivered g) :
    SameValues iter g := by
  obtain ⟨hlog, hok⟩ := treeOk_of_reachable hg
  have w := Reachable.wellFormed hg
  have happ : ∀ r e, e ∈ g.applied r ↔ e ∈ g.log := fun r e => ⟨w.applied_mem, hd r e⟩
  have hvalue : ∀ k, ∃ v, ∀ r F, TreeOk (.of iter r) (g.applied r) F → (F k).name = v := by
    intro k
    by_cases hk : k = rootId
    · have hcre : ∀ r, Created (g.applied r) ↔ Created g.log := fun r => by
        simp only [Created, happ]
      subst hk
      by_cases hc : Created g.log
      · exact ⟨some treeRoot, fun r F h => h.rootName.1 ((hcre r).mpr hc)⟩
      · exact ⟨none, fun r F h => h.rootName.2 (hc ∘ (hcre r).mp)⟩
    · by_cases hin : Inserted g.log k
      · obtain ⟨v, p, hins⟩ := hin
        exact ⟨some v, fun r F h => (h.written k v p ((insertedAs_congr (happ r)).mpr hins)).2⟩
      · refine ⟨none, fun r F h => (h.blank k hk ?_).2.2.2⟩
        exact fun hi => hin (hi.mono fun e => (happ r e).mp)
  choose value hvalue using hvalue
  refine ⟨value, fun r => ?_⟩
  obtain ⟨ht, hs, h⟩ := hok r
  exact ⟨ht, hs, fun k => hvalue k r _ h⟩

end

/-- A node is inserted and delivered; one replica writes it, and the other writes it again once
it has seen that: both show the second value. -/
theorem rwTree_values_converge_twice :
    ∃ g₀ g, Reachable (rwTree (inOrder 2)) structural g₀ ∧ Delivered g₀ ∧
      Steps (rwTree (inOrder 2)) writesOnly g₀ g ∧ Delivered g ∧
      (∃ e ∈ g.log, e.msg.writeOf = some ([120], [97])) ∧
      SameValues (inOrder 2) g := by
  obtain ⟨g₀, hg₀, hids₀, hrun⟩ :=
    (rwTree (inOrder 2)).exists_reachable structural
      (fun g => (∀ r, ∀ i < g.log.length, i ∈ g.appliedIds r) ∧
        ((rwTree (inOrder 2)).run writesOnly g
          [.client 0 ⟨1, .changeValue [120] [97]⟩, .deliver 1 2,
            .client 1 ⟨1, .changeValue [120] [98]⟩, .deliver 0 3]).any fun g =>
          (∀ r, ∀ i < g.log.length, i ∈ g.appliedIds r) ∧
            (∃ e ∈ g.log, e.msg.writeOf = some ([120], [97])) ∧
            ∀ e ∈ g.log, e.id = 3 ∨ e.msg.writeOf = none ∨ ∃ d ∈ g.log,
              e.id ∈ d.deps.map Event.id ∧
                d.msg.writeOf.map Prod.fst = e.msg.writeOf.map Prod.fst)
      [.client 0 ⟨0, .create⟩, .client 0 ⟨1, .insert [118] rootId [120]⟩, .deliver 1 0,
        .deliver 1 1] (by decide)
  obtain ⟨g, hg, hids, hw, hlast⟩ := Steps.exists_of_run .refl _ hrun
  have w₀ := Reachable.wellFormed hg₀
  have w := hg.wellFormed w₀
  have hd₀ : Delivered g₀ := w₀.delivered_of_ids hids₀
  have hd : Delivered g := w.delivered_of_ids hids
  refine ⟨g₀, g, hg₀, hd₀, hg, hd, hw, rwTree_values_converge hg₀ hd₀
    (sameValues_of_structural hg₀ hd₀) hg hd ?_⟩
  -- the first write is known to the second, which is the only top write
  have htop : ∀ e k v, TopWrite g.log e k v → e.id = 3 := by
    rintro e k v ⟨he, hm, htop⟩
    rcases hlast e he with hid | hnone | ⟨d, hd, hid, hkey⟩
    · exact hid
    · rw [hm] at hnone
      cases hnone
    · obtain ⟨e', he', heq⟩ := List.mem_map.mp hid
      obtain rfl := w.eq_of_id (w.deps_mem hd he').1 he heq
      rw [hm, Option.map_some, Option.map_eq_some_iff] at hkey
      obtain ⟨⟨_, u⟩, hu, rfl⟩ := hkey
      exact absurd he' (htop d hd u hu)
  intro k v v' e e' _ _ he he'
  obtain rfl := w.eq_of_id he.1 he'.1 ((htop e k v he).trans (htop e' k v' he').symm)
  exact (Prod.mk.inj (Option.some.inj (he.2.1.symm.trans he'.2.1))).2

/-- **Concurrent writes of different values.** A node is inserted and delivered; both replicas
write it, and each receives the other's write last. -/
theorem rwTree_values_diverge :
    ∃ g₀ g, Reachable (rwTree (inOrder 2)) structural g₀ ∧ Delivered g₀ ∧
      Steps (rwTree (inOrder 2)) writesOnly g₀ g ∧ Delivered g ∧
      ¬ SameValues (inOrder 2) g := by
  obtain ⟨g₀, hg₀, hids₀, hrun⟩ :=
    (rwTree (inOrder 2)).exists_reachable structural
      (fun g => (∀ r, ∀ i < g.log.length, i ∈ g.appliedIds r) ∧
        ((rwTree (inOrder 2)).run writesOnly g
          [.client 0 ⟨1, .changeValue [120] [97]⟩, .client 1 ⟨1, .changeValue [120] [98]⟩,
            .deliver 1 2, .deliver 0 3]).any fun g =>
          (∀ r, ∀ i < g.log.length, i ∈ g.appliedIds r) ∧
            (g.state 0).all (fun ht =>
              (ht.node (.of (inOrder 2) 0) [120]).name = some [98]) ∧
            (g.state 1).all (fun ht =>
              (ht.node (.of (inOrder 2) 1) [120]).name = some [97]))
      [.client 0 ⟨0, .create⟩, .client 0 ⟨1, .insert [118] rootId [120]⟩, .deliver 1 0,
        .deliver 1 1] (by decide)
  obtain ⟨g, hg, hids, h₀, h₁⟩ := Steps.exists_of_run .refl _ hrun
  have w₀ := Reachable.wellFormed hg₀
  refine ⟨g₀, g, hg₀, w₀.delivered_of_ids hids₀, hg, (hg.wellFormed w₀).delivered_of_ids hids, ?_⟩
  rintro ⟨value, hvalue⟩
  obtain ⟨ht, hs, hname⟩ := hvalue 0
  obtain ⟨ht', hs', hname'⟩ := hvalue 1
  rw [hs, Option.all_some, decide_eq_true_iff, hname] at h₀
  rw [hs', Option.all_some, decide_eq_true_iff, hname', h₀] at h₁
  exact absurd h₁ (by decide)

end RemoveWin
