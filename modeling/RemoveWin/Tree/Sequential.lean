import RemoveWin.Tree.RefTree

/-!
# The tree of a replica by itself

The commands of a replica that hears of nobody, against the reference tree: what is answered, what
the effects do, and what is listed after any number of them. A value is listed up to its first NUL
byte.
-/

namespace RemoveWin

open Replicated Walk Relation

/-! ### Commands -/

section

variable {srv : Server} {T : RefTree} {U : Set Sds} {ht ht' : TreeHT} {c : TreeCmd} {x : Sds}

theorem treePrepare_mono {n m : ℕ} {p : Prepared TreeHT TreeMsg}
    (h : treePrepare srv ⟨n, c⟩ ht = some p) (hnm : n ≤ m) :
    treePrepare srv ⟨m, c⟩ ht = some p := by
  cases c with
  | create => exact h
  | insert name parent uid =>
    simp only [treePrepare, insertPrepare] at h ⊢
    split at h
    · next hp => rw [if_pos hp, h]
    · next hp =>
      rw [if_neg hp]
      obtain ⟨b, hb, h⟩ := Option.bind_eq_some_iff.mp h
      refine Option.bind_eq_some_iff.mpr ⟨b, istreeMember_mono hb hnm, ?_⟩
      split at h
      · next hb' => rw [if_pos hb', h]
      · next hb' =>
        rw [if_neg hb']
        obtain ⟨tnp, htnp, h⟩ := Option.bind_eq_some_iff.mp h
        obtain ⟨b', hb'', h⟩ := Option.bind_eq_some_iff.mp h
        exact Option.bind_eq_some_iff.mpr ⟨tnp, htnp,
          Option.bind_eq_some_iff.mpr ⟨b', istreeMember_mono hb'' hnm, h⟩⟩
  | delete uid =>
    simp only [treePrepare, deletePrepare] at h ⊢
    split at h
    · next hp => rw [if_pos hp, h]
    · next hp =>
      rw [if_neg hp]
      obtain ⟨b, hb, h⟩ := Option.bind_eq_some_iff.mp h
      exact Option.bind_eq_some_iff.mpr ⟨b, istreeMember_mono hb hnm, h⟩
  | changeValue uid name =>
    simp only [treePrepare, changeValuePrepare] at h ⊢
    split at h
    · next hp => rw [if_pos hp, h]
    · next hp =>
      rw [if_neg hp]
      obtain ⟨b, hb, h⟩ := Option.bind_eq_some_iff.mp h
      exact Option.bind_eq_some_iff.mpr ⟨b, istreeMember_mono hb hnm, h⟩
  | move dst src =>
    simp only [treePrepare, movePrepare] at h ⊢
    split at h
    · next hp => rw [if_pos hp, h]
    · next hp =>
      rw [if_neg hp]
      obtain ⟨b, hb, h⟩ := Option.bind_eq_some_iff.mp h
      refine Option.bind_eq_some_iff.mpr ⟨b, istreeMember_mono hb hnm, ?_⟩
      split at h
      · next hb' => rw [if_pos hb', h]
      · next hb' =>
        rw [if_neg hb']
        obtain ⟨b', hb'', h⟩ := Option.bind_eq_some_iff.mp h
        refine Option.bind_eq_some_iff.mpr ⟨b', istreeMember_mono hb'' hnm, ?_⟩
        split at h
        · next hs => rw [if_pos hs, h]
        · next hs =>
          rw [if_neg hs]
          obtain ⟨o, ho, h⟩ := Option.bind_eq_some_iff.mp h
          exact Option.bind_eq_some_iff.mpr ⟨o, subTree_mono ho hnm, h⟩

theorem find_of_exists (hx : (ht.node srv (sdsnew x)).header.Exists) :
    ht.find x = some (ht.node srv (sdsnew x)) := by
  cases hf : ht.find x with
  | none =>
    rw [TreeHT.node_of_find_eq_none srv hf] at hx
    exact absurd hx (not_exists_rtnNew srv)
  | some tn => rw [TreeHT.node_of_find srv hf]

theorem Mirrors.find (h : Mirrors srv T U (ht.node srv)) (hx : T.Present x) :
    ∃ tn, ht.find x = some tn := by
  have hex : (ht.node srv (sdsnew x)).header.Exists := by
    rw [sdsnew_of_nulFree (h.nulFree hx)]
    exact h.exists_of_present hx
  exact ⟨_, find_of_exists hex⟩

/-- What a prepare phase has to do with the tree. -/
structure Answers (T : RefTree) (c : TreeCmd) (p : Prepared TreeHT TreeMsg) : Prop where
  replies : p.replies = [.ok] ↔ T.Accepts c
  msg : p.msg.isSome ↔ T.Accepts c
  /-- The table stays. -/
  present : p.state.present

theorem Answers.refused (hp : ht.present) (hc : ¬ T.Accepts c) (reply : Reply)
    (hr : reply ≠ .ok) : Answers T c ⟨ht, [reply], none⟩ :=
  ⟨by simp [hc, hr], by simp [hc], hp⟩

theorem Answers.accepted (hp : ht.present) (hc : T.Accepts c) (m : TreeMsg) :
    Answers T c ⟨ht, [.ok], some m⟩ := ⟨by simp [hc], by simp [hc], hp⟩

open scoped Classical in
theorem Mirrors.prepare_insert {name parent uid : Sds} (h : Mirrors srv T U (ht.node srv))
    (hp : ht.present) (hnp : NulFree parent) (hnu : NulFree uid) :
    ∃ n p, (∀ m ≥ n, insertPrepare srv m name parent uid ht = some p) ∧
      Answers T (.insert name parent uid) p := by
  obtain ⟨n₁, h₁⟩ := h.exists_istreeMember hnp
  obtain ⟨n₂, h₂⟩ := h.exists_istreeMember hnu
  by_cases hpar : T.Present parent
  · obtain ⟨tnp, htnp⟩ := h.find hpar
    by_cases huid : T.Present uid
    · have hacc : ¬ T.Accepts (.insert name parent uid) := fun hacc => hacc.2 huid
      refine ⟨max n₁ n₂, _, fun m hm => ?_, .refused hp hacc .eleExist (by decide)⟩
      rw [ge_iff_le, max_le_iff] at hm
      simp [insertPrepare, hp, h₁ m hm.1, h₂ m hm.2, hpar, huid, htnp]
    · have hacc : T.Accepts (.insert name parent uid) := ⟨hpar, huid⟩
      have hcreate : (ht.create srv (sdsnew uid)).present := rfl
      refine ⟨max n₁ n₂, _, fun m hm => ?_, .accepted hcreate hacc
        (.insert name parent uid tnp.header.current (ht.node srv (sdsnew uid)).header.current)⟩
      rw [ge_iff_le, max_le_iff] at hm
      simp [insertPrepare, hp, h₁ m hm.1, h₂ m hm.2, hpar, huid, htnp]
  · have hacc : ¬ T.Accepts (.insert name parent uid) := fun hacc => hpar hacc.1
    refine ⟨n₁, _, fun m hm => ?_, .refused hp hacc .eleNexist (by decide)⟩
    simp [insertPrepare, hp, h₁ m hm, hpar]

open scoped Classical in
theorem Mirrors.prepare_delete {uid : Sds} (h : Mirrors srv T U (ht.node srv)) (hp : ht.present)
    (hn : NulFree uid) :
    ∃ n p, (∀ m ≥ n, deletePrepare m uid ht = some p) ∧ Answers T (.delete uid) p := by
  obtain ⟨n, h₁⟩ := h.exists_istreeMember hn
  by_cases huid : T.Present uid
  · obtain ⟨tn, htn⟩ := h.find huid
    have hacc : T.Accepts (.delete uid) := huid
    refine ⟨n, _, fun m hm => ?_, .accepted hp hacc (.delete uid (nowVC tn.header.current))⟩
    simp [deletePrepare, hp, h₁ m hm, huid, htn]
  · have hacc : ¬ T.Accepts (.delete uid) := huid
    refine ⟨n, _, fun m hm => ?_, .refused hp hacc .eleNexist (by decide)⟩
    simp [deletePrepare, hp, h₁ m hm, huid]

open scoped Classical in
theorem Mirrors.prepare_changeValue {uid name : Sds} (h : Mirrors srv T U (ht.node srv))
    (hp : ht.present) (hn : NulFree uid) :
    ∃ n p, (∀ m ≥ n, changeValuePrepare m uid name ht = some p) ∧
      Answers T (.changeValue uid name) p := by
  obtain ⟨n, h₁⟩ := h.exists_istreeMember hn
  by_cases huid : T.Present uid
  · obtain ⟨tn, htn⟩ := h.find huid
    have hacc : T.Accepts (.changeValue uid name) := huid
    refine ⟨n, _, fun m hm => ?_, .accepted hp hacc
      (.changeValue uid name (nowVC tn.vectorClock) tn.header.current)⟩
    simp [changeValuePrepare, hp, h₁ m hm, huid, htn]
  · have hacc : ¬ T.Accepts (.changeValue uid name) := huid
    refine ⟨n, _, fun m hm => ?_, .refused hp hacc .eleNexist (by decide)⟩
    simp [changeValuePrepare, hp, h₁ m hm, huid]

open scoped Classical in
theorem Mirrors.prepare_move {dst src : Sds} (h : Mirrors srv T U (ht.node srv)) (hp : ht.present)
    (hnd : NulFree dst) (hns : NulFree src) :
    ∃ n p, (∀ m ≥ n, movePrepare srv m dst src ht = some p) ∧ Answers T (.move dst src) p := by
  obtain ⟨n₁, h₁⟩ := h.exists_istreeMember hnd
  obtain ⟨n₂, h₂⟩ := h.exists_istreeMember hns
  by_cases hdst : T.Present dst
  · by_cases hsrc : T.Present src
    · obtain ⟨tnd, htnd⟩ := h.find hdst
      obtain ⟨tns, htns⟩ := h.find hsrc
      obtain ⟨n₃, o, ho, hmem⟩ := h.exists_subTree hsrc
      have hfuel : ∀ m ≥ max n₁ (max n₂ n₃), n₁ ≤ m ∧ n₂ ≤ m ∧ n₃ ≤ m := by
        intro m hm
        rwa [ge_iff_le, max_le_iff, max_le_iff] at hm
      by_cases hsub : T.InSubtree src dst
      · have hacc : ¬ T.Accepts (.move dst src) := fun hacc => hacc.2.2 hsub
        refine ⟨max n₁ (max n₂ n₃), _, fun m hm => ?_, .refused hp hacc .err (by decide)⟩
        obtain ⟨hm₁, hm₂, hm₃⟩ := hfuel m hm
        simp [movePrepare, hp, h₁ m hm₁, h₂ m hm₂, ho m hm₃, hdst, hsrc, hmem, hsub]
      · have hacc : T.Accepts (.move dst src) := ⟨hdst, hsrc, hsub⟩
        refine ⟨max n₁ (max n₂ n₃), _, fun m hm => ?_, .accepted hp hacc
          (.move dst src (nowVC tns.moveVC) tnd.header.current tns.header.current)⟩
        obtain ⟨hm₁, hm₂, hm₃⟩ := hfuel m hm
        have hmem' : dst ∉ o := fun hd => hsub ((hmem dst).mp hd)
        simp [movePrepare, hp, h₁ m hm₁, h₂ m hm₂, ho m hm₃, hdst, hsrc, hmem', htnd, htns]
    · have hacc : ¬ T.Accepts (.move dst src) := fun hacc => hsrc hacc.2.1
      refine ⟨max n₁ n₂, _, fun m hm => ?_, .refused hp hacc .eleNexist (by decide)⟩
      rw [ge_iff_le, max_le_iff] at hm
      simp [movePrepare, hp, h₁ m hm.1, h₂ m hm.2, hdst, hsrc]
  · have hacc : ¬ T.Accepts (.move dst src) := fun hacc => hdst hacc.1
    refine ⟨n₁, _, fun m hm => ?_, .refused hp hacc .eleNexist (by decide)⟩
    simp [movePrepare, hp, h₁ m hm, hdst]

/-- **Every command is answered as the tree takes it**, given time. -/
theorem Mirrors.prepare (h : Mirrors srv T U (ht.node srv)) (hp : ht.present)
    (hc : Proper T U c) :
    ∃ n p, (∀ m ≥ n, treePrepare srv ⟨m, c⟩ ht = some p) ∧ Answers T c p := by
  cases c with
  | create =>
    have hacc : ¬ T.Accepts .create := fun hacc => hacc
    refine ⟨0, _, fun m _ => ?_, .refused hp hacc .eleExist (by decide)⟩
    simp [treePrepare, createPrepare, hp]
  | insert => exact h.prepare_insert hp hc.1 hc.2.1
  | delete => exact h.prepare_delete hp hc.1
  | changeValue => exact h.prepare_changeValue hp hc
  | move => exact h.prepare_move hp hc.1 hc.2

theorem Mirrors.effect_insert {parent uid : Sds} (name : Sds) (h : Mirrors srv T U (ht.node srv))
    (hshape : RtnShape srv (ht.node srv uid)) (hid : 0 ≤ srv.p2pId) (hp : T.Present parent)
    (hn : NulFree uid) (hU : uid ∉ U) :
    ∃ ht', insertEffect srv name parent uid (ht.node srv (sdsnew parent)).header.current
        (ht.node srv (sdsnew uid)).header.current ht = some ht' ∧
      Mirrors srv (T.taken (.insert name parent uid)) (Insert.insert uid U) (ht'.node srv) := by
  obtain ⟨ht', heff, hex, hnode⟩ :=
    h.tidy.node_insert name hshape hid (h.member_iff.mpr hp) hn
  refine ⟨ht', heff, h.insert hp hn hU hex ?_ ?_ ?_ ?_⟩
  · rw [hnode]
    simp [h.fresh hU, checkInitVC, rtnNew]
  · intro j hj
    rw [hnode]
    simp [hj]
  · intro j
    rw [hnode]
  · intro j hj hjp
    rw [hnode]
    simp [hj, hjp]

theorem Mirrors.effect_delete {uid : Sds} (h : Mirrors srv T U (ht.node srv))
    (hshape : RtnShape srv (ht.node srv uid)) (hlt : srv.p2pId.toNat < srv.p2pCount)
    (hx : T.Present uid) (hroot : uid ≠ rootId) :
    ∃ ht', deleteEffect srv uid (nowVC (ht.node srv (sdsnew uid)).header.current) ht = some ht' ∧
      Mirrors srv (T.taken (.delete uid)) U (ht'.node srv) := by
  obtain ⟨ht', p, heff, hpar, hnode⟩ := h.tidy.node_delete hshape hlt (h.member_iff.mpr hx) hroot
  refine ⟨ht', heff, h.delete hx hroot hpar ?_ ?_ ?_ ?_ ?_⟩
  · rw [hnode]
    simp [rehRmvFunc, Reh.Exists]
  · intro j hj
    rw [hnode]
    simp [hj]
  · intro j
    rw [hnode]
    exact ⟨rfl, rfl⟩
  · intro j
    rw [hnode]
  · intro j hj hjp
    rw [hnode]
    simp [hj, hjp]

theorem writesName_self {n : Rtn} (hn : RtnShape srv n) (hid : 0 ≤ srv.p2pId)
    (hlt : srv.p2pId.toNat < srv.p2pCount) :
    WritesName n (nowVC n.vectorClock) n.header.current := by
  obtain ⟨hsize, hkeep⟩ := hn.vectorClock
  refine ⟨(updateCheck_iff rfl).mpr rfl, .inr (causallyReady_nowVC ?_ ?_)⟩
  · rwa [hkeep]
  · rwa [hkeep, hsize]

theorem Mirrors.effect_changeValue {uid : Sds} (name : Sds) (h : Mirrors srv T U (ht.node srv))
    (hshape : RtnShape srv (ht.node srv uid)) (hid : 0 ≤ srv.p2pId)
    (hlt : srv.p2pId.toNat < srv.p2pCount) (hx : T.Present uid) :
    ∃ ht', changeValueEffect srv uid name (nowVC (ht.node srv (sdsnew uid)).vectorClock)
        (ht.node srv (sdsnew uid)).header.current ht = some ht' ∧
      Mirrors srv (T.taken (.changeValue uid name)) U (ht'.node srv) := by
  obtain ⟨ht', heff, hnode⟩ : ∃ ht', changeValueEffect srv uid name
      (nowVC (ht.node srv (sdsnew uid)).vectorClock) _ ht = some ht' ∧ _ :=
    changeValueEffect_of_calm (not_removeCheck_current (ht.node srv (sdsnew uid)).header)
  refine ⟨ht', heff, ?_⟩
  rw [sdsnew_of_nulFree (h.nulFree hx)] at hnode
  have hwrites := writesName_self hshape hid hlt
  have hname : ∀ j, (ht'.node srv j).name =
      if j = uid then some name else (ht.node srv j).name := by
    intro j
    rw [hnode]
    by_cases hj : j = uid
    · subst hj
      simp [hwrites]
    · simp [hj]
  refine h.congr ?_ ?_ ?_ ?_ ?_ ?_ ?_
  · intro y
    by_cases hy : y = uid
    · subst hy
      simp [RefTree.taken, RefTree.Present]
    · simp [RefTree.taken, RefTree.Present, hy]
  · intro y n hn
    rw [hname]
    by_cases hy : y = uid
    · subst hy
      simp only [RefTree.taken, Function.update_self, Option.map_eq_some_iff] at hn
      obtain ⟨n', hn', rfl⟩ := hn
      exact ⟨(h.here hn').1, if_pos rfl⟩
    · rw [RefTree.taken, Function.update_of_ne hy] at hn
      rw [if_neg hy]
      exact h.here hn
  · exact fun j => by rw [hnode]
  · exact fun j => by rw [hnode]
  · exact fun j => by rw [hnode]
  · exact fun j => by rw [hnode]
  · intro j hj
    have hne : j ≠ uid := fun heq => hj (heq ▸ h.seen hx)
    rw [hnode]
    simp [hne]

theorem Mirrors.effect_move {dst src : Sds} (h : Mirrors srv T U (ht.node srv))
    (hshape : RtnShape srv (ht.node srv src)) (hid : 0 ≤ srv.p2pId)
    (hlt : srv.p2pId.toNat < srv.p2pCount) (hd : T.Present dst) (hs : T.Present src)
    (hno : ¬ T.InSubtree src dst) :
    ∃ ht', moveEffect srv dst src (nowVC (ht.node srv (sdsnew src)).moveVC)
        (ht.node srv (sdsnew dst)).header.current (ht.node srv (sdsnew src)).header.current ht =
          some ht' ∧
      Mirrors srv (T.taken (.move dst src)) U (ht'.node srv) := by
  have hroot : src ≠ rootId := fun hr => hno (hr ▸ h.inSubtree_root hd)
  obtain ⟨ht', p, heff, hhangs, -, hnode⟩ := h.tidy.node_move hshape hid hlt
    (h.member_iff.mpr hd) (h.member_iff.mpr hs) hroot
  refine ⟨ht', heff, h.move hd hs hno hhangs.2.2 ?_ ?_ ?_ ?_ ?_⟩
  · rw [hnode]
    exact if_pos rfl
  · intro j hj
    rw [hnode]
    exact if_neg hj
  · intro j
    rw [hnode]
    exact ⟨rfl, rfl, rfl⟩
  · intro j
    rw [hnode]
  · intro j hj hjp hjd
    rw [hnode]
    simp [hj, hjp, hjd]

/-- **The effect of a command that is taken.** -/
theorem Mirrors.effect {fuel : ℕ} {m : TreeMsg} {ht₀ : TreeHT} (h : Mirrors srv T U (ht.node srv))
    (hshape : ∀ j, RtnShape srv (ht.node srv j)) (hid : 0 ≤ srv.p2pId)
    (hlt : srv.p2pId.toNat < srv.p2pCount) (hc : Proper T U c) (hacc : T.Accepts c)
    (hm : Accepts srv ht fuel c m) (hnode : ht₀.node srv = ht.node srv) :
    ∃ ht', treeEffect srv ht₀ m = some ht' ∧
      Mirrors srv (T.taken c) (U ∪ {x | (T.taken c).Present x}) (ht'.node srv) := by
  rw [← hnode] at h hshape
  suffices heff : ∃ ht' V, treeEffect srv ht₀ m = some ht' ∧
      Mirrors srv (T.taken c) V (ht'.node srv) ∧ V ⊆ U ∪ {x | (T.taken c).Present x} by
    obtain ⟨ht', V, heff, hmir, hV⟩ := heff
    exact ⟨ht', heff, hmir.mono hV⟩
  cases hm with
  | create => exact hacc.elim
  | @insert name parent uid =>
    rw [← hnode]
    obtain ⟨ht', heff, hmir⟩ := h.effect_insert name (hshape uid) hid hacc.1 hc.2.1
      fun hU => hacc.2 (hc.2.2 hU)
    refine ⟨ht', _, heff, hmir, Set.insert_subset (.inr (.inr ⟨⟨name, parent⟩, ?_⟩))
      Set.subset_union_left⟩
    exact Function.update_self ..
  | @delete uid =>
    rw [← hnode]
    obtain ⟨ht', heff, hmir⟩ := h.effect_delete (hshape uid) hlt hacc hc.2
    exact ⟨ht', U, heff, hmir, Set.subset_union_left⟩
  | @changeValue uid name =>
    rw [← hnode]
    obtain ⟨ht', heff, hmir⟩ := h.effect_changeValue name (hshape uid) hid hlt hacc
    exact ⟨ht', U, heff, hmir, Set.subset_union_left⟩
  | @move dst src =>
    rw [← hnode]
    obtain ⟨ht', heff, hmir⟩ := h.effect_move (hshape src) hid hlt hacc.1 hacc.2.1 hacc.2.2
    exact ⟨ht', U, heff, hmir, Set.subset_union_left⟩

theorem Mirrors.answers {fuel : ℕ} {p : Prepared TreeHT TreeMsg}
    (h : Mirrors srv T U (ht.node srv)) (hp : ht.present) (hc : Proper T U c)
    (hprep : treePrepare srv ⟨fuel, c⟩ ht = some p) : Answers T c p := by
  obtain ⟨n, p', hp', hans⟩ := h.prepare hp hc
  have heq := (treePrepare_mono hprep (le_max_left fuel n)).symm.trans (hp' _ (le_max_right fuel n))
  rwa [Option.some.inj heq]

/-! ### Runs -/

theorem present_tRemFunc {k : Sds} {t : VC} (hp : ht.present)
    (h : tRemFunc srv ht k t = some ht') : ht'.present := by
  rw [tRemFunc] at h
  split at h
  · obtain ⟨ht₁, -, rfl⟩ := Option.map_eq_some_iff.mp h
    rfl
  · exact Option.some.inj h ▸ hp

theorem present_treeEffect {m : TreeMsg} (h : treeEffect srv ht m = some ht') : ht'.present := by
  cases m with
  | create => exact Option.some.inj h ▸ rfl
  | insert =>
    obtain ⟨ht₁, h₁, h⟩ := Option.bind_eq_some_iff.mp h
    obtain ⟨ht₂, h₂, h⟩ := Option.bind_eq_some_iff.mp h
    cases h
    have hp := present_tRemFunc (present_tRemFunc rfl h₁) h₂
    rw [insertOwn]
    split
    · rfl
    · exact hp
  | delete => exact present_tRemFunc rfl h
  | changeValue =>
    obtain ⟨ht₁, -, h⟩ := Option.bind_eq_some_iff.mp h
    exact Option.some.inj h ▸ rfl
  | move =>
    obtain ⟨ht₁, -, h⟩ := Option.bind_eq_some_iff.mp h
    obtain ⟨ht₂, -, h⟩ := Option.bind_eq_some_iff.mp h
    obtain ⟨ht₃, -, h⟩ := Option.bind_eq_some_iff.mp h
    exact Option.some.inj h ▸ rfl

theorem mirrors_create (hid : 0 ≤ srv.p2pId) :
    Mirrors srv (refTree []) (Seen []) ((createEffect srv .empty).node srv) := by
  have hnew : ∀ j, TreeHT.empty.node srv j = rtnNew srv := TreeHT.node_empty srv
  obtain ⟨htidy, hhangs⟩ := Tidy.create hid hnew
  refine .of_tidy htidy (fun hn => ?_) (fun hc => absurd hc (hhangs _ _)) (fun {x} hx => ?_)
    (fun hn => ?_) fun hx => ⟨[], List.prefix_rfl, hx⟩
  · cases hn
  · exact (node_createEffect_of_ne fun hr => hx ⟨[], List.prefix_rfl, .inl hr⟩).trans (hnew x)
  · cases hn

end

section

variable {N : ℕ} {iter : Fin N → Iteration} {r : Fin N}

theorem rwTree_perform {c : TreeCall} {ht : TreeHT} {s : Option TreeHT}
    (h : (rwTree iter).perform r c (some ht) = some s) :
    ∃ p, treePrepare (.of iter r) c ht = some p ∧
      s = p.msg.elim (some p.state) (treeEffect (.of iter r) p.state) := by
  rw [OpBased.perform] at h
  cases hp : treePrepare (.of iter r) c ht with
  | none => simp [rwTree, hp] at h
  | some p =>
    refine ⟨p, rfl, ?_⟩
    cases hm : p.msg with
    | none => simpa [rwTree, hp, hm] using h.symm
    | some m => simpa [rwTree, hp, hm] using h.symm

/-- **A replica by itself mirrors the reference tree.** -/
theorem mirrors_of_alone {calls : List TreeCall} {s : Option TreeHT} {h : List TreeCmd}
    (hrun : Alone (rwTree iter) r calls s) (hcalls : calls.map TreeCall.cmd = .create :: h)
    (hh : AllProper h) : ∃ ht, s = some ht ∧ ht.present ∧
      Mirrors (.of iter r) (refTree h) (Seen h) (ht.node (.of iter r)) := by
  induction hrun generalizing h with
  | start => simp at hcalls
  | @step cs s s' c hrun hc ih =>
    cases cs with
    | nil =>
      -- the first command creates the tree
      obtain ⟨hcmd, rfl⟩ : c.cmd = .create ∧ h = [] := by simpa [eq_comm] using hcalls
      obtain rfl : s = some .empty := by
        generalize hnil : ([] : List TreeCall) = cs at hrun
        cases hrun with
        | start => rfl
        | step => simp at hnil
      obtain ⟨p, hp, rfl⟩ := rwTree_perform hc
      rw [treePrepare, hcmd] at hp
      cases hp
      exact ⟨_, rfl, rfl, mirrors_create (by simp [Server.of])⟩
    | cons c₀ cs =>
      obtain ⟨hc₀, hcs⟩ : c₀.cmd = .create ∧ cs.map TreeCall.cmd ++ [c.cmd] = h := by
        simpa using hcalls
      subst hcs
      obtain ⟨ht, rfl, hpres, hmir⟩ := ih (h := cs.map TreeCall.cmd) (by simp [hc₀]) hh.init
      obtain ⟨p, hp, rfl⟩ := rwTree_perform hc
      have hans := hmir.answers hpres hh.last hp
      have hspec := treePrepare_spec hp
      rw [seen_concat, refTree_concat, RefTree.perform]
      cases hm : p.msg with
      | none =>
        have hacc : ¬ (refTree (cs.map TreeCall.cmd)).Accepts c.cmd := by
          rw [← hans.msg, hm]
          simp
        rw [if_neg hacc]
        refine ⟨p.state, rfl, hans.present, ?_⟩
        rw [hspec.node]
        exact hmir.mono Set.subset_union_left
      | some m =>
        have hacc : (refTree (cs.map TreeCall.cmd)).Accepts c.cmd := by
          rw [← hans.msg, hm]
          rfl
        obtain ⟨g, hg, hs, -⟩ := hrun.exists_reachable (C := anyOrder) fun _ _ _ _ => trivial
        obtain ⟨ht', heff, hmir'⟩ := hmir.effect (treeShape_of_reachable hg r hs)
          (by simp [Server.of]) (by simp [Server.of]) hh.last hacc (hspec.msg m hm) hspec.node
        rw [if_pos hacc]
        exact ⟨ht', heff, present_treeEffect heff, hmir'⟩

/-- **The tree of a replica by itself is the reference tree.** After a create and any commands that
are asked for, the server is up and `RWFTREEMEMBERS` returns; apart from the root it lists the nodes
of the reference tree, with values up to their first NUL byte; and a further command is answered,
with `OK` exactly when the reference tree takes it. Clocks are unbounded here: in the code they are
exact below `INT_MAX` and for at most `100` replicas. -/
theorem rwTree_sequential {calls : List TreeCall} {s : Option TreeHT} {h : List TreeCmd}
    (hrun : Alone (rwTree iter) r calls s) (hcalls : calls.map TreeCall.cmd = .create :: h)
    (hh : AllProper h) : ∃ ht, s = some ht ∧
      (∃ n, ∀ m ≥ n, ∃ lines, treeMembers (.of iter r) ht m = some lines) ∧
      (∀ n lines, treeMembers (.of iter r) ht n = some lines → ∀ x v p, x ≠ rootId →
        (Lists lines x v p ↔ ∃ w, refTree h x = some ⟨w, p⟩ ∧ sdsnew w = v)) ∧
      ∀ c, AllProper (h ++ [c]) →
        (∃ n, ∀ m ≥ n, ∃ p, treePrepare (.of iter r) ⟨m, c⟩ ht = some p) ∧
        ∀ m p, treePrepare (.of iter r) ⟨m, c⟩ ht = some p →
          (p.replies = [.ok] ↔ (refTree h).Accepts c) := by
  obtain ⟨ht, rfl, hpres, hmir⟩ := mirrors_of_alone hrun hcalls hh
  refine ⟨ht, rfl, hmir.exists_treeMembers, fun n lines hl x v p hx => hmir.lists_iff hl hx, ?_⟩
  intro c hc
  obtain ⟨n, p, hp, -⟩ := hmir.prepare hpres hc.last
  exact ⟨⟨n, fun m hm => ⟨p, hp m hm⟩⟩, fun m p hp => (hmir.answers hpres hc.last hp).replies⟩

end

/-- A node with a child is deleted. The child stays behind and is out of the tree: it is not listed,
and deleting it is refused. -/
theorem rwTree_sequential_hidden :
    ∃ ht, Alone (rwTree (inOrder 1)) 0
        [⟨0, .create⟩, ⟨2, .insert [118] rootId [97]⟩, ⟨2, .insert [119] [97] [98]⟩,
          ⟨2, .delete [97]⟩] (some ht) ∧
      (ht.node (.of (inOrder 1) 0) [98]).header.Exists ∧
      (∃ n lines, treeMembers (.of (inOrder 1) 0) ht n = some lines ∧
        ∀ v p, ¬ Lists lines [98] v p) ∧
      ∃ n p, treePrepare (.of (inOrder 1) 0) ⟨n, .delete [98]⟩ ht = some p ∧
        p.replies ≠ [.ok] := by
  obtain ⟨s, hrun, hs⟩ := (rwTree (inOrder 1)).exists_alone 0
    (fun s => s.any (fun ht => (ht.node (.of (inOrder 1) 0) [98]).header.Exists))
    [⟨0, .create⟩, ⟨2, .insert [118] rootId [97]⟩, ⟨2, .insert [119] [97] [98]⟩,
      ⟨2, .delete [97]⟩] (by decide)
  set c₁ : TreeCmd := .insert [118] rootId [97]
  set c₂ : TreeCmd := .insert [119] [97] [98]
  have ha : ([97] : Sds) ≠ rootId := by decide
  have hb : ([98] : Sds) ≠ rootId := by decide
  -- the reference tree along the commands
  have hacc₁ : (refTree []).Accepts c₁ := ⟨.inl rfl, by simp [RefTree.Present, refTree, ha]⟩
  have hT₁ : refTree [c₁] = Function.update (fun _ => none) [97] (some ⟨[118], rootId⟩) :=
    refTree_concat_of_accepts hacc₁
  have hacc₂ : (refTree [c₁]).Accepts c₂ := by
    rw [hT₁]
    exact ⟨.inr ⟨_, Function.update_self ..⟩, by simp [RefTree.Present, hb]⟩
  have hT₂ : refTree [c₁, c₂] = Function.update (refTree [c₁]) [98] (some ⟨[119], [97]⟩) :=
    refTree_concat_of_accepts hacc₂
  have hacc₃ : (refTree [c₁, c₂]).Accepts (.delete [97]) :=
    .inr ⟨⟨[118], rootId⟩, by rw [hT₂, hT₁]; simp⟩
  have hT₃ : refTree [c₁, c₂, .delete [97]] = (refTree [c₁, c₂]).taken (.delete [97]) :=
    refTree_concat_of_accepts hacc₃
  have hgone : ¬ (refTree [c₁, c₂, .delete [97]]).Present [98] := by
    have hchild : (refTree [c₁, c₂]).Child [97] [98] :=
      ⟨⟨[119], [97]⟩, by rw [hT₂, Function.update_self], rfl⟩
    simp [RefTree.Present, hb, hT₃, RefTree.taken, RefTree.InSubtree, ReflTransGen.single hchild]
  have hproper₁ : Proper (refTree []) (Seen []) c₁ :=
    ⟨by decide, by decide, by simp [seen_nil, ha]⟩
  have hproper₂ : Proper (refTree [c₁]) (Seen [c₁]) c₂ := by
    have hseen : Seen [c₁] = _ := seen_concat [] c₁
    refine ⟨by decide, by decide, ?_⟩
    simp [hseen, seen_nil, hb]
  have hproper : AllProper [c₁, c₂, .delete [97]] :=
    ((allProper_nil.concat hproper₁).concat hproper₂).concat (c := .delete [97]) ⟨by decide, ha⟩
  obtain ⟨ht, rfl, ⟨n, hmem⟩, hlists, hnext⟩ := rwTree_sequential hrun rfl hproper
  refine ⟨ht, hrun, by simpa using hs, ?_, ?_⟩
  · obtain ⟨lines, hl⟩ := hmem n le_rfl
    refine ⟨n, lines, hl, fun v p hv => ?_⟩
    obtain ⟨w, hw, -⟩ := (hlists n lines hl [98] v p hb).mp hv
    exact hgone (.inr ⟨_, hw⟩)
  · obtain ⟨⟨m, hm⟩, hok⟩ := hnext (.delete [98]) (hproper.concat ⟨by decide, hb⟩)
    obtain ⟨p, hp⟩ := hm m le_rfl
    exact ⟨m, p, hp, fun h => hgone ((hok m p hp).mp h)⟩

/-- A value with a NUL byte is not listed as it was inserted. -/
theorem rwTree_value_cut :
    ∃ ht lines, Alone (rwTree (inOrder 1)) 0
        [⟨0, .create⟩, ⟨2, .insert [97, 0, 98] rootId [120]⟩] (some ht) ∧
      AllProper [.insert [97, 0, 98] rootId [120]] ∧
      treeMembers (.of (inOrder 1) 0) ht 2 = some lines ∧
      Lists lines [120] [97] rootId ∧
      ∀ p, refTree [.insert [97, 0, 98] rootId [120]] [120] ≠ some ⟨[97], p⟩ := by
  obtain ⟨s, hrun, hs⟩ := (rwTree (inOrder 1)).exists_alone 0
    (fun s => ∃ ht ∈ s, ∃ ls ∈ treeMembers (.of (inOrder 1) 0) ht 2,
      ∃ l ∈ ls, l.uid = [120] ∧ l.name = [97] ∧ l.parent = rootId)
    [⟨0, .create⟩, ⟨2, .insert [97, 0, 98] rootId [120]⟩] (by decide)
  obtain ⟨ht, rfl, lines, hl, hline⟩ := hs
  set c : TreeCmd := .insert [97, 0, 98] rootId [120]
  have hx : ([120] : Sds) ≠ rootId := by decide
  have hacc : (refTree []).Accepts c := ⟨.inl rfl, by simp [RefTree.Present, refTree, hx]⟩
  have hT : refTree [c] = Function.update (fun _ => none) [120] (some ⟨[97, 0, 98], rootId⟩) :=
    refTree_concat_of_accepts hacc
  have hproper : Proper (refTree []) (Seen []) c :=
    ⟨by decide, by decide, by simp [seen_nil, hx]⟩
  exact ⟨ht, lines, hrun, allProper_nil.concat hproper, hl, hline, by simp [hT]⟩

end RemoveWin
