import RemoveWin.Lib.Trace
import RemoveWin.Tree.Placeholders
import RemoveWin.Tree.Sequential

/-!
# Commands at a replica that hears of nobody

What each accepted command does to parents and children at its own replica, and what follows for
whole runs of one replica. Deleting a node hides what hangs below it, and ids may be inserted again.
Two conditions on inserts are looked at.

If no id is inserted that is still there out of sight, children sets and parent fields always agree,
also out of sight, and so do the two ways of asking what is in the tree. A node that was deleted may
come back, with all that still hangs below it.

If no id is inserted that still lists children, what a delete has hidden stays hidden until it is
inserted itself.

## Main results

* `RemoveWin.Tidy.changed` — the effect of an accepted command
* `RemoveWin.tree_memberships_agree` — the two ways of asking agree
* `RemoveWin.tree_hidden_until_insert` — what is hidden stays hidden
-/

namespace RemoveWin

open Replicated Walk Relation Trace

/-! ### Effects at the origin -/

section

variable {srv : Server} {K K' : Set Sds} {F F' : Forest} {ht ht₀ : TreeHT} {fuel : ℕ}
  {cmd : TreeCmd} {m : TreeMsg}

/-- The node is there as before, with its id and its parent. -/
def SameLink (n n' : Rtn) : Prop :=
  (n'.header.Exists ↔ n.header.Exists) ∧ n'.uid = n.uid ∧ n'.parent = n.parent

/-- What an accepted command does to parents and children. -/
def Changed (F F' : Forest) : TreeCmd → Prop
  | .create => True
  | .insert _ p x =>
    ((F' x).header.Exists ∧ (F' x).uid = some x ∧ (F' x).parent = some p) ∧
      (∀ j, j ≠ x → SameLink (F j) (F' j)) ∧
      ∀ q c, c ∈ (F' q).children ↔ c ∈ (F q).children ∨ (q = p ∧ c = x)
  | .delete x =>
    ¬ (F' x).header.Exists ∧ (∀ j, j ≠ x → SameLink (F j) (F' j)) ∧
      ∃ p, (F x).parent = some p ∧
        ∀ q c, c ∈ (F' q).children ↔ c ∈ (F q).children ∧ (q = p → c ≠ x)
  | .changeValue _ _ => ∀ j, SameLink (F j) (F' j) ∧ (F' j).children = (F j).children
  | .move d x =>
    ((F' x).header.Exists ∧ (F' x).uid = some x ∧ (F' x).parent = some d) ∧
      (∀ j, j ≠ x → SameLink (F j) (F' j)) ∧
      ∃ p, (F x).parent = some p ∧
        ∀ q c, c ∈ (F' q).children ↔ (q = d ∧ c = x) ∨ (c ∈ (F q).children ∧ (q = p → c ≠ x))

theorem Tidy.changed_insert {name parent uid : Sds} (h : Tidy K (ht.node srv))
    (hshape : RtnShape srv (ht.node srv uid)) (hid : 0 ≤ srv.p2pId)
    (hp : Member (ht.node srv) parent) (hn : NulFree uid) :
    ∃ ht', insertEffect srv name parent uid (ht.node srv (sdsnew parent)).header.current
        (ht.node srv (sdsnew uid)).header.current ht = some ht' ∧
      Changed (ht.node srv) (ht'.node srv) (.insert name parent uid) := by
  obtain ⟨ht', heff, hex, hnode⟩ := h.node_insert name hshape hid hp hn
  refine ⟨ht', heff, ⟨hex, ?_, ?_⟩, ?_, ?_⟩
  · rw [hnode]
    exact if_pos rfl
  · rw [hnode]
    exact if_pos rfl
  · intro j hj
    rw [hnode]
    simp [SameLink, hj]
  · intro q c
    rw [hnode]
    by_cases hq : q = parent
    · simp [hq, or_comm]
    · simp [hq]

theorem Tidy.changed_delete {uid : Sds} (h : Tidy K (ht.node srv))
    (hshape : RtnShape srv (ht.node srv uid)) (hlt : srv.p2pId.toNat < srv.p2pCount)
    (hx : Member (ht.node srv) uid) (hroot : uid ≠ rootId) :
    ∃ ht', deleteEffect srv uid (nowVC (ht.node srv (sdsnew uid)).header.current) ht = some ht' ∧
      Changed (ht.node srv) (ht'.node srv) (.delete uid) := by
  obtain ⟨ht', p, heff, hpar, hnode⟩ := h.node_delete hshape hlt hx hroot
  refine ⟨ht', heff, ?_, ?_, p, hpar, ?_⟩
  · rw [hnode]
    simp [rehRmvFunc, Reh.Exists]
  · intro j hj
    rw [hnode]
    simp [SameLink, hj]
  · intro q c
    rw [hnode]
    by_cases hq : q = p
    · simp [hq, and_comm]
    · simp [hq]

theorem changed_changeValue {uid name : Sds} :
    ∃ ht', changeValueEffect srv uid name (nowVC (ht.node srv (sdsnew uid)).vectorClock)
        (ht.node srv (sdsnew uid)).header.current ht = some ht' ∧
      Changed (ht.node srv) (ht'.node srv) (.changeValue uid name) := by
  obtain ⟨ht', heff, hnode⟩ : ∃ ht', changeValueEffect srv uid name
      (nowVC (ht.node srv (sdsnew uid)).vectorClock) _ ht = some ht' ∧ _ :=
    changeValueEffect_of_calm (not_removeCheck_current (ht.node srv (sdsnew uid)).header)
  refine ⟨ht', heff, fun j => ?_⟩
  rw [hnode]
  exact ⟨⟨.rfl, rfl, rfl⟩, rfl⟩

theorem Tidy.changed_move {dst src : Sds} (h : Tidy K (ht.node srv))
    (hshape : RtnShape srv (ht.node srv src)) (hid : 0 ≤ srv.p2pId)
    (hlt : srv.p2pId.toNat < srv.p2pCount) (hd : Member (ht.node srv) dst)
    (hs : Member (ht.node srv) src) (hroot : src ≠ rootId) :
    ∃ ht', moveEffect srv dst src (nowVC (ht.node srv (sdsnew src)).moveVC)
        (ht.node srv (sdsnew dst)).header.current (ht.node srv (sdsnew src)).header.current ht =
          some ht' ∧
      Changed (ht.node srv) (ht'.node srv) (.move dst src) := by
  obtain ⟨ht', p, heff, ⟨hex, -, hpar⟩, huid, hnode⟩ := h.node_move hshape hid hlt hd hs hroot
  refine ⟨ht', heff, ⟨?_, ?_, ?_⟩, ?_, p, hpar, ?_⟩
  · rw [hnode]
    exact hex
  · rw [hnode]
    exact huid
  · rw [hnode]
    exact if_pos rfl
  · intro j hj
    rw [hnode]
    simp [SameLink, hj]
  · intro q c
    exact TreeLinks.mem_relink (by rw [hnode]) c

theorem present_treePrepare {c : TreeCall} {p : Prepared TreeHT TreeMsg}
    (h : treePrepare srv c ht = some p) (hpres : ht.present) : p.state.present := by
  have hsame : ∀ {replies o}, some (⟨ht, replies, o⟩ : Prepared TreeHT TreeMsg) = some p →
      p.state.present := fun h => Option.some.inj h ▸ hpres
  obtain ⟨fuel, cmd⟩ := c
  cases cmd with
  | create =>
    simp only [treePrepare, createPrepare] at h
    split at h <;> exact hsame h
  | insert name parent uid =>
    simp only [treePrepare, insertPrepare, hpres, not_true_eq_false, if_false] at h
    obtain ⟨b, -, h⟩ := Option.bind_eq_some_iff.mp h
    split at h
    · exact hsame h
    · obtain ⟨tnp, -, h⟩ := Option.bind_eq_some_iff.mp h
      obtain ⟨b', -, h⟩ := Option.bind_eq_some_iff.mp h
      split at h
      · exact hsame h
      · exact Option.some.inj h ▸ rfl
  | delete uid =>
    simp only [treePrepare, deletePrepare, hpres, not_true_eq_false, if_false] at h
    obtain ⟨b, -, h⟩ := Option.bind_eq_some_iff.mp h
    split at h
    · exact hsame h
    · obtain ⟨tn, -, h⟩ := Option.bind_eq_some_iff.mp h
      exact hsame h
  | changeValue uid name =>
    simp only [treePrepare, changeValuePrepare, hpres, not_true_eq_false, if_false] at h
    obtain ⟨b, -, h⟩ := Option.bind_eq_some_iff.mp h
    split at h
    · exact hsame h
    · obtain ⟨tn, -, h⟩ := Option.bind_eq_some_iff.mp h
      exact hsame h
  | move dst src =>
    simp only [treePrepare, movePrepare, hpres, not_true_eq_false, if_false] at h
    obtain ⟨b, -, h⟩ := Option.bind_eq_some_iff.mp h
    split at h
    · exact hsame h
    · obtain ⟨b', -, h⟩ := Option.bind_eq_some_iff.mp h
      split at h
      · exact hsame h
      · obtain ⟨o, -, h⟩ := Option.bind_eq_some_iff.mp h
        split at h
        · exact hsame h
        · obtain ⟨tnDst, -, h⟩ := Option.bind_eq_some_iff.mp h
          obtain ⟨tnSrc, -, h⟩ := Option.bind_eq_some_iff.mp h
          exact hsame h

/-- Ids have no NUL bytes, and the root is not deleted. -/
def TreeCmd.Named : TreeCmd → Prop
  | .create | .changeValue _ _ => True
  | .insert _ parent uid => NulFree parent ∧ NulFree uid
  | .delete uid => NulFree uid ∧ uid ≠ rootId
  | .move dst src => NulFree dst ∧ NulFree src

instance : (cmd : TreeCmd) → Decidable cmd.Named
  | .create | .changeValue _ _ => .isTrue trivial
  | .insert _ parent uid => inferInstanceAs (Decidable (NulFree parent ∧ NulFree uid))
  | .delete uid => inferInstanceAs (Decidable (NulFree uid ∧ uid ≠ rootId))
  | .move dst src => inferInstanceAs (Decidable (NulFree dst ∧ NulFree src))

/-- What the tree has to do with an accepted command. -/
def Admits (F : Forest) : TreeCmd → Prop
  | .create => False
  | .insert _ parent uid => Member F parent ∧ ¬ Member F uid
  | .delete uid => Member F uid
  | .changeValue _ _ => True
  | .move dst src => Member F dst ∧ Member F src ∧ ¬ ReflTransGen (HangsUnder F) src dst

theorem Tidy.admits {p : Prepared TreeHT TreeMsg} (h : Tidy K (ht.node srv)) (hpres : ht.present)
    (hprep : treePrepare srv ⟨fuel, cmd⟩ ht = some p) (hm : p.msg = some m) (hc : cmd.Named) :
    Admits (ht.node srv) cmd := by
  have hmember : ∀ {x}, NulFree x → istreeMember ht fuel x = some true → Member (ht.node srv) x :=
    fun hx hb => (h.member_iff hx hb).mp rfl
  have hacc := (treePrepare_spec hprep).msg m hm
  cases hacc with
  | create =>
    simp only [treePrepare, createPrepare, hpres, if_true] at hprep
    cases hprep
    cases hm
  | insert hp hu =>
    refine ⟨hmember hc.1 hp, fun hx => ?_⟩
    exact Bool.false_ne_true ((h.member_iff hc.2 hu).mpr hx)
  | delete hu => exact hmember hc.1 hu
  | changeValue hu => trivial
  | move hd hs _ hst hno =>
    have hsrc := hmember hc.2 hs
    exact ⟨hmember hc.1 hd, hsrc, fun hpath => hno ((h.mem_subTree_iff hsrc hst).mpr hpath)⟩

/-- **The effect of an accepted command** at the replica that accepted it. -/
theorem Tidy.changed (h : Tidy K (ht.node srv)) (hshape : ∀ j, RtnShape srv (ht.node srv j))
    (hid : 0 ≤ srv.p2pId) (hlt : srv.p2pId.toNat < srv.p2pCount) (hc : cmd.Named)
    (hadm : Admits (ht.node srv) cmd) (hm : Accepts srv ht fuel cmd m)
    (hnode : ht₀.node srv = ht.node srv) :
    ∃ ht', treeEffect srv ht₀ m = some ht' ∧ Changed (ht.node srv) (ht'.node srv) cmd := by
  rw [← hnode] at h hshape hadm ⊢
  cases hm with
  | create => exact hadm.elim
  | insert =>
    rw [← hnode]
    exact h.changed_insert (hshape _) hid hadm.1 hc.2
  | delete =>
    rw [← hnode]
    exact h.changed_delete (hshape _) hlt hadm hc.2
  | changeValue =>
    rw [← hnode]
    exact changed_changeValue
  | @move dst src =>
    rw [← hnode]
    have hroot : src ≠ rootId := by
      rintro rfl
      exact hadm.2.2 hadm.1
    exact h.changed_move (hshape _) hid hlt hadm.1 hadm.2.1 hroot

/-! ### The two conditions -/

/-- No id is inserted that is still there out of sight. -/
def TreeCmd.Revisits (F : Forest) : TreeCmd → Prop
  | .insert _ _ uid => (F uid).header.Exists → Member F uid
  | _ => True

/-- No id is inserted that still lists children, unless it is in the tree and the insert is
refused. -/
def TreeCmd.Bare (F : Forest) : TreeCmd → Prop
  | .insert _ _ uid => Member F uid ∨ (F uid).children.elems = []
  | _ => True

/-- The id that is inserted is not there and lists nothing. -/
def TreeCmd.Fresh (F : Forest) : TreeCmd → Prop
  | .insert _ _ uid => ¬ (F uid).header.Exists ∧ (F uid).children.elems = []
  | _ => True

instance (F : Forest) : (cmd : TreeCmd) → Decidable (cmd.Fresh F)
  | .insert _ _ uid =>
    inferInstanceAs (Decidable (¬ (F uid).header.Exists ∧ (F uid).children.elems = []))
  | .create | .delete _ | .changeValue _ _ | .move _ _ => .isTrue trivial

theorem TreeCmd.Fresh.revisits (h : cmd.Fresh F) : cmd.Revisits F := by
  cases cmd with
  | insert => exact fun hex => absurd hex h.1
  | _ => trivial

theorem TreeCmd.Fresh.bare (h : cmd.Fresh F) : cmd.Bare F := by
  cases cmd with
  | insert => exact .inr h.2
  | _ => trivial

theorem Tidy.move {d x : Sds} (h : Tidy K F) (hadm : Admits F (.move d x))
    (hch : Changed F F' (.move d x)) :
    Tidy K F' ∧ ∀ y, Member F' y → Member F y := by
  obtain ⟨hd, hx, hno⟩ := hadm
  obtain ⟨hself, hkeep, p, hpar, hchildren⟩ := hch
  have hroot : x ≠ rootId := by
    rintro rfl
    exact hno hd
  have hmember : ∀ y, Member F' y → Member F y := by
    intro y hy
    have hhangs := hangsUnder_relink hroot hself.1 hself.2.2 fun j hj =>
      ⟨(hkeep j hj).1, (hkeep j hj).2.2⟩
    exact (member_relink (fun a b => (hhangs a b).mp) (.inl hx) hy).elim id fun heq => heq ▸ hx
  refine ⟨h.relink hd (h.nulFree hx) hroot hno hself hkeep ?_ ?_ ?_ ?_ ?_, hmember⟩
  · intro q c hc
    rw [hchildren]
    simp [hc]
  · exact (hchildren d x).mpr (.inl ⟨rfl, rfl⟩)
  · intro q hq hxq
    rcases (hchildren q x).mp hxq with ⟨rfl, -⟩ | ⟨hxq, hne⟩
    · rfl
    · exact absurd rfl (hne (Option.some.inj ((h.exact hq hxq).2.2.symm.trans hpar)))
  · exact fun q hq => .inl hq
  · exact fun y hy => h.members (hmember y hy)

theorem Tidy.delete {x : Sds} (h : Tidy K F) (hroot : x ≠ rootId)
    (hch : Changed F F' (.delete x)) :
    Tidy K F' ∧ ∀ a b, HangsUnder F' a b ↔ HangsUnder F a b ∧ b ≠ x := by
  obtain ⟨hgone, hkeep, p, hpar, hchildren⟩ := hch
  exact h.unlink hroot hpar hgone hkeep hchildren

/-- An insert of a node that was not in the tree, and that nothing which counts as tidy lists. -/
theorem Tidy.insert {K' : Set Sds} {name p x : Sds} (h : Tidy K F) (hn : NulFree x)
    (hp : Member F p) (hx : ¬ Member F x) (hch : Changed F F' (.insert name p x))
    (hold : ∀ q ∈ K', x ∉ (F q).children)
    (hK : ∀ q ∈ K', q ∈ K ∨ ∀ c ∈ (F q).children, HangsUnder F q c)
    (hmembers : ∀ y, Member F' y → y ∈ K') : Tidy K' F' := by
  obtain ⟨hself, hkeep, hchildren⟩ := hch
  have hroot : x ≠ rootId := by
    rintro rfl
    exact hx .refl
  refine h.relink hp hn hroot (fun hpath => hx (hp.of_below hpath)) hself hkeep ?_ ?_ ?_ hK hmembers
  · intro q c hcx
    rw [hchildren]
    simp [hcx]
  · exact (hchildren p x).mpr (.inr ⟨rfl, rfl⟩)
  · intro q hq hxq
    exact (((hchildren q x).mp hxq).resolve_left (hold q hq)).1

theorem Tidy.step_univ (h : Tidy Set.univ F) (hc : cmd.Named) (hadm : Admits F cmd)
    (hrev : cmd.Revisits F) (hch : Changed F F' cmd) : Tidy Set.univ F' := by
  cases cmd with
  | create => exact hadm.elim
  | insert name p x =>
    obtain ⟨hp, hx⟩ := hadm
    refine h.insert hc.2 hp hx hch (fun q _ hxq => ?_) (fun q hq => .inl hq) fun y _ => trivial
    exact hx (hrev (h.exact trivial hxq).1)
  | delete x => exact (h.delete hc.2 hch).1
  | changeValue x v =>
    exact (h.congr (fun j => (hch j).1.1) (fun j => (hch j).1.2.1) (fun j => (hch j).1.2.2)
      fun j => (hch j).2).1
  | move d x => exact (h.move hadm hch).1

/-- The tree stays tidy if nothing is inserted that lists children, and nothing comes to it but
what is inserted. -/
theorem Tidy.step_members (h : Tidy {x | Member F x} F) (hc : cmd.Named) (hadm : Admits F cmd)
    (hbare : cmd.Bare F) (hch : Changed F F' cmd) :
    Tidy {x | Member F' x} F' ∧
      ∀ y, Member F' y → Member F y ∨ ∃ v p, cmd = .insert v p y := by
  cases cmd with
  | create => exact hadm.elim
  | insert name p x =>
    obtain ⟨hp, hx⟩ := hadm
    obtain ⟨hself, hkeep, -⟩ := id hch
    have hroot : x ≠ rootId := by
      rintro rfl
      exact hx .refl
    have hempty : ∀ c, c ∉ (F x).children := by
      intro c hcx
      rw [← SetObj.mem_elems, hbare.resolve_left hx] at hcx
      cases hcx
    have hhangs := hangsUnder_relink hroot hself.1 hself.2.2 fun j hj =>
      ⟨(hkeep j hj).1, (hkeep j hj).2.2⟩
    have hmember : ∀ {y}, Member F' y → Member F y ∨ y = x := fun hy =>
      member_relink (fun a b => (hhangs a b).mp) (.inr fun c hcx => hempty c (h.listed hcx)) hy
    refine ⟨h.insert hc.2 hp hx hch (fun q hq hxq => ?_) (fun q hq => ?_) fun y hy => hy,
      fun y hy => (hmember hy).imp_right fun heq => ⟨name, p, by rw [heq]⟩⟩
    · rcases hmember hq with hq | rfl
      · exact hx (hq.tail (h.exact hq hxq))
      · exact hempty _ hxq
    · exact (hmember hq).imp_right fun heq c hcq => absurd (heq ▸ hcq) (hempty c)
  | delete x =>
    obtain ⟨htidy, hhangs⟩ := h.delete hc.2 hch
    exact ⟨htidy.restrict, fun y hy =>
      .inl (ReflTransGen.mono (fun a b hab => ((hhangs a b).mp hab).1) _ _ hy)⟩
  | changeValue x v =>
    obtain ⟨htidy, hmember⟩ := h.congr (fun j => (hch j).1.1) (fun j => (hch j).1.2.1)
      (fun j => (hch j).1.2.2) fun j => (hch j).2
    exact ⟨htidy.restrict, fun y hy => .inl ((hmember y).mp hy)⟩
  | move d x =>
    obtain ⟨htidy, hmember⟩ := h.move hadm hch
    exact ⟨htidy.restrict, fun y hy => .inl (hmember y hy)⟩

end

/-! ### Runs -/

section

variable {N : ℕ} (iter : Fin N → Iteration) (r : Fin N)

/-- A command at a replica by itself. -/
def treeStep (s : Option TreeHT) (c : TreeCall) : Option (Option TreeHT) :=
  (rwTree iter).perform r c s

/-- The table of a replica by itself: empty at first, and with property `Q` once there is a
tree. -/
structure SoloOk (Q : Forest → Prop) (ht : TreeHT) : Prop where
  /-- Clocks have the shape the server is configured for. -/
  shape : ∀ j, RtnShape (.of iter r) (ht.node (.of iter r) j)
  absent : ¬ ht.present → ∀ j, ht.node (.of iter r) j = rtnNew (.of iter r)
  /-- The property. -/
  tree : ht.present → Q (ht.node (.of iter r))

variable {iter r} {Q : Forest → Prop} {ht : TreeHT}

theorem soloOk_empty : SoloOk iter r Q .empty where
  shape _ := rtnShape_rtnNew _
  absent _ _ := rfl
  tree h := by cases h

theorem SoloOk.effect {Q' : Forest → Prop} {c : TreeCall} {p : Prepared TreeHT TreeMsg}
    {m : TreeMsg} {ht' : TreeHT} (hok : SoloOk iter r Q ht)
    (hp : treePrepare (.of iter r) c ht = some p)
    (heff : treeEffect (.of iter r) p.state m = some ht') (hQ : Q' (ht'.node (.of iter r))) :
    SoloOk iter r Q' ht' where
  shape j := by
    refine (treeEffect_frame heff j).shape ?_
    rw [(treePrepare_spec hp).node]
    exact hok.shape j
  absent hno := absurd (present_treeEffect heff) hno
  tree _ := hQ

/-- **An accepted command of a replica by itself**, on a tidy table. -/
theorem SoloOk.changed {K : Set Sds} {c : TreeCall} {p : Prepared TreeHT TreeMsg} {m : TreeMsg}
    (hok : SoloOk iter r Q ht) (hK : Tidy K (ht.node (.of iter r))) (hpres : ht.present)
    (hc : c.cmd.Named) (hp : treePrepare (.of iter r) c ht = some p) (hm : p.msg = some m) :
    Admits (ht.node (.of iter r)) c.cmd ∧ ∃ ht', treeEffect (.of iter r) p.state m = some ht' ∧
      Changed (ht.node (.of iter r)) (ht'.node (.of iter r)) c.cmd := by
  have hspec := treePrepare_spec hp
  have hadm := hK.admits hpres hp hm hc
  exact ⟨hadm, hK.changed hok.shape (by simp [Server.of]) (by simp [Server.of]) hc hadm
    (hspec.msg m hm) hspec.node⟩

/-- **A step of a replica by itself.** A property that makes the table tidy is kept if the create
makes it and every accepted command keeps it. -/
theorem SoloOk.step {c : TreeCall} {s : Option TreeHT} (hok : SoloOk iter r Q ht)
    (htidy : ∀ F, Q F → ∃ K, Tidy K F) (hc : c.cmd.Named)
    (hcreate : ∀ F, Tidy Set.univ F → (∀ a b, ¬ HangsUnder F a b) → Q F)
    (hnext : ∀ p m F', treePrepare (.of iter r) c ht = some p → p.msg = some m →
      Q (ht.node (.of iter r)) → Admits (ht.node (.of iter r)) c.cmd →
      Changed (ht.node (.of iter r)) F' c.cmd → Q F')
    (hs : treeStep iter r (some ht) c = some s) : ∃ ht', s = some ht' ∧ SoloOk iter r Q ht' := by
  obtain ⟨p, hp, rfl⟩ := rwTree_perform hs
  have hspec := treePrepare_spec hp
  have hpresent := treePrepare_present hp
  cases hm : p.msg with
  | none =>
    refine ⟨p.state, rfl, ⟨?_, ?_, ?_⟩⟩
    · rw [hspec.node]
      exact hok.shape
    · intro hno
      rw [hspec.node]
      exact hok.absent fun hpres => hno (present_treePrepare hp hpres)
    · intro hpres
      rw [hspec.node]
      exact hok.tree (hpresent.1 hpres)
  | some m =>
    suffices h : ∃ ht', treeEffect (.of iter r) p.state m = some ht' ∧ Q (ht'.node (.of iter r)) by
      obtain ⟨ht', heff, hQ⟩ := h
      exact ⟨ht', heff, hok.effect hp heff hQ⟩
    by_cases hpres : ht.present
    · have hQ := hok.tree hpres
      obtain ⟨K, hK⟩ := htidy _ hQ
      obtain ⟨hadm, ht', heff, hch⟩ := hok.changed hK hpres hc hp hm
      exact ⟨ht', heff, hnext p m _ hp hm hQ hadm hch⟩
    · -- only a create is accepted
      have hcr : m.isCreate = true := by
        by_contra hcr
        exact hpres (hpresent.2 m hm (by simpa using hcr))
      cases m with
      | create =>
        have hnew : ∀ j, p.state.node (.of iter r) j = rtnNew (.of iter r) := by
          rw [hspec.node]
          exact hok.absent hpres
        obtain ⟨h, hhangs⟩ := Tidy.create (by simp [Server.of]) hnew
        exact ⟨_, rfl, hcreate _ h hhangs⟩
      | _ => cases hcr

/-- **The two ways of asking what is in the tree agree**, for a replica by itself, if ids have no
NUL bytes, the root is not deleted, and no id is inserted that is still there out of sight. In every
state after the create, for every id without NUL bytes, both walks end, and `istreeMember` says
whether the id is in `subTree` of the root. Clocks are unbounded here: in the code they are exact
below `INT_MAX` and for at most `100` replicas. -/
theorem tree_memberships_agree {calls : List TreeCall}
    (h : Every (treeStep iter r) (some .empty) (fun s c => ∀ ht, s = some ht →
      c.cmd.Named ∧ c.cmd.Revisits (ht.node (.of iter r))) calls) :
    Throughout (treeStep iter r) (some .empty) (fun s => ∃ ht, s = some ht ∧
      (ht.present → ∀ id, NulFree id → ∃ n, ∀ m ≥ n, ∃ o,
        subTree (.of iter r) ht m rootId = some o ∧
          istreeMember ht m id = some (setTypeIsMember o id))) calls := by
  classical
  have hall : Throughout (treeStep iter r) (some .empty)
      (fun s => ∃ ht, s = some ht ∧ SoloOk iter r (Tidy Set.univ) ht) calls := by
    refine throughout_of_every ⟨_, rfl, soloOk_empty⟩ ?_ h
    rintro s c s' ⟨ht, rfl, hok⟩ hc hs
    obtain ⟨hnamed, hrev⟩ := hc ht rfl
    exact hok.step (fun F hF => ⟨_, hF⟩) hnamed (fun F hF _ => hF)
      (fun p m F' _ _ hF hadm hch => hF.step_univ hnamed hadm hrev hch) hs
  intro calls' s hpre hs
  obtain ⟨ht, rfl, hok⟩ := hall calls' s hpre hs
  refine ⟨ht, rfl, fun hpres id hid => ?_⟩
  have htidy := hok.tree hpres
  obtain ⟨n₁, o, ho, hmem⟩ := htidy.exists_subTree .refl
  obtain ⟨n₂, hn₂⟩ := htidy.exists_istreeMember hid
  refine ⟨max n₁ n₂, fun m hm => ⟨o, ho m (le_of_max_le_left hm), ?_⟩⟩
  rw [hn₂ m (le_of_max_le_right hm), Option.some.injEq, Bool.eq_iff_iff, decide_eq_true_iff,
    setTypeIsMember_iff, hmem]
  exact Iff.rfl

/-- A node is inserted, deleted and inserted again. -/
theorem tree_memberships_agree_again :
    ∃ ht, run (treeStep (inOrder 1) 0) (some .empty)
        [⟨0, .create⟩, ⟨1, .insert [118] rootId [97]⟩, ⟨1, .delete [97]⟩,
          ⟨1, .insert [119] rootId [97]⟩] = some (some ht) ∧
      ht.present ∧ ∀ id, NulFree id → ∃ n, ∀ m ≥ n, ∃ o,
        subTree (.of (inOrder 1) 0) ht m rootId = some o ∧
          istreeMember ht m id = some (setTypeIsMember o id) := by
  set calls : List TreeCall := [⟨0, .create⟩, ⟨1, .insert [118] rootId [97]⟩, ⟨1, .delete [97]⟩,
    ⟨1, .insert [119] rootId [97]⟩] with hcalls
  have hfresh : Every (treeStep (inOrder 1) 0) (some .empty)
      (fun s c => ∀ ht ∈ s,
        c.cmd.Named ∧ c.cmd.Fresh (ht.node (.of (inOrder 1) 0))) calls := by
    decide +kernel
  obtain ⟨s, hs, ht, rfl, hpres⟩ : ∃ s ∈ run (treeStep (inOrder 1) 0)
      (some .empty) calls, ∃ ht ∈ s, ht.present := by
    decide +kernel
  obtain ⟨_, heq, hagree⟩ := tree_memberships_agree
    (hfresh.imp fun s c hc ht hst => (hc ht hst).imp_right TreeCmd.Fresh.revisits)
    calls _ List.prefix_rfl hs
  cases heq
  exact ⟨ht, hs, hpres, hagree hpres⟩

/-- Three ways to tell the two apart: the root is deleted; a node that is hidden is inserted again
elsewhere, comes back under its old parent too, and is hidden once more; and an id has a NUL
byte. -/
theorem tree_memberships_differ :
    (∃ ht o, run (treeStep (inOrder 1) 0) (some .empty)
        [⟨0, .create⟩, ⟨0, .delete rootId⟩] = some (some ht) ∧ ht.present ∧
      subTree (.of (inOrder 1) 0) ht 1 rootId = some o ∧
      istreeMember ht 1 rootId = some true ∧ rootId ∉ o) ∧
    (∃ ht o, run (treeStep (inOrder 1) 0) (some .empty)
        [⟨0, .create⟩, ⟨2, .insert [118] rootId [112]⟩, ⟨2, .insert [118] [112] [121]⟩,
          ⟨2, .delete [112]⟩, ⟨2, .insert [118] rootId [121]⟩, ⟨2, .insert [118] rootId [112]⟩,
          ⟨2, .insert [118] rootId [122]⟩, ⟨4, .move [122] [121]⟩, ⟨2, .delete [122]⟩] =
          some (some ht) ∧ ht.present ∧
      subTree (.of (inOrder 1) 0) ht 4 rootId = some o ∧
      istreeMember ht 4 [121] = some false ∧ [121] ∈ o) ∧
    ∃ ht o, run (treeStep (inOrder 1) 0) (some .empty)
        [⟨0, .create⟩, ⟨2, .insert [118] rootId [97, 0, 98]⟩] = some (some ht) ∧ ht.present ∧
      subTree (.of (inOrder 1) 0) ht 4 rootId = some o ∧
      istreeMember ht 4 [97] = some true ∧ [97] ∉ o := by
  refine ⟨?_, ?_, ?_⟩
  · obtain ⟨s, hs, ht, rfl, hpres, o, ho, hq⟩ :
        ∃ s ∈ run (treeStep (inOrder 1) 0) (some .empty)
          [⟨0, .create⟩, ⟨0, .delete rootId⟩], ∃ ht ∈ s, ht.present ∧
        ∃ o ∈ subTree (.of (inOrder 1) 0) ht 1 rootId,
          istreeMember ht 1 rootId = some true ∧ rootId ∉ o := by
      decide +kernel
    exact ⟨ht, o, hs, hpres, ho, hq⟩
  · obtain ⟨s, hs, ht, rfl, hpres, o, ho, hq⟩ :
        ∃ s ∈ run (treeStep (inOrder 1) 0) (some .empty)
          [⟨0, .create⟩, ⟨2, .insert [118] rootId [112]⟩, ⟨2, .insert [118] [112] [121]⟩,
            ⟨2, .delete [112]⟩, ⟨2, .insert [118] rootId [121]⟩, ⟨2, .insert [118] rootId [112]⟩,
            ⟨2, .insert [118] rootId [122]⟩, ⟨4, .move [122] [121]⟩, ⟨2, .delete [122]⟩],
        ∃ ht ∈ s, ht.present ∧
        ∃ o ∈ subTree (.of (inOrder 1) 0) ht 4 rootId,
          istreeMember ht 4 [121] = some false ∧ [121] ∈ o := by
      decide +kernel
    exact ⟨ht, o, hs, hpres, ho, hq⟩
  · obtain ⟨s, hs, ht, rfl, hpres, o, ho, hq⟩ :
        ∃ s ∈ run (treeStep (inOrder 1) 0) (some .empty)
          [⟨0, .create⟩, ⟨2, .insert [118] rootId [97, 0, 98]⟩], ∃ ht ∈ s, ht.present ∧
        ∃ o ∈ subTree (.of (inOrder 1) 0) ht 4 rootId,
          istreeMember ht 4 [97] = some true ∧ [97] ∉ o := by
      decide +kernel
    exact ⟨ht, o, hs, hpres, ho, hq⟩

/-- Whether a command is accepted: there is something to broadcast. -/
def accepts (srv : Server) (ht : TreeHT) (c : TreeCall) : Bool :=
  (treePrepare srv c ht).any fun p => p.msg.isSome

theorem accepts_iff {srv : Server} {c : TreeCall} {p : Prepared TreeHT TreeMsg}
    (hp : treePrepare srv c ht = some p) : accepts srv ht c ↔ ∃ m, p.msg = some m := by
  rw [accepts, hp, Option.any_some, Option.isSome_iff_exists]

/-- The command is an insert of `y` that is accepted. -/
def InsertAccepted (srv : Server) (y : Sds) (ht : TreeHT) (c : TreeCall) : Prop :=
  (∃ v p, c.cmd = .insert v p y) ∧ accepts srv ht c

theorem not_member_of_delete {K : Set Sds} {F F' : Forest} {x y : Sds} (h : Tidy K F)
    (hroot : x ≠ rootId) (hy : ReflTransGen (HangsUnder F) x y)
    (hhangs : ∀ a b, HangsUnder F' a b ↔ HangsUnder F a b ∧ b ≠ x) : ¬ Member F' y := by
  have hpath : ReflTransGen (HangsUnder F') x y := by
    induction hy with
    | refl => exact .refl
    | @tail b c hb hbc ih =>
      refine ih.tail ((hhangs b c).mpr ⟨hbc, ?_⟩)
      rintro rfl
      exact h.ranked.not_transGen_self c (.tail' hb hbc)
  intro hm
  rcases (hm.of_below hpath).cases_tail with heq | ⟨b, -, hb⟩
  · exact hroot heq
  · exact ((hhangs b x).mp hb).2 rfl

theorem present_treeStep {c : TreeCall} {ht' : TreeHT} (hpres : ht.present)
    (hs : treeStep iter r (some ht) c = some (some ht')) : ht'.present := by
  obtain ⟨p, hp, heq⟩ := rwTree_perform hs
  cases hm : p.msg with
  | none =>
    rw [hm] at heq
    exact Option.some.inj heq ▸ present_treePrepare hp hpres
  | some m =>
    rw [hm] at heq
    exact present_treeEffect heq.symm

theorem soloOk_of_bare {calls : List TreeCall} {s : Option TreeHT}
    (h : Every (treeStep iter r) (some .empty) (fun s c => ∀ ht, s = some ht →
      c.cmd.Named ∧ c.cmd.Bare (ht.node (.of iter r))) calls)
    (hs : run (treeStep iter r) (some .empty) calls = some s) :
    ∃ ht, s = some ht ∧ SoloOk iter r (fun F => Tidy {x | Member F x} F) ht := by
  have hall : Throughout (treeStep iter r) (some .empty) (fun s => ∃ ht, s = some ht ∧
      SoloOk iter r (fun F => Tidy {x | Member F x} F) ht) calls := by
    refine throughout_of_every ⟨_, rfl, soloOk_empty⟩ ?_ h
    rintro s c s' ⟨ht, rfl, hok⟩ hc hs
    obtain ⟨hnamed, hbare⟩ := hc ht rfl
    exact hok.step (fun F hF => ⟨_, hF⟩) hnamed (fun F hF _ => hF.restrict)
      (fun p m F' _ _ hF hadm hch => (hF.step_members hnamed hadm hbare hch).1) hs
  exact hall calls s List.prefix_rfl hs

theorem SoloOk.stays_out {y : Sds} {calls : List TreeCall} {s : Option TreeHT}
    (hok : SoloOk iter r (fun F => Tidy {x | Member F x} F ∧ ¬ Member F y) ht) (hpres : ht.present)
    (hroot : y ≠ rootId)
    (h : Every (treeStep iter r) (some ht) (fun s c => ∀ ht, s = some ht →
      (c.cmd.Named ∧ c.cmd.Bare (ht.node (.of iter r))) ∧
        ¬ InsertAccepted (.of iter r) y ht c) calls)
    (hs : run (treeStep iter r) (some ht) calls = some s) : ∃ ht', s = some ht' ∧ ht'.present ∧
      SoloOk iter r (fun F => Tidy {x | Member F x} F ∧ ¬ Member F y) ht' := by
  have hcreate : ∀ F : Forest, Tidy Set.univ F → (∀ a b, ¬ HangsUnder F a b) →
      Tidy {x | Member F x} F ∧ ¬ Member F y := by
    refine fun F hF hhangs => ⟨hF.restrict, fun hy => ?_⟩
    rcases hy.cases_tail with heq | ⟨b, -, hb⟩
    · exact hroot heq
    · exact hhangs b y hb
  have hall : Throughout (treeStep iter r) (some ht) (fun s => ∃ ht, s = some ht ∧ ht.present ∧
      SoloOk iter r (fun F => Tidy {x | Member F x} F ∧ ¬ Member F y) ht) calls := by
    refine throughout_of_every ⟨_, rfl, hpres, hok⟩ ?_ h
    rintro s c s' ⟨ht, rfl, hpres, hok⟩ hc hs
    obtain ⟨⟨hnamed, hbare⟩, hnot⟩ := hc ht rfl
    obtain ⟨ht', rfl, hok'⟩ : ∃ ht', s' = some ht' ∧
        SoloOk iter r (fun F => Tidy {x | Member F x} F ∧ ¬ Member F y) ht' := by
      refine hok.step (fun F hF => ⟨_, hF.1⟩) hnamed hcreate ?_ hs
      intro p m F' hp hm hF hadm hch
      obtain ⟨hK', hnew⟩ := hF.1.step_members hnamed hadm hbare hch
      refine ⟨hK', fun hy => ?_⟩
      rcases hnew y hy with hy | hins
      · exact hF.2 hy
      · exact hnot ⟨hins, (accepts_iff hp).mpr ⟨m, hm⟩⟩
    exact ⟨ht', rfl, present_treeStep hpres hs, hok'⟩
  exact hall calls s List.prefix_rfl hs

/-- **What a delete has hidden stays hidden**, for a replica by itself, if ids have no NUL bytes,
the root is not deleted, and no id is inserted that still lists children. If `y` is below `p` when
`p` is deleted, it is not in the tree in any later state that is reached before an insert of `y` is
accepted: `istreeMember` says so, and `RWFTREEMEMBERS` does not list it. Clocks are unbounded here:
in the code they are exact below `INT_MAX` and for at most `100` replicas. -/
theorem tree_hidden_until_insert {calls₁ calls₂ : List TreeCall} {fuel : ℕ} {p y : Sds}
    {ht₁ : TreeHT} {s₂ s₃ : Option TreeHT}
    (h : Every (treeStep iter r) (some .empty) (fun s c => ∀ ht, s = some ht →
      c.cmd.Named ∧ c.cmd.Bare (ht.node (.of iter r))) (calls₁ ++ ⟨fuel, .delete p⟩ :: calls₂))
    (h₁ : run (treeStep iter r) (some .empty) calls₁ = some (some ht₁))
    (hacc : accepts (.of iter r) ht₁ ⟨fuel, .delete p⟩)
    (hy : y ≠ p ∧ ∃ n o, subTree (.of iter r) ht₁ n p = some o ∧ y ∈ o)
    (h₂ : treeStep iter r (some ht₁) ⟨fuel, .delete p⟩ = some s₂)
    (h₃ : run (treeStep iter r) s₂ calls₂ = some s₃)
    (hno : Every (treeStep iter r) s₂ (fun s c => ∀ ht, s = some ht →
      ¬ InsertAccepted (.of iter r) y ht c) calls₂) :
    ∃ ht₃, s₃ = some ht₃ ∧ (∃ n, ∀ m ≥ n, istreeMember ht₃ m y = some false) ∧
      ∃ n, ∀ m ≥ n, ∃ lines, treeMembers (.of iter r) ht₃ m = some lines ∧
        ∀ l ∈ lines, l.uid ≠ y := by
  classical
  obtain ⟨hne, n, o, ho, hyo⟩ := hy
  have hcond := h.of_append h₁
  obtain ⟨hnamed, -⟩ := hcond [] ⟨fuel, .delete p⟩ _ (List.prefix_append [_] _) rfl ht₁ rfl
  obtain ⟨_, heq, hok₁⟩ := soloOk_of_bare (h.of_prefix (List.prefix_append _ _)) h₁
  cases heq
  -- the delete
  obtain ⟨pr, hpr, rfl⟩ := rwTree_perform h₂
  obtain ⟨m, hm⟩ := (accepts_iff hpr).mp hacc
  have hpres : ht₁.present := by
    refine (treePrepare_present hpr).2 m hm ?_
    cases (treePrepare_spec hpr).msg m hm
    rfl
  have hK := hok₁.tree hpres
  obtain ⟨hadm, ht₂, heff, hch⟩ := hok₁.changed hK hpres hnamed hpr hm
  rw [hm, Option.elim_some, heff] at h₂ h₃ hno
  have hpath := (hK.mem_subTree_iff hadm ho).mp hyo
  have hroot : y ≠ rootId := by
    rcases hpath.cases_tail with heq | ⟨_, -, hc⟩
    · exact absurd heq hne
    · exact hc.2.1
  obtain ⟨hK₂, hhangs⟩ := hK.delete hnamed.2 hch
  have hok₂ : SoloOk iter r (fun F => Tidy {x | Member F x} F ∧ ¬ Member F y) ht₂ :=
    hok₁.effect hpr heff ⟨hK₂.restrict, not_member_of_delete hK hnamed.2 hpath hhangs⟩
  -- the commands after it
  have hrun : run (treeStep iter r) (some ht₁) [⟨fuel, .delete p⟩] = some (some ht₂) := by
    simpa [run] using h₂
  have hlater := (show Every _ _ _ ([_] ++ calls₂) from hcond).of_append hrun
  obtain ⟨ht₃, rfl, hpres₃, hok₃⟩ := hok₂.stays_out (present_treeEffect heff) hroot
    (fun cs c s hpre hs ht hst => ⟨hlater cs c s hpre hs ht hst, hno cs c s hpre hs ht hst⟩) h₃
  obtain ⟨hK₃, hgone⟩ := hok₃.tree hpres₃
  have hnul : NulFree y := hK.nulFree (hadm.trans hpath)
  refine ⟨ht₃, rfl, ?_, ?_⟩
  · obtain ⟨n, hn⟩ := hK₃.exists_istreeMember hnul
    exact ⟨n, fun m hm => by rw [hn m hm, decide_eq_false hgone]⟩
  · obtain ⟨n, hn⟩ := hK₃.exists_treeMembers
    refine ⟨n, fun m hm => ?_⟩
    obtain ⟨lines, hlines, hl⟩ := hn m hm
    exact ⟨lines, hlines, fun l hl' heq => hgone (heq ▸ hl l hl')⟩

end

/-- Nothing comes back while another node is inserted. -/
theorem tree_hidden_until_insert_other :
    ∃ ht, run (treeStep (inOrder 1) 0) (some .empty)
        [⟨0, .create⟩, ⟨2, .insert [118] rootId [112]⟩, ⟨2, .insert [118] [112] [121]⟩,
          ⟨2, .delete [112]⟩, ⟨2, .insert [118] rootId [122]⟩] = some (some ht) ∧
      (∃ n, ∀ m ≥ n, istreeMember ht m [121] = some false) ∧
      ∃ n, ∀ m ≥ n, ∃ lines,
        treeMembers (.of (inOrder 1) 0) ht m = some lines ∧
          ∀ l ∈ lines, l.uid ≠ [121] := by
  set calls₁ : List TreeCall :=
    [⟨0, .create⟩, ⟨2, .insert [118] rootId [112]⟩, ⟨2, .insert [118] [112] [121]⟩] with hcalls
  set calls₂ : List TreeCall := [⟨2, .insert [118] rootId [122]⟩] with hcalls'
  have hfresh : Every (treeStep (inOrder 1) 0) (some .empty)
      (fun s c => ∀ ht ∈ s,
        c.cmd.Named ∧ c.cmd.Fresh (ht.node (.of (inOrder 1) 0)))
      (calls₁ ++ ⟨2, .delete [112]⟩ :: calls₂) := by
    decide +kernel
  obtain ⟨s₁, h₁, ht₁, rfl, hacc, ⟨o, ho, hy⟩, s₂, h₂, s₃, h₃, -⟩ :
      ∃ s₁ ∈ run (treeStep (inOrder 1) 0) (some .empty) calls₁, ∃ ht₁ ∈ s₁,
        accepts (.of (inOrder 1) 0) ht₁ ⟨2, .delete [112]⟩ ∧
        (∃ o ∈ subTree (.of (inOrder 1) 0) ht₁ 3 [112], [121] ∈ o) ∧
        ∃ s₂ ∈ treeStep (inOrder 1) 0 (some ht₁) ⟨2, .delete [112]⟩,
          ∃ s₃ ∈ run (treeStep (inOrder 1) 0) s₂ calls₂, True := by
    decide +kernel
  have hno : Every (treeStep (inOrder 1) 0) s₂ (fun s c => ∀ ht, s = some ht →
      ¬ InsertAccepted (.of (inOrder 1) 0) [121] ht c) calls₂ := by
    refine .cons ?_ fun _ _ => every_nil
    rintro ht - ⟨⟨v, p, hins⟩, -⟩
    cases hins
  obtain ⟨ht₃, rfl, hgone⟩ := tree_hidden_until_insert
    (hfresh.imp fun s c hc ht hst => (hc ht hst).imp_right TreeCmd.Fresh.bare) h₁ hacc
    ⟨by decide, 3, o, ho, hy⟩ h₂ h₃ hno
  refine ⟨ht₃, ?_, hgone⟩
  show run _ _ (calls₁ ++ _ :: calls₂) = _
  rw [run_append, Option.mem_def.mp h₁, Option.bind_some, run, Option.mem_def.mp h₂]
  exact h₃

/-- A deleted node is inserted again, and what hung below it comes back with it. -/
theorem tree_hidden_returns :
    (∃ ht o, run (treeStep (inOrder 1) 0) (some .empty)
        [⟨0, .create⟩, ⟨2, .insert [118] rootId [112]⟩, ⟨2, .insert [118] [112] [121]⟩] =
          some (some ht) ∧
      accepts (.of (inOrder 1) 0) ht ⟨2, .delete [112]⟩ ∧
      subTree (.of (inOrder 1) 0) ht 3 [112] = some o ∧ [121] ∈ o) ∧
    ∃ ht lines, run (treeStep (inOrder 1) 0) (some .empty)
        [⟨0, .create⟩, ⟨2, .insert [118] rootId [112]⟩, ⟨2, .insert [118] [112] [121]⟩,
          ⟨2, .delete [112]⟩, ⟨2, .insert [118] rootId [112]⟩] = some (some ht) ∧
      istreeMember ht 2 [121] = some true ∧
      treeMembers (.of (inOrder 1) 0) ht 3 = some lines ∧
      ∃ l ∈ lines, l.uid = [121] := by
  constructor
  · obtain ⟨s, hs, ht, rfl, hacc, o, ho, hy⟩ :
        ∃ s ∈ run (treeStep (inOrder 1) 0) (some .empty)
          [⟨0, .create⟩, ⟨2, .insert [118] rootId [112]⟩, ⟨2, .insert [118] [112] [121]⟩],
        ∃ ht ∈ s, accepts (.of (inOrder 1) 0) ht ⟨2, .delete [112]⟩ ∧
        ∃ o ∈ subTree (.of (inOrder 1) 0) ht 3 [112], [121] ∈ o := by
      decide +kernel
    exact ⟨ht, o, hs, hacc, ho, hy⟩
  · obtain ⟨s, hs, ht, rfl, hmem, lines, hlines, hl⟩ :
        ∃ s ∈ run (treeStep (inOrder 1) 0) (some .empty)
          [⟨0, .create⟩, ⟨2, .insert [118] rootId [112]⟩, ⟨2, .insert [118] [112] [121]⟩,
            ⟨2, .delete [112]⟩, ⟨2, .insert [118] rootId [112]⟩],
        ∃ ht ∈ s, istreeMember ht 2 [121] = some true ∧
        ∃ lines ∈ treeMembers (.of (inOrder 1) 0) ht 3,
          ∃ l ∈ lines, l.uid = [121] := by
      decide +kernel
    exact ⟨ht, lines, hs, hmem, hlines, hl⟩

end RemoveWin
