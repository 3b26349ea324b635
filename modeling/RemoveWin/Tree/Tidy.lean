import RemoveWin.Tree.Acyclic

/-!
# Parents against children

The tree is kept twice, in parent fields and in children sets. `istreeMember` climbs the one and
`subTree` walks the other. A node that is there always hangs under the parent that it names, in
that parent's children set. The other way round it need not be so: an insert of an id that is still
there, hidden below a node that has been deleted, leaves the id behind in the children set of its
old parent.

`Tidy K` says that children sets agree with parent fields at the nodes in `K`, which include those
in the tree. That is enough for the two walks to agree. Which changes keep it is shown here for two
kinds of change: a node that leaves its parent, and a node that comes to hang under a node of the
tree that is not below it. Inserts and moves are of the second kind.

## Main results

* `RemoveWin.Tidy.exists_istreeMember`, `Tidy.exists_subTree` — both walks find what is in the tree
* `RemoveWin.Tidy.relink`, `Tidy.unlink` — the two kinds of change
* `RemoveWin.Tidy.node_insert`, `Tidy.node_delete`, `Tidy.node_move` — the effects of commands at
  their origin
-/

namespace RemoveWin

open Walk Relation

/-- There is a node under the key `c`, other than the root, and it hangs under `p`. -/
def HangsUnder (F : Forest) (p c : Sds) : Prop :=
  (F c).header.Exists ∧ c ≠ rootId ∧ (F c).parent = some p

/-- The id is in the tree: it is the root or hangs below it. -/
def Member (F : Forest) (x : Sds) : Prop := ReflTransGen (HangsUnder F) rootId x

/-- **Parents and children agree**, at the nodes in `K`. -/
structure Tidy (K : Set Sds) (F : Forest) : Prop where
  /-- The root is there. -/
  root : (F rootId).header.Exists
  rootParent : (F rootId).parent ≠ none
  parent : ∀ {c}, (F c).header.Exists → c ≠ rootId → ∃ p, HangsUnder F p c
  placed : ∀ {p c}, HangsUnder F p c → NulFree p ∧ NulFree c ∧ (F c).uid = some c
  listed : ∀ {p c}, HangsUnder F p c → c ∈ (F p).children
  exact : ∀ {p c}, p ∈ K → c ∈ (F p).children → HangsUnder F p c
  /-- Nothing hangs below itself. -/
  ranked : Ranked (HangsUnder F)
  /-- The tree is among `K`. -/
  members : ∀ {x}, Member F x → x ∈ K

/-- Hanging, after a node has come to hang under `p`. -/
theorem hangsUnder_relink {F F' : Forest} {x p : Sds} (hroot : x ≠ rootId)
    (hex : (F' x).header.Exists) (hpar : (F' x).parent = some p)
    (hkeep : ∀ j, j ≠ x → ((F' j).header.Exists ↔ (F j).header.Exists) ∧
      (F' j).parent = (F j).parent) (a b : Sds) :
    HangsUnder F' a b ↔ (HangsUnder F a b ∧ b ≠ x) ∨ (a = p ∧ b = x) := by
  by_cases hb : b = x
  · subst hb
    simp [HangsUnder, hex, hroot, hpar, eq_comm]
  · simp [HangsUnder, hb, hkeep b hb]

/-- Only the node itself comes to the tree with it, if it was in the tree or nothing hangs under
it. -/
theorem member_relink {F F' : Forest} {x p y : Sds}
    (hhangs : ∀ a b, HangsUnder F' a b → (HangsUnder F a b ∧ b ≠ x) ∨ (a = p ∧ b = x))
    (hx : Member F x ∨ ∀ c, ¬ HangsUnder F x c) (hy : Member F' y) : Member F y ∨ y = x := by
  induction hy with
  | refl => exact .inl .refl
  | tail _ hbc ih =>
    rcases hhangs _ _ hbc with ⟨hbc, -⟩ | ⟨-, rfl⟩
    · rcases ih with hb | rfl
      · exact .inl (hb.tail hbc)
      · exact .inl ((hx.resolve_right fun hleaf => hleaf _ hbc).tail hbc)
    · exact .inr rfl

theorem HangsUnder.unique {F : Forest} {p q c : Sds} (hp : HangsUnder F p c)
    (hq : HangsUnder F q c) : p = q := Option.some.inj (hp.2.2.symm.trans hq.2.2)

theorem Member.of_below {F : Forest} {x y : Sds} (hy : Member F y)
    (hx : ReflTransGen (HangsUnder F) x y) : Member F x :=
  reflTransGen_root_of_below (R := HangsUnder F) (fun _ _ _ => HangsUnder.unique)
    (fun _ h => h.2.1 rfl) hy hx

namespace Tidy

section

variable {srv : Server} {K K' : Set Sds} {F F' : Forest} {x y p q c : Sds}

theorem exists_of_member (h : Tidy K F) (hx : Member F x) : (F x).header.Exists := by
  rcases hx.cases_tail with rfl | ⟨_, _, hc⟩
  · exact h.root
  · exact hc.1

theorem nulFree (h : Tidy K F) (hx : Member F x) : NulFree x := by
  rcases hx.cases_tail with rfl | ⟨_, _, hc⟩
  · decide
  · exact (h.placed hc).2.1

theorem restrict (h : Tidy K F) : Tidy {x | Member F x} F :=
  { h with exact := fun hp => h.exact (h.members hp), members := fun hx => hx }

/-! ### Walks -/

theorem climbs_iff (h : Tidy K F) (hx : NulFree x) :
    Climbs rootId (alive F) (parentId F) x ↔ Member F x := by
  constructor
  · intro hc
    induction hc with
    | root => exact .refl
    | @step x y hne hal hup _ ih =>
      rw [alive_iff, sdsnew_of_nulFree hx] at hal
      rw [parentId, sdsnew_of_nulFree hx] at hup
      have hhangs : HangsUnder F y x := ⟨hal, hne, hup⟩
      exact (ih (h.placed hhangs).1).tail hhangs
  · intro hm
    induction hm with
    | refl => exact .root
    | tail _ hbc ih =>
      have hx := h.placed hbc
      refine .step hbc.2.1 ?_ ?_ (ih hx.1)
      · rw [alive_iff, sdsnew_of_nulFree hx.2.1]
        exact hbc.1
      · rw [parentId, sdsnew_of_nulFree hx.2.1]
        exact hbc.2.2

theorem mem_childIds_iff (h : Tidy K F) (hx : Member F x) :
    c ∈ childIds srv F x ↔ HangsUnder F x c := by
  rw [mem_childIds, sdsnew_of_nulFree (h.nulFree hx)]
  exact ⟨h.exact (h.members hx), h.listed⟩

theorem visits_iff (h : Tidy K F) (hx : Member F x) :
    Visits (alive F) (childIds srv F) x y ↔ ReflTransGen (HangsUnder F) x y := by
  constructor
  · intro hv
    induction hv with
    | here => exact .refl
    | step _ hy _ ih =>
      have hhangs := (h.mem_childIds_iff hx).mp hy
      exact .head hhangs (ih (hx.tail hhangs))
  · intro hy
    have halive : ∀ {z}, Member F z → alive F z := by
      intro z hz
      rw [alive_iff, sdsnew_of_nulFree (h.nulFree hz)]
      exact h.exists_of_member hz
    induction hy with
    | refl => exact .here (halive hx)
    | tail hb hbc ih =>
      have hm := hx.trans hb
      exact ih.tail ((h.mem_childIds_iff hm).mpr hbc) (halive (hm.tail hbc))

theorem acc_above (h : Tidy K F) (hx : NulFree x) :
    Acc (Above rootId (alive F) (parentId F)) x := by
  induction x using (WellFounded.intro h.ranked.acc_up).induction with
  | _ x ih =>
    refine Acc.intro x ?_
    rintro y ⟨hne, hal, hup⟩
    rw [alive_iff, sdsnew_of_nulFree hx] at hal
    rw [parentId, sdsnew_of_nulFree hx] at hup
    have hhangs : HangsUnder F y x := ⟨hal, hne, hup⟩
    exact ih y hhangs (h.placed hhangs).1

theorem acc_below (h : Tidy K F) (srv : Server) (hx : Member F x) :
    Acc (Below (alive F) (childIds srv F)) x := by
  induction x using (WellFounded.intro h.ranked.acc_down).induction with
  | _ x ih =>
    refine Acc.intro x ?_
    rintro y ⟨-, hy⟩
    have hhangs := (h.mem_childIds_iff hx).mp hy
    exact ih y hhangs (hx.tail hhangs)

theorem parentId_ne_none (h : Tidy K F) (hx : alive F x) : parentId F x ≠ none := by
  rw [alive_iff] at hx
  rw [parentId]
  by_cases hr : sdsnew x = rootId
  · rw [hr]
    exact h.rootParent
  · obtain ⟨p, -, -, hp⟩ := h.parent hx hr
    simp [hp]

end

section

variable {srv : Server} {K : Set Sds} {ht : TreeHT} {x : Sds}

open scoped Classical in
/-- **`istreeMember` tells what is in the tree**, given time. -/
theorem exists_istreeMember (h : Tidy K (ht.node srv)) (hx : NulFree x) :
    ∃ n, ∀ m ≥ n, istreeMember ht m x = some (decide (Member (ht.node srv) x)) := by
  obtain ⟨n, b, hb⟩ := exists_climb (fun y _ hy => h.parentId_ne_none hy) (h.acc_above hx)
  have hdec : b = decide (Member (ht.node srv) x) := by
    rw [Bool.eq_iff_iff, climbs_iff_of_climb hb, h.climbs_iff hx, decide_eq_true_iff]
  refine ⟨n, fun m hm => ?_⟩
  rw [istreeMember_eq_climb srv, sdsnew_of_nulFree hx, climb_mono hb hm, hdec]

/-- **`subTree` collects what is below a node of the tree**, given time. -/
theorem exists_subTree (h : Tidy K (ht.node srv)) (hx : Member (ht.node srv) x) :
    ∃ n o, (∀ m ≥ n, subTree srv ht m x = some o) ∧
      ∀ y, y ∈ o ↔ ReflTransGen (HangsUnder (ht.node srv)) x y := by
  have hn := h.nulFree hx
  obtain ⟨n, l, hl⟩ := exists_queueWalk (q := [x]) (by simpa using h.acc_below srv hx)
  have hsub : ∀ m ≥ n, subTree srv ht m x = some (l.foldl setTypeAdd .empty) := by
    intro m hm
    rw [subTree_eq_queueWalk, sdsnew_of_nulFree hn, queueWalk_mono hl hm, Option.map_some]
  refine ⟨n, _, hsub, fun y => ?_⟩
  rw [mem_subTree (hsub n le_rfl), sdsnew_of_nulFree hn, h.visits_iff hx]

theorem member_iff {n : ℕ} {b : Bool} (h : Tidy K (ht.node srv)) (hx : NulFree x)
    (hb : istreeMember ht n x = some b) : b = true ↔ Member (ht.node srv) x := by
  rw [istreeMember_eq_climb srv, sdsnew_of_nulFree hx] at hb
  rw [climbs_iff_of_climb hb, h.climbs_iff hx]

theorem mem_subTree_iff {n : ℕ} {o : SetObj} {y : Sds} (h : Tidy K (ht.node srv))
    (hx : Member (ht.node srv) x) (ho : subTree srv ht n x = some o) :
    y ∈ o ↔ ReflTransGen (HangsUnder (ht.node srv)) x y := by
  rw [mem_subTree ho, sdsnew_of_nulFree (h.nulFree hx), h.visits_iff hx]

/-- **`RWFTREEMEMBERS` lists only what is in the tree**, and given time it returns. -/
theorem exists_treeMembers (h : Tidy K (ht.node srv)) :
    ∃ n, ∀ m ≥ n, ∃ lines, treeMembers srv ht m = some lines ∧
      ∀ l ∈ lines, Member (ht.node srv) l.uid := by
  obtain ⟨n, o, ho, -⟩ := h.exists_subTree .refl
  refine ⟨n, fun m hm => ?_⟩
  obtain ⟨lines, hlines⟩ : ∃ lines, treeMembers srv ht m = some lines :=
    ⟨_, by rw [treeMembers, ho m hm, Option.map_some]⟩
  refine ⟨lines, hlines, fun l hl => ?_⟩
  obtain ⟨y, hy, -, hyl, -, -⟩ := (lists_iff hlines l.uid l.name l.parent).mp ⟨l, hl, rfl, rfl, rfl⟩
  have hmember := (h.visits_iff .refl).mp hy
  rwa [← hyl, sdsnew_of_nulFree (h.nulFree hmember)]

end

/-! ### Changes -/

section

variable {K K' : Set Sds} {F F' : Forest} {x p : Sds}

theorem congr (h : Tidy K F) (hheader : ∀ j, (F' j).header.Exists ↔ (F j).header.Exists)
    (huid : ∀ j, (F' j).uid = (F j).uid) (hparent : ∀ j, (F' j).parent = (F j).parent)
    (hchildren : ∀ j, (F' j).children = (F j).children) :
    Tidy K F' ∧ ∀ y, Member F' y ↔ Member F y := by
  have hhangs : HangsUnder F' = HangsUnder F := by
    funext a b
    rw [HangsUnder, hheader, hparent, HangsUnder]
  have hmember : Member F' = Member F := by
    funext y
    rw [Member, hhangs, Member]
  refine ⟨⟨?_, ?_, ?_, ?_, ?_, ?_, ?_, ?_⟩, fun y => by rw [hmember]⟩
  · rw [hheader]
    exact h.root
  · rw [hparent]
    exact h.rootParent
  · intro c hc hne
    rw [hhangs]
    exact h.parent ((hheader c).mp hc) hne
  · intro p c hc
    rw [hhangs] at hc
    rw [huid]
    exact h.placed hc
  · intro p c hc
    rw [hhangs] at hc
    rw [hchildren]
    exact h.listed hc
  · intro p c hp hc
    rw [hchildren] at hc
    rw [hhangs]
    exact h.exact hp hc
  · rw [hhangs]
    exact h.ranked
  · intro y hy
    rw [hmember] at hy
    exact h.members hy

/-- **A node leaves its parent.** -/
theorem unlink (h : Tidy K F) (hroot : x ≠ rootId) (hpar : (F x).parent = some p)
    (hgone : ¬ (F' x).header.Exists)
    (hkeep : ∀ j, j ≠ x → ((F' j).header.Exists ↔ (F j).header.Exists) ∧
      (F' j).uid = (F j).uid ∧ (F' j).parent = (F j).parent)
    (hchildren : ∀ q c, c ∈ (F' q).children ↔ c ∈ (F q).children ∧ (q = p → c ≠ x)) :
    Tidy K F' ∧ ∀ a b, HangsUnder F' a b ↔ HangsUnder F a b ∧ b ≠ x := by
  have hhangs : ∀ a b, HangsUnder F' a b ↔ HangsUnder F a b ∧ b ≠ x := by
    intro a b
    by_cases hb : b = x
    · subst hb
      simp [HangsUnder, hgone]
    · simp [HangsUnder, hb, hkeep b hb]
  have hsub : ∀ a b, HangsUnder F' a b → HangsUnder F a b := fun a b hab => ((hhangs a b).mp hab).1
  refine ⟨⟨?_, ?_, ?_, ?_, ?_, ?_, h.ranked.mono hsub, ?_⟩, hhangs⟩
  · exact (hkeep rootId hroot.symm).1.mpr h.root
  · rw [(hkeep rootId hroot.symm).2.2]
    exact h.rootParent
  · intro c hc hne
    have hcx : c ≠ x := fun heq => hgone (heq ▸ hc)
    obtain ⟨q, hq⟩ := h.parent ((hkeep c hcx).1.mp hc) hne
    exact ⟨q, (hhangs q c).mpr ⟨hq, hcx⟩⟩
  · intro q c hc
    obtain ⟨hc, hcx⟩ := (hhangs q c).mp hc
    rw [(hkeep c hcx).2.1]
    exact h.placed hc
  · intro q c hc
    obtain ⟨hc, hcx⟩ := (hhangs q c).mp hc
    exact (hchildren q c).mpr ⟨h.listed hc, fun _ => hcx⟩
  · intro q c hq hc
    obtain ⟨hc, hne⟩ := (hchildren q c).mp hc
    have hqc := h.exact hq hc
    refine (hhangs q c).mpr ⟨hqc, fun heq => ?_⟩
    subst heq
    exact hne (Option.some.inj (hqc.2.2.symm.trans hpar)) rfl
  · exact fun hy => h.members (ReflTransGen.mono hsub _ _ hy)

/-- **A node comes to hang under a node of the tree** that is not below it. Nodes that count as
tidy afterwards did before, or are the node itself, if what it lists hangs under it. -/
theorem relink (h : Tidy K F) (hp : Member F p) (hx : NulFree x) (hroot : x ≠ rootId)
    (hno : ¬ ReflTransGen (HangsUnder F) x p)
    (hself : (F' x).header.Exists ∧ (F' x).uid = some x ∧ (F' x).parent = some p)
    (hkeep : ∀ j, j ≠ x → ((F' j).header.Exists ↔ (F j).header.Exists) ∧
      (F' j).uid = (F j).uid ∧ (F' j).parent = (F j).parent)
    (hchildren : ∀ q c, c ≠ x → (c ∈ (F' q).children ↔ c ∈ (F q).children))
    (hlisted : x ∈ (F' p).children) (honly : ∀ q ∈ K', x ∈ (F' q).children → q = p)
    (hK : ∀ q ∈ K', q ∈ K ∨ ∀ c ∈ (F q).children, HangsUnder F q c)
    (hmembers : ∀ y, Member F' y → y ∈ K') :
    Tidy K' F' := by
  have hhangs : ∀ a b, HangsUnder F' a b ↔ (HangsUnder F a b ∧ b ≠ x) ∨ (a = p ∧ b = x) :=
    hangsUnder_relink hroot hself.1 hself.2.2 fun j hj => ⟨(hkeep j hj).1, (hkeep j hj).2.2⟩
  refine ⟨?_, ?_, ?_, ?_, ?_, ?_, ?_, hmembers _⟩
  · exact (hkeep rootId hroot.symm).1.mpr h.root
  · rw [(hkeep rootId hroot.symm).2.2]
    exact h.rootParent
  · intro c hc hne
    by_cases hcx : c = x
    · exact ⟨p, (hhangs p c).mpr (.inr ⟨rfl, hcx⟩)⟩
    · obtain ⟨q, hq⟩ := h.parent ((hkeep c hcx).1.mp hc) hne
      exact ⟨q, (hhangs q c).mpr (.inl ⟨hq, hcx⟩)⟩
  · intro q c hc
    rcases (hhangs q c).mp hc with ⟨hc, hcx⟩ | ⟨rfl, rfl⟩
    · rw [(hkeep c hcx).2.1]
      exact h.placed hc
    · exact ⟨h.nulFree hp, hx, hself.2.1⟩
  · intro q c hc
    rcases (hhangs q c).mp hc with ⟨hc, hcx⟩ | ⟨rfl, rfl⟩
    · exact (hchildren q c hcx).mpr (h.listed hc)
    · exact hlisted
  · intro q c hq hc
    by_cases hcx : c = x
    · subst hcx
      exact (hhangs q c).mpr (.inr ⟨honly q hq hc, rfl⟩)
    · have hc := (hchildren q c hcx).mp hc
      refine (hhangs q c).mpr (.inl ⟨?_, hcx⟩)
      exact (hK q hq).elim (fun hq => h.exact hq hc) fun hq => hq c hc
  · have hranked : Ranked fun a b => HangsUnder F a b ∧ b ≠ x := h.ranked.mono fun _ _ => And.left
    refine (hranked.insert (P := fun a => a = p) (x := x) ?_).mono fun a b => (hhangs a b).mp
    rintro _ rfl hpath
    exact hno (ReflTransGen.mono (fun _ _ => And.left) _ _ hpath)

end

/-! ### Effects at the origin -/

section

variable {srv : Server} {K : Set Sds} {ht : TreeHT}

theorem create (hid : 0 ≤ srv.p2pId) (hnew : ∀ j, ht.node srv j = rtnNew srv) :
    Tidy Set.univ ((createEffect srv ht).node srv) ∧
      ∀ a b, ¬ HangsUnder ((createEffect srv ht).node srv) a b := by
  have hhangs : ∀ a b, ¬ HangsUnder ((createEffect srv ht).node srv) a b := by
    rintro a b ⟨hex, hb, -⟩
    rw [node_createEffect_of_ne hb, hnew] at hex
    exact not_exists_rtnNew srv hex
  refine ⟨⟨?_, ?_, ?_, ?_, ?_, ?_, ranked_of_empty hhangs, fun _ => trivial⟩, hhangs⟩
  · rw [node_createEffect_rootId]
    exact hid
  · rw [node_createEffect_rootId]
    simp
  · intro c hc hcr
    rw [node_createEffect_of_ne hcr, hnew] at hc
    exact absurd hc (not_exists_rtnNew srv)
  · exact fun hc => absurd hc (hhangs _ _)
  · exact fun hc => absurd hc (hhangs _ _)
  · intro p c _ hc
    rw [children_createEffect, hnew] at hc
    exact absurd hc (SetObj.notMem_empty c)

theorem node_insert {parent uid : Sds} (name : Sds) (h : Tidy K (ht.node srv))
    (hshape : RtnShape srv (ht.node srv uid)) (hid : 0 ≤ srv.p2pId)
    (hp : Member (ht.node srv) parent) (hn : NulFree uid) :
    ∃ ht', insertEffect srv name parent uid (ht.node srv (sdsnew parent)).header.current
        (ht.node srv (sdsnew uid)).header.current ht = some ht' ∧
      (ht'.node srv uid).header.Exists ∧ ∀ j, ht'.node srv j =
        { ht.node srv j with
          header := if j = uid then (ht.node srv j).header.ins (ht.node srv uid).header.current
            else (ht.node srv j).header
          uid := if j = uid then some uid else (ht.node srv j).uid
          parent := if j = uid then some parent else (ht.node srv j).parent
          name := if j = uid ∧ checkInitVC (ht.node srv j).vectorClock then some name
            else (ht.node srv j).name
          children := if j = parent then setTypeAdd (ht.node srv j).children uid
            else (ht.node srv j).children } := by
  obtain ⟨ht', heff, hnode⟩ : ∃ ht', insertEffect srv name parent uid _ _ ht = some ht' ∧ _ :=
    insertEffect_of_calm (not_removeCheck_current (ht.node srv (sdsnew parent)).header)
      (not_removeCheck_current (ht.node srv (sdsnew uid)).header)
  rw [sdsnew_of_nulFree (h.nulFree hp), sdsnew_of_nulFree hn] at hnode
  refine ⟨ht', heff, ?_, hnode⟩
  rw [hnode]
  dsimp only
  rw [if_pos rfl, Reh.exists_ins rfl (by rw [hshape.current.id]; exact hid)]
  exact .inr rfl

theorem node_delete {uid : Sds} (h : Tidy K (ht.node srv))
    (hshape : RtnShape srv (ht.node srv uid)) (hlt : srv.p2pId.toNat < srv.p2pCount)
    (hx : Member (ht.node srv) uid) (hroot : uid ≠ rootId) :
    ∃ ht' p, deleteEffect srv uid (nowVC (ht.node srv (sdsnew uid)).header.current) ht = some ht' ∧
      (ht.node srv uid).parent = some p ∧ ∀ j, ht'.node srv j =
        { ht.node srv j with
          header := if j = uid then
            rehRmvFunc (ht.node srv j).header (nowVC (ht.node srv uid).header.current)
            else (ht.node srv j).header
          parent := if j = uid then some noneId else (ht.node srv j).parent
          children := if j = p then setTypeRemove (ht.node srv j).children uid
            else (ht.node srv j).children } := by
  obtain ⟨p, hhangs⟩ := h.parent (h.exists_of_member hx) hroot
  have hpar := hhangs.2.2
  obtain ⟨hnp, -, huid⟩ := h.placed hhangs
  rw [deleteEffect, sdsnew_of_nulFree (h.nulFree hx)]
  have hrc : removeCheck ((ht.create srv uid).node srv uid).header
      (nowVC (ht.node srv uid).header.current) := by
    rw [TreeHT.node_create]
    exact removeCheck_nowVC (by rwa [hshape.current.id, hshape.current.size])
  obtain ⟨ht', heff⟩ : ∃ ht', tRemFunc srv (ht.create srv uid) uid
      (nowVC (ht.node srv uid).header.current) = some ht' :=
    exists_tRemFunc fun hnone => absurd hnone (by simp [TreeHT.node_create, huid])
  have hnode := node_tRemFunc hrc heff
  simp only [TreeHT.node_create, hpar, huid, sdsnewNull_some, sdsnew_of_nulFree hnp, removeUid,
    Option.elim_some] at hnode
  exact ⟨ht', p, heff, hpar, hnode⟩

theorem node_move {dst src : Sds} (h : Tidy K (ht.node srv))
    (hshape : RtnShape srv (ht.node srv src)) (hid : 0 ≤ srv.p2pId)
    (hlt : srv.p2pId.toNat < srv.p2pCount) (hd : Member (ht.node srv) dst)
    (hs : Member (ht.node srv) src) (hroot : src ≠ rootId) :
    ∃ ht' p, moveEffect srv dst src (nowVC (ht.node srv (sdsnew src)).moveVC)
        (ht.node srv (sdsnew dst)).header.current (ht.node srv (sdsnew src)).header.current ht =
          some ht' ∧
      HangsUnder (ht.node srv) p src ∧ (ht.node srv src).uid = some src ∧ ∀ j, ht'.node srv j =
        { ht.node srv j with
          moveVC := if j = src then
            updateVC (ht.node srv j).moveVC (nowVC (ht.node srv src).moveVC)
            else (ht.node srv j).moveVC
          parent := if j = src then some dst else (ht.node srv j).parent
          children :=
            let c := if j = p then setTypeRemove (ht.node srv j).children src
              else (ht.node srv j).children
            if j = dst then setTypeAdd c src else c } := by
  obtain ⟨p, hhangs⟩ := h.parent (h.exists_of_member hs) hroot
  obtain ⟨hnp, -, huid⟩ := h.placed hhangs
  have hns := sdsnew_of_nulFree (h.nulFree hs)
  have hnd := sdsnew_of_nulFree (h.nulFree hd)
  have hmoves := moves_self hshape hid hlt dst
  obtain ⟨ht', heff, hnode⟩ : ∃ ht', moveEffect srv dst src
      (nowVC (ht.node srv (sdsnew src)).moveVC) _ _ ht = some ht' ∧ _ :=
    moveEffect_of_calm (u := src) (not_removeCheck_current (ht.node srv (sdsnew dst)).header)
      (not_removeCheck_current (ht.node srv (sdsnew src)).header) (by rwa [hns])
  simp only [hns, hnd, hhangs.2.2, sdsnewNull_some, sdsnew_of_nulFree hnp, hmoves, if_true]
    at hnode
  refine ⟨ht', p, heff, hhangs, huid, fun j => ?_⟩
  rw [hnode]
  by_cases hj : j = src
  · subst hj
    simp [hmoves]
  · simp [hj]

end

end Tidy

end RemoveWin
