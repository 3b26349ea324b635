import RemoveWin.Tree.Parents

/-!
# Inserts and deletes of the same ids

Ids may be deleted and inserted again, and several replicas may insert or delete one id at the
same time. The headers cope with that: in causal order a delete always removes, and an insert
gets its node exactly when its origin knew of all deletes that the replica has seen. But id,
value, parent and the parent's set of children are written by every insert that arrives, winner
or not, and only a delete takes the node out of a set of children, that of the parent the node
happens to have. So two inserts of an id that differ must not meet: a delete has to separate
them. If one always does, every id is in one set of children at most, that of its parent, and
replicas that have applied the same messages list the same.

## Main results

* `RemoveWin.removes_counting` — header clocks count deletes, in every run
* `RemoveWin.rwTree_inserts_converge` — replicas list the same
* `RemoveWin.rwTree_inserts_diverge` — concurrent inserts that differ
-/

namespace RemoveWin

open Replicated Walk

section

variable {N : ℕ}

/-! ### The discipline -/

/-- The message inserts the node with key `k`, with the id, the value and the parent in `c`. -/
def TreeMsg.Inserts (m : TreeMsg) (k : Sds) (c : Sds × Sds × Sds) : Prop :=
  m.insertOf = some c ∧ sdsnew c.1 = k

instance (m : TreeMsg) (k : Sds) (c : Sds × Sds × Sds) : Decidable (m.Inserts k c) :=
  inferInstanceAs (Decidable (_ ∧ _))

/-- The message deletes the node with key `k`. -/
def TreeMsg.Deletes (m : TreeMsg) (k : Sds) : Prop := m.deleteOf.map sdsnew = some k

/-- Create, insert, and delete of anything but the root. -/
def TreeCmd.Churn : TreeCmd → Prop
  | .create | .insert _ _ _ => True
  | .delete uid => sdsnew uid ≠ rootId
  | .changeValue _ _ | .move _ _ => False

instance : (cmd : TreeCmd) → Decidable cmd.Churn
  | .create | .insert _ _ _ => inferInstanceAs (Decidable True)
  | .delete uid => inferInstanceAs (Decidable (sdsnew uid ≠ rootId))
  | .changeValue _ _ | .move _ _ => inferInstanceAs (Decidable False)

/-- Clients send such commands only. -/
def onlyChurn : TreeCond N
  | _, .client _ c, _ => c.cmd.Churn
  | _, .deliver _ _, _ => True

instance (g : TreeNet N) (a : Act (Fin N) TreeCall)
    (g' : TreeNet N) : Decidable (onlyChurn g a g') :=
  match a with
  | .client _ c => inferInstanceAs (Decidable c.cmd.Churn)
  | .deliver _ _ => inferInstanceAs (Decidable True)

/-- Inserts and deletes, in causal order. -/
def churn : TreeCond N :=
  fun g a g' => causal g a g' ∧ onlyChurn g a g'

instance (g : TreeNet N) (a : Act (Fin N) TreeCall)
    (g' : TreeNet N) : Decidable (churn g a g') :=
  inferInstanceAs (Decidable (_ ∧ _))

/-- Inserts of one id that differ, in the id past a NUL byte, in the value or in the parent, have
a delete of the id between them, which knows the one and is known to the other. -/
def Separated (log : List (TreeEvent N)) : Prop :=
  ∀ a ∈ log, ∀ b ∈ log, ∀ k c c', a.msg.Inserts k c → b.msg.Inserts k c' → c ≠ c' →
    ∃ d, d.msg.Deletes k ∧ ((a ∈ d.deps ∧ d ∈ b.deps) ∨ (b ∈ d.deps ∧ d ∈ a.deps))

theorem Separated.of_append {l : List (TreeEvent N)} {e : TreeEvent N}
    (h : Separated (l ++ [e])) : Separated l :=
  fun a ha b hb => h a (List.mem_append_left _ ha) b (List.mem_append_left _ hb)

/-- What `Separated` asks of two events, by their numbers, so that it can be evaluated. -/
def SeparatedIds (log : List (TreeEvent N)) (a b : TreeEvent N) : Prop :=
  a.msg.insertOf = none ∨ a.msg.insertOf = b.msg.insertOf ∨
    (a.msg.insertOf.map fun c => sdsnew c.1) ≠ (b.msg.insertOf.map fun c => sdsnew c.1) ∨
    ∃ d ∈ log, d.msg.deleteOf.map sdsnew = (a.msg.insertOf.map fun c => sdsnew c.1) ∧
      ((a.id ∈ d.deps.map Event.id ∧ d.id ∈ b.deps.map Event.id) ∨
        (b.id ∈ d.deps.map Event.id ∧ d.id ∈ a.deps.map Event.id))

instance (log : List (TreeEvent N)) (a b : TreeEvent N) :
    Decidable (SeparatedIds log a b) := inferInstanceAs (Decidable (_ ∨ _ ∨ _ ∨ _))

theorem separated_of_ids {g : TreeNet N} (w : g.WellFormed)
    (h : ∀ a ∈ g.log, ∀ b ∈ g.log, SeparatedIds g.log a b) : Separated g.log := by
  have hmem : ∀ {a b : TreeEvent N}, a ∈ g.log → b ∈ g.log →
      a.id ∈ b.deps.map Event.id → a ∈ b.deps := by
    intro a b ha hb hab
    obtain ⟨d, hd, hid⟩ := List.mem_map.mp hab
    obtain rfl := w.eq_of_id (w.deps_mem hb hd).1 ha hid
    exact hd
  rintro a ha b hb k c c' ⟨hma, rfl⟩ ⟨hmb, hkey⟩ hne
  rcases h a ha b hb with hnone | heq | hne' | ⟨d, hd, hdk, hdeps⟩
  · rw [hma] at hnone
    cases hnone
  · rw [hma, hmb] at heq
    exact absurd (Option.some.inj heq) hne
  · rw [hma, hmb, Option.map_some, Option.map_some, hkey] at hne'
    exact absurd rfl hne'
  · rw [hma, Option.map_some] at hdk
    refine ⟨d, hdk, hdeps.imp ?_ ?_⟩
    · exact fun h => ⟨hmem ha hd h.1, hmem hd hb h.2⟩
    · exact fun h => ⟨hmem hb hd h.1, hmem hd ha h.2⟩

/-- All replicas are up, `RWFTREEMEMBERS` returns at all of them, and it lists the same ids with
the same values and parents. -/
def SameMembers (iter : Fin N → Iteration) (g : TreeNet N) : Prop :=
  ∃ listed : Sds → Sds → Sds → Prop, ∀ r, ∃ ht, g.state r = some ht ∧
    (∃ n lines, treeMembers (.of iter r) ht n = some lines) ∧
    ∀ n lines, treeMembers (.of iter r) ht n = some lines →
      ∀ x v p, Lists lines x v p ↔ listed x v p

/-! ### Header clocks count deletes -/

variable {iter : Fin N → Iteration} {C : TreeCond N}
  {g g' : TreeNet N} {r : Fin N} {e : TreeEvent N}
  {ht : TreeHT} {k : Sds}

/-- The event brings a clock for the header of the node with key `k`. -/
def Stamped (k : Sds) (e : TreeEvent N) : Prop := e.msg.stampsFor k ≠ []

/-- That clock. -/
def headerStamp (k : Sds) (e : TreeEvent N) : ℕ → ℤ :=
  (e.msg.stampsFor k).head?.elim 0 VC.entry

theorem Accepts.stampsFor {srv : Server} {fuel : ℕ} {cmd : TreeCmd} {m : TreeMsg}
    (h : Accepts srv ht fuel cmd m) {t : VC} (htm : t ∈ m.stampsFor k) :
    (m.Deletes k → t = nowVC (ht.node srv k).header.current) ∧
      (¬ m.Deletes k → t = (ht.node srv k).header.current) := by
  cases h with
  | create => simp [TreeMsg.stampsFor] at htm
  | insert =>
    refine ⟨fun hd => by simp [TreeMsg.Deletes, TreeMsg.deleteOf] at hd, fun _ => ?_⟩
    simp only [TreeMsg.stampsFor, List.mem_append, List.mem_ite_nil_right,
      List.mem_singleton] at htm
    rcases htm with ⟨rfl, rfl⟩ | ⟨rfl, rfl⟩ <;> rfl
  | delete =>
    simp only [TreeMsg.stampsFor, List.mem_ite_nil_right, List.mem_singleton] at htm
    obtain ⟨rfl, rfl⟩ := htm
    exact ⟨fun _ => rfl, fun hd => absurd rfl hd⟩
  | changeValue =>
    refine ⟨fun hd => by simp [TreeMsg.Deletes, TreeMsg.deleteOf] at hd, fun _ => ?_⟩
    simp only [TreeMsg.stampsFor, List.mem_ite_nil_right, List.mem_singleton] at htm
    obtain ⟨rfl, rfl⟩ := htm
    rfl
  | move =>
    refine ⟨fun hd => by simp [TreeMsg.Deletes, TreeMsg.deleteOf] at hd, fun _ => ?_⟩
    simp only [TreeMsg.stampsFor, List.mem_append, List.mem_ite_nil_right,
      List.mem_singleton] at htm
    rcases htm with ⟨rfl, rfl⟩ | ⟨rfl, rfl⟩ <;> rfl

/-- A message that brings two clocks for one header brings the same one twice. -/
theorem Accepts.head_stampsFor {srv : Server} {fuel : ℕ} {cmd : TreeCmd} {m : TreeMsg}
    (h : Accepts srv ht fuel cmd m) {t : VC} (htm : t ∈ m.stampsFor k) :
    (m.stampsFor k).head?.elim 0 VC.entry = t.entry := by
  cases hl : m.stampsFor k with
  | nil => simp [hl] at htm
  | cons t' l =>
    have ht' : t' ∈ m.stampsFor k := by simp [hl]
    rw [List.head?_cons, Option.elim_some]
    by_cases hd : m.Deletes k
    · rw [(h.stampsFor ht').1 hd, (h.stampsFor htm).1 hd]
    · rw [(h.stampsFor ht').2 hd, (h.stampsFor htm).2 hd]

theorem headerStamp_eq (hg : Reachable (rwTree iter) C g) :
    ∀ e ∈ g.log, ∀ k, ∀ t ∈ e.msg.stampsFor k, headerStamp k e = t.entry := by
  refine tree_log_invariant (by simp [OpBased.start]) ?_ hg
  intro g g' r fuel cmd m ht _ _ _ _ _ hacc k t htm
  exact hacc.head_stampsFor htm

theorem stampEntries_eq (hg : Reachable (rwTree iter) C g) {A : List (TreeEvent N)}
    (hA : ∀ d ∈ A, d ∈ g.log) (k : Sds) :
    stampEntries A k = stamps (Stamped k) (headerStamp k) A := by
  ext c
  constructor
  · rintro ⟨d, hd, t, htm, rfl⟩
    exact ⟨d, ⟨hd, List.ne_nil_of_mem htm⟩, headerStamp_eq hg d (hA d hd) k t htm⟩
  · rintro ⟨d, ⟨hd, hne⟩, rfl⟩
    obtain ⟨t, htm⟩ := List.exists_mem_of_ne_nil _ hne
    exact ⟨d, hd, t, htm, headerStamp_eq hg d (hA d hd) k t htm⟩

theorem isLUB_header_of_reachable (hg : Reachable (rwTree iter) C g) (hs : g.state r = some ht)
    (k : Sds) : IsLUB (insert 0 (stamps (Stamped k) (headerStamp k) (g.applied r)))
      (ht.node (.of iter r) k).header.current.entry := by
  rw [← stampEntries_eq hg fun d hd => (Reachable.wellFormed hg).applied_mem hd]
  exact isLUB_current_of_reachable hg r hs k

theorem stamped_of_deletes (h : e.msg.Deletes k) : Stamped k e := by
  rw [Stamped]
  rw [TreeMsg.Deletes] at h
  cases hm : e.msg with
  | delete uid t =>
    rw [hm] at h
    rw [TreeMsg.stampsFor, if_pos (Option.some.inj h).symm]
    exact List.cons_ne_nil _ _
  | _ =>
    rw [hm] at h
    cases h

/-- **Header clocks count deletes**, in every run. -/
theorem removes_counting (hg : Reachable (rwTree iter) C g) (k : Sds) :
    Counting Fin.val (Stamped k) (fun e => e.msg.Deletes k) (headerStamp k) g.log := by
  refine ⟨Fin.val_injective, stamped_of_deletes, ?_, ?_⟩
  · refine tree_log_invariant (by simp [OpBased.start]) ?_ hg
    intro g g' r fuel cmd m ht hg _ _ _ hs hacc hd
    obtain ⟨t, htm⟩ := List.exists_mem_of_ne_nil _ (stamped_of_deletes (e := g.event r m) hd)
    refine ⟨_, isLUB_header_of_reachable hg hs k, ?_⟩
    have hkept := (treeShape_of_reachable hg r hs k).current
    have hid : (ht.node (.of iter r) k).header.current.id.toNat = r.val := by
      rw [hkept.id]
      simp [Server.of]
    have hlt : (ht.node (.of iter r) k).header.current.id.toNat <
        (ht.node (.of iter r) k).header.current.size := by
      rw [hid, hkept.size]
      exact r.isLt
    have hstamp : headerStamp k (g.event r m) = t.entry := hacc.head_stampsFor htm
    rw [hstamp, (hacc.stampsFor htm).1 hd, entry_nowVC hlt, hid]
    rfl
  · refine tree_log_invariant (by simp [OpBased.start]) ?_ hg
    intro g g' r fuel cmd m ht hg _ _ _ hs hacc hst hd
    obtain ⟨t, htm⟩ := List.exists_mem_of_ne_nil _ hst
    have hstamp : headerStamp k (g.event r m) = t.entry := hacc.head_stampsFor htm
    rw [hstamp, (hacc.stampsFor htm).2 hd]
    exact isLUB_header_of_reachable hg hs k

/-! ### Deletes and inserts as they arrive -/

theorem TreeApplies.inOrder_start (hC : ∀ {g a g'}, C g a g' → causal g a g')
    (ha : TreeApplies iter C (rwTree iter).start g g' r e ht) :
    InOrder (rwTree iter).start g g' r e := by
  have h₀ : Reachable (rwTree iter) C (rwTree iter).start := .refl
  exact ha.inOrder hC h₀ (by simp [Delivered, OpBased.start])

/-- **A delete removes**, when it arrives in causal order. -/
theorem TreeApplies.removeCheck (hC : ∀ {g a g'}, C g a g' → causal g a g')
    (ha : TreeApplies iter C (rwTree iter).start g g' r e ht) {uid : Sds} {t : VC}
    (hm : e.msg = .delete uid t) :
    removeCheck (ht.node (.of iter r) (sdsnew uid)).header t := by
  have ho := ha.inOrder_start hC
  have hd : e.msg.Deletes (sdsnew uid) := by rw [hm]; rfl
  have htm : t ∈ e.msg.stampsFor (sdsnew uid) := by simp [hm, TreeMsg.stampsFor]
  obtain ⟨ht₀, hs, hnode⟩ := ha.state
  obtain ⟨-, hown⟩ := (removes_counting ha.after (sdsnew uid)).next
    (Reachable.wellFormed ha.after) ho.applied_mem ho.closed
    (isLUB_header_of_reachable ha.before hs (sdsnew uid)) ha.mem hd ho.fresh ho.deps
  rw [headerStamp_eq ha.after e ha.mem _ t htm, hnode] at hown
  rw [removeCheck_iff (ha.size htm)]
  intro hle
  have hle' : t.entry e.origin.val ≤
      (ht.node (.of iter r) (sdsnew uid)).header.current.entry e.origin.val := hle _
  omega

/-- **An insert gets its node** when its origin knew all the deletes of it. -/
theorem TreeApplies.insertCheck (hC : ∀ {g a g'}, C g a g' → causal g a g')
    (ha : TreeApplies iter C (rwTree iter).start g g' r e ht) {name parent uid : Sds} {rp t : VC}
    (hm : e.msg = .insert name parent uid rp t) :
    t.entry = (ht.node (.of iter r) (sdsnew uid)).header.current.entry ↔
      ∀ d ∈ g.applied r, d.msg.Deletes (sdsnew uid) → d ∈ e.deps := by
  have ho := ha.inOrder_start hC
  have htm : t ∈ e.msg.stampsFor (sdsnew uid) := by simp [hm, TreeMsg.stampsFor]
  have hnd : ¬ e.msg.Deletes (sdsnew uid) := by rw [hm]; rintro ⟨⟩
  obtain ⟨ht₀, hs, hnode⟩ := ha.state
  have hcount := removes_counting ha.after (sdsnew uid)
  have hlub := isLUB_header_of_reachable ha.before hs (sdsnew uid)
  have hlube := hcount.unmarked e ha.mem (List.ne_nil_of_mem htm) hnd
  rw [headerStamp_eq ha.after e ha.mem _ t htm] at hlube
  have hdeps : ∀ d ∈ e.deps, d ∈ g'.log := fun d hd => ho.applied_mem d (ho.deps d hd)
  rw [← hcount.le_iff (Reachable.wellFormed ha.after) ho.applied_mem ho.closed hlub hdeps
    ho.closed_deps hlube, hnode]
  have hcalm := ha.calm hC (by rw [hm]; rfl) htm
  rw [removeCheck_iff (ha.size htm), not_not] at hcalm
  exact ⟨fun h => h.ge, fun h => le_antisymm hcalm h⟩

/-! ### The state of a replica -/

/-- The insert `e` of the node with key `k` is one that all applied deletes of it are known to. -/
structure Live (A : List (TreeEvent N)) (k : Sds) (e : TreeEvent N)
    (c : Sds × Sds × Sds) : Prop where
  mem : e ∈ A
  /-- What it inserts. -/
  inserts : e.msg.Inserts k c
  deletes : ∀ d ∈ A, d.msg.Deletes k → d ∈ e.deps

/-- The node with key `k` is as the insert `e` left it: no applied delete of it knows that insert,
and the node is a child of the parent it names and of no other. -/
structure Hung (A : List (TreeEvent N)) (F : Forest) (k : Sds)
    (e : TreeEvent N) (c : Sds × Sds × Sds) : Prop where
  mem : e ∈ A
  /-- What it inserts. -/
  inserts : e.msg.Inserts k c
  deletes : ∀ d ∈ A, d.msg.Deletes k → e ∉ d.deps
  uid : (F k).uid = some c.1
  name : (F k).name = some c.2.1
  parent : (F k).parent = some c.2.2
  children : ∀ q y, sdsnew y = k → (y ∈ (F q).children ↔ y = c.1 ∧ q = sdsnew c.2.2)

/-- The node with key `k` has lost all its inserts and is nobody's child. -/
structure Gone (A : List (TreeEvent N)) (F : Forest) (k : Sds) : Prop where
  not_live : ∀ e c, ¬ Live A k e c
  children : ∀ q y, sdsnew y = k → y ∉ (F q).children

variable {A B : List (TreeEvent N)} {F F' : Forest} {c : Sds × Sds × Sds}

theorem Live.congr (h : Live A k e c) (hAB : ∀ e, e ∈ A ↔ e ∈ B) : Live B k e c :=
  ⟨(hAB e).mp h.mem, h.inserts, fun d hd => h.deletes d ((hAB d).mpr hd)⟩

theorem TreeMsg.Inserts.unique {m : TreeMsg} {k' : Sds} {c' : Sds × Sds × Sds}
    (h : m.Inserts k c) (h' : m.Inserts k' c') : c = c' ∧ k = k' := by
  obtain rfl := Option.some.inj (h.1.symm.trans h'.1)
  exact ⟨rfl, h.2.symm.trans h'.2⟩

theorem live_concat_of_not {a : TreeEvent N} (hi : ∀ c, ¬ e.msg.Inserts k c)
    (hd : ¬ e.msg.Deletes k) : Live (A ++ [e]) k a c ↔ Live A k a c := by
  constructor
  · rintro ⟨hmem, hins, hdel⟩
    rw [List.mem_append, List.mem_singleton] at hmem
    rcases hmem with hmem | rfl
    · exact ⟨hmem, hins, fun d hd => hdel d (List.mem_append_left _ hd)⟩
    · exact absurd hins (hi c)
  · rintro ⟨hmem, hins, hdel⟩
    refine ⟨List.mem_append_left _ hmem, hins, fun d hdA hdk => ?_⟩
    rw [List.mem_append, List.mem_singleton] at hdA
    rcases hdA with hdA | rfl
    · exact hdel d hdA hdk
    · exact absurd hdk hd

theorem live_concat_of_inserts {a : TreeEvent N} {c' : Sds × Sds × Sds}
    (hi : e.msg.Inserts k c) (hd : ¬ e.msg.Deletes k) : Live (A ++ [e]) k a c' ↔
      Live A k a c' ∨ (a = e ∧ c' = c ∧ ∀ d ∈ A, d.msg.Deletes k → d ∈ e.deps) := by
  have hold : ∀ a : TreeEvent N, (∀ d ∈ A ++ [e], d.msg.Deletes k → d ∈ a.deps) ↔
      ∀ d ∈ A, d.msg.Deletes k → d ∈ a.deps := by
    intro a
    refine ⟨fun h d hdA => h d (List.mem_append_left _ hdA), fun h d hdA hdk => ?_⟩
    rw [List.mem_append, List.mem_singleton] at hdA
    rcases hdA with hdA | rfl
    · exact h d hdA hdk
    · exact absurd hdk hd
  constructor
  · rintro ⟨hmem, hins, hdel⟩
    rw [List.mem_append, List.mem_singleton] at hmem
    rcases hmem with hmem | rfl
    · exact .inl ⟨hmem, hins, (hold a).mp hdel⟩
    · exact .inr ⟨rfl, (hi.unique hins).1.symm, (hold a).mp hdel⟩
  · rintro (⟨hmem, hins, hdel⟩ | ⟨rfl, rfl, hdel⟩)
    · exact ⟨List.mem_append_left _ hmem, hins, (hold a).mpr hdel⟩
    · exact ⟨by simp, hi, (hold a).mpr hdel⟩

/-- After a delete no insert is live, since none that has been applied knows it. -/
theorem not_live_concat_of_deletes (hA : Closed A) (he : e ∉ A) (hself : e ∉ e.deps)
    (hd : e.msg.Deletes k) {a : TreeEvent N} : ¬ Live (A ++ [e]) k a c := by
  rintro ⟨hmem, -, hdel⟩
  have hea := hdel e (by simp) hd
  rw [List.mem_append, List.mem_singleton] at hmem
  rcases hmem with hmem | rfl
  · exact he (hA a hmem e hea)
  · exact hself hea

theorem Hung.concat_of_not {a : TreeEvent N} (h : Hung A F k a c)
    (hd : ¬ e.msg.Deletes k) (huid : (F' k).uid = (F k).uid) (hname : (F' k).name = (F k).name)
    (hparent : (F' k).parent = (F k).parent)
    (hchildren : ∀ q y, sdsnew y = k → (y ∈ (F' q).children ↔ y ∈ (F q).children)) :
    Hung (A ++ [e]) F' k a c := by
  refine ⟨List.mem_append_left _ h.mem, h.inserts, fun d hdA hdk => ?_, huid.trans h.uid,
    hname.trans h.name, hparent.trans h.parent, fun q y hy => (hchildren q y hy).trans
      (h.children q y hy)⟩
  rw [List.mem_append, List.mem_singleton] at hdA
  rcases hdA with hdA | rfl
  · exact h.deletes d hdA hdk
  · exact absurd hdk hd

/-- **A live insert is the one the node is hung by**, up to inserts of the same. -/
theorem Hung.eq_of_live {a b : TreeEvent N} {c' : Sds × Sds × Sds}
    (h : Hung A F k a c) (hb : Live A k b c') (w : g.WellFormed) (hA : ∀ d ∈ A, d ∈ g.log)
    (hcl : Closed A) (hsep : Separated g.log) : c = c' := by
  by_contra hne
  obtain ⟨d, hdk, ⟨had, hdb⟩ | ⟨hbd, hda⟩⟩ :=
    hsep a (hA a h.mem) b (hA b hb.mem) k c c' h.inserts hb.inserts hne
  · exact h.deletes d (hcl b hb.mem d hdb) hdk had
  · have hdA := hcl a h.mem d hda
    have hlt := (w.deps_mem (hA d hdA) hbd).2
    have hlt' := (w.deps_mem (hA b hb.mem) (hb.deletes d hdA hdk)).2
    omega

/-- The state of the node with key `k`, other than the root. -/
structure KeyOk (A : List (TreeEvent N)) (F : Forest) (k : Sds) : Prop where
  hung : Gone A F k ∨ ∃ e c, Hung A F k e c
  exists_iff : (F k).header.Exists ↔ ∃ e c, Live A k e c
  uid : (∃ e ∈ A, ∃ c, e.msg.Inserts k c) → (F k).uid ≠ none

/-- The state of the root. -/
structure RootOk (A : List (TreeEvent N)) (F : Forest) : Prop where
  exists_iff : (F rootId).header.Exists ↔ Created A
  uid : Created A → (F rootId).uid = some rootId
  name : Created A → (F rootId).name = some treeRoot
  parent : Created A → (F rootId).parent = some nullId
  children : ∀ q y, sdsnew y = rootId → y ∉ (F q).children

/-- **The state of a replica.** -/
structure Churned (A : List (TreeEvent N)) (F : Forest) : Prop where
  unwritten : ∀ k, checkInitVC (F k).vectorClock
  key : ∀ k, k ≠ rootId → KeyOk A F k
  /-- The root. -/
  root : RootOk A F

theorem churned_rtnNew (srv : Server) :
    Churned ([] : List (TreeEvent N)) fun _ => rtnNew srv where
  unwritten _ := by simp [checkInitVC, rtnNew]
  key k _ := by
    have hlive : ∀ e c, ¬ Live ([] : List (TreeEvent N)) k e c := fun e c h =>
      List.not_mem_nil h.mem
    refine ⟨.inl ⟨hlive, fun q y _ => SetObj.notMem_empty y⟩, ?_, fun h => by simp at h⟩
    exact iff_of_false (not_exists_rtnNew srv) fun h => hlive _ _ h.choose_spec.choose_spec
  root :=
    ⟨iff_of_false (not_exists_rtnNew srv) (by simp [Created]), fun h => by simp [Created] at h,
      fun h => by simp [Created] at h, fun h => by simp [Created] at h,
      fun q y _ => SetObj.notMem_empty y⟩

theorem KeyOk.kept (h : KeyOk A F k) (hi : ∀ c, ¬ e.msg.Inserts k c) (hd : ¬ e.msg.Deletes k)
    (hheader : (F' k).header = (F k).header) (huid : (F' k).uid = (F k).uid)
    (hname : (F' k).name = (F k).name) (hparent : (F' k).parent = (F k).parent)
    (hchildren : ∀ q y, sdsnew y = k → (y ∈ (F' q).children ↔ y ∈ (F q).children)) :
    KeyOk (A ++ [e]) F' k := by
  refine ⟨?_, ?_, ?_⟩
  · rcases h.hung with ⟨hlive, hgone⟩ | ⟨a, c, hhung⟩
    · refine .inl ⟨fun a c ha => hlive a c ((live_concat_of_not hi hd).mp ha), ?_⟩
      exact fun q y hy => hgone q y hy ∘ (hchildren q y hy).mp
    · exact .inr ⟨a, c, hhung.concat_of_not hd huid hname hparent hchildren⟩
  · rw [hheader, h.exists_iff]
    exact exists_congr fun a => exists_congr fun c => (live_concat_of_not hi hd).symm
  · rintro ⟨a, ha, c, hins⟩
    rw [List.mem_append, List.mem_singleton] at ha
    rcases ha with ha | rfl
    · rw [huid]
      exact h.uid ⟨a, ha, c, hins⟩
    · exact absurd hins (hi c)

/-- Anything but a create leaves the root alone, as long as it does not put it under a node. -/
theorem RootOk.kept (h : RootOk A F) (hm : e.msg.isCreate = false)
    (hheader : (F' rootId).header.Exists ↔ (F rootId).header.Exists)
    (huid : (F' rootId).uid = (F rootId).uid) (hname : (F' rootId).name = (F rootId).name)
    (hparent : (F' rootId).parent = (F rootId).parent)
    (hchildren : ∀ q y, sdsnew y = rootId → y ∈ (F' q).children → y ∈ (F q).children) :
    RootOk (A ++ [e]) F' := by
  have hc : Created (A ++ [e]) ↔ Created A := by simp [created_concat, hm]
  exact ⟨by rw [hheader, hc, h.exists_iff], fun h' => huid.trans (h.uid (hc.mp h')),
    fun h' => hname.trans (h.name (hc.mp h')), fun h' => hparent.trans (h.parent (hc.mp h')),
    fun q y hy hq => h.children q y hy (hchildren q y hy hq)⟩

theorem Churned.create {srv : Server} (h : Churned A (ht.node srv)) (hpid : 0 ≤ srv.p2pId)
    (hm : e.msg = .create) : Churned (A ++ [e]) ((createEffect srv ht).node srv) := by
  have hc : Created (A ++ [e]) := created_concat.mpr (.inr (by rw [hm]; rfl))
  refine ⟨fun k => ?_, fun k hk => ?_, ?_⟩
  · rw [(frame_createEffect k).vectorClock]
    exact h.unwritten k
  · refine (h.key k hk).kept (fun c hi => by rw [hm] at hi; cases hi.1)
      (fun hd => by rw [hm] at hd; cases hd) ?_ ?_ ?_ ?_ fun q y _ => by rw [children_createEffect]
    all_goals rw [node_createEffect_of_ne hk]
  · refine ⟨iff_of_true ?_ hc, fun _ => ?_, fun _ => ?_, fun _ => ?_, fun q y hy => ?_⟩
    · rw [node_createEffect_rootId]
      exact hpid
    · rw [node_createEffect_rootId]
    · rw [node_createEffect_rootId]
    · rw [node_createEffect_rootId]
    · rw [children_createEffect]
      exact h.root.children q y hy

/-- An insert that arrives finds the node as an insert of the same left it, if it hangs at all. -/
theorem Hung.eq_of_inserts {a : TreeEvent N} {c' : Sds × Sds × Sds}
    (h : Hung (g.applied r) F k a c) (ho : InOrder (rwTree iter).start g g' r e) (he : e ∈ g'.log)
    (hi : e.msg.Inserts k c') (hsep : Separated g'.log) : c = c' := by
  by_contra hne
  obtain ⟨d, hdk, ⟨had, hde⟩ | ⟨hed, hda⟩⟩ :=
    hsep a (ho.applied_mem a h.mem) e he k c c' h.inserts hi hne
  · exact h.deletes d (ho.deps d hde) hdk had
  · exact ho.fresh (ho.closed d (ho.closed a h.mem d hda) e hed)

/-- **An insert that arrives.** -/
theorem Churned.insert (hC : ∀ {g a g'}, C g a g' → causal g a g')
    (ha : TreeApplies iter C (rwTree iter).start g g' r e ht) (hsep : Separated g'.log)
    {name parent uid : Sds} {rp t : VC} (hm : e.msg = .insert name parent uid rp t)
    (hroot : sdsnew uid ≠ rootId) (h : Churned (g.applied r) (ht.node (.of iter r))) :
    ∃ ht', treeEffect (.of iter r) ht e.msg = some ht' ∧
      Churned (g.applied r ++ [e]) (ht'.node (.of iter r)) := by
  have ho := ha.inOrder_start hC
  have hnone : e.msg.deleteOf = none := by rw [hm]; rfl
  have hnd : ∀ k, ¬ e.msg.Deletes k := by
    intro k hd
    rw [TreeMsg.Deletes, hnone] at hd
    cases hd
  have hi : e.msg.Inserts (sdsnew uid) (uid, name, parent) := ⟨by rw [hm]; rfl, rfl⟩
  have hi' : ∀ k, k ≠ sdsnew uid → ∀ c, ¬ e.msg.Inserts k c := fun k hk c hc =>
    hk (hc.unique hi).2
  have htm : t ∈ e.msg.stampsFor (sdsnew uid) := by simp [hm, TreeMsg.stampsFor]
  obtain ⟨ht', heff, hnode⟩ : ∃ ht', insertEffect (.of iter r) name parent uid rp t ht = some ht' ∧
      _ := insertEffect_of_calm (ha.calm hC hnone (by simp [hm, TreeMsg.stampsFor]))
    (ha.calm hC hnone htm)
  have hother : ∀ q y, sdsnew y ≠ sdsnew uid →
      (y ∈ (ht'.node (.of iter r) q).children ↔ y ∈ (ht.node (.of iter r) q).children) := by
    intro q y hy
    rw [hnode, mem_ite_setTypeAdd]
    exact or_iff_left fun heq => hy (congrArg sdsnew heq.2)
  refine ⟨ht', by rw [hm]; exact heff, fun k => ?_, fun k hk => ?_, ?_⟩
  · rw [hnode]
    exact h.unwritten k
  · by_cases hku : k = sdsnew uid
    · subst hku
      have hkey := h.key _ hk
      -- whatever the node was a child of is what it is inserted under now
      have hold : ∀ q y, sdsnew y = sdsnew uid → y ∈ (ht.node (.of iter r) q).children →
          y = uid ∧ q = sdsnew parent := by
        intro q y hy hmem
        rcases hkey.hung with hgone | ⟨a, c, hhung⟩
        · exact absurd hmem (hgone.children q y hy)
        · obtain rfl := hhung.eq_of_inserts ho ha.mem hi hsep
          exact (hhung.children q y hy).mp hmem
      refine ⟨.inr ⟨e, _, by simp, hi, ?_, ?_, ?_, ?_, ?_⟩, ?_, ?_⟩
      · intro d hd hdk hed
        rw [List.mem_append, List.mem_singleton] at hd
        rcases hd with hd | rfl
        · exact ho.fresh (ho.closed d hd e hed)
        · exact hnd _ hdk
      · rw [hnode]
        exact if_pos rfl
      · rw [hnode]
        exact if_pos ⟨rfl, h.unwritten _⟩
      · rw [hnode]
        exact if_pos rfl
      · intro q y hy
        rw [hnode, mem_ite_setTypeAdd, and_comm]
        exact or_iff_right_of_imp (hold q y hy)
      · have hid : 0 ≤ t.id := by
          have hkept := treeClock_of_reachable ha.after e ha.mem t (TreeMsg.mem_clocks htm)
          rw [hkept.id]
          simp [Server.of]
        have hheader : (ht'.node (.of iter r) (sdsnew uid)).header =
            (ht.node (.of iter r) (sdsnew uid)).header.ins t := by
          rw [hnode]
          exact if_pos rfl
        rw [hheader, Reh.exists_ins (ha.size htm) hid, hkey.exists_iff, ha.insertCheck hC hm]
        constructor
        · rintro (⟨a, c, hlive⟩ | hall)
          · exact ⟨a, c, (live_concat_of_inserts hi (hnd _)).mpr (.inl hlive)⟩
          · exact ⟨e, _, (live_concat_of_inserts hi (hnd _)).mpr (.inr ⟨rfl, rfl, hall⟩)⟩
        · rintro ⟨a, c, hlive⟩
          rcases (live_concat_of_inserts hi (hnd _)).mp hlive with hlive | ⟨-, -, hall⟩
          · exact .inl ⟨a, c, hlive⟩
          · exact .inr hall
      · intro _
        rw [hnode]
        simp
    · refine (h.key k hk).kept (hi' k hku) (hnd k) ?_ ?_ ?_ ?_ fun q y hy =>
        hother q y (hy.trans_ne hku)
      all_goals
        rw [hnode]
        simp [hku]
  · refine h.root.kept (by rw [hm]; rfl) ?_ ?_ ?_ ?_ fun q y hy =>
      (hother q y (hy.trans_ne hroot.symm)).mp
    all_goals
      rw [hnode]
      simp [hroot.symm]

/-- **A delete that arrives.** -/
theorem Churned.delete (hC : ∀ {g a g'}, C g a g' → causal g a g')
    (ha : TreeApplies iter C (rwTree iter).start g g' r e ht) {uid : Sds} {t : VC}
    (hm : e.msg = .delete uid t) (hroot : sdsnew uid ≠ rootId)
    (hin : ∃ d ∈ e.deps, ∃ c, d.msg.Inserts (sdsnew uid) c)
    (h : Churned (g.applied r) (ht.node (.of iter r))) :
    ∃ ht', treeEffect (.of iter r) ht e.msg = some ht' ∧
      Churned (g.applied r ++ [e]) (ht'.node (.of iter r)) := by
  have ho := ha.inOrder_start hC
  have hself := (Reachable.wellFormed ha.after).notMem_deps ha.mem
  have hkey := h.key _ hroot
  obtain ⟨d, hd, c, hins⟩ := hin
  obtain ⟨u, hu⟩ := Option.ne_none_iff_exists'.mp (hkey.uid ⟨d, ho.deps d hd, c, hins⟩)
  have huk : sdsnew u = sdsnew uid := by
    obtain ⟨ht₀, hs, hnode⟩ := ha.state
    exact (uid_of_reachable ha.before r hs _).2 u (by rw [hnode, hu])
  have hi : ∀ k c, ¬ e.msg.Inserts k c := by
    rintro k c ⟨hc, -⟩
    rw [hm] at hc
    cases hc
  have hdel : e.msg.Deletes (sdsnew uid) := by rw [hm]; rfl
  have hnd : ∀ k, k ≠ sdsnew uid → ¬ e.msg.Deletes k := fun k hk hd =>
    hk (Option.some.inj (hd.symm.trans hdel))
  have hr : removeCheck ((ht.create (.of iter r) (sdsnew uid)).node (.of iter r)
      (sdsnew uid)).header t := by
    rw [TreeHT.node_create]
    exact ha.removeCheck hC hm
  obtain ⟨ht', heff⟩ : ∃ ht', tRemFunc (.of iter r) (ht.create (.of iter r) (sdsnew uid))
      (sdsnew uid) t = some ht' := exists_tRemFunc fun hnone => by
    rw [TreeHT.node_create, hu] at hnone
    cases hnone
  have hmem := mem_children_tRemFunc hr heff
  have hframe := frame_tRemFunc heff
  have hgone := (gone_tRemFunc hr heff).1
  have hne : ∀ {k}, k ≠ sdsnew uid → _ := fun hk => tRemFunc_of_ne heff hk
  simp only [TreeHT.node_create] at hmem hframe hne
  have hother : ∀ q y, sdsnew y ≠ sdsnew uid →
      (y ∈ (ht'.node (.of iter r) q).children ↔ y ∈ (ht.node (.of iter r) q).children) := by
    intro q y hy
    rw [hmem]
    rw [hu]
    exact and_iff_left fun hyu => hy (by rw [← Option.some.inj hyu.2, huk])
  refine ⟨ht', by rw [hm]; exact heff, fun k => ?_, fun k hk => ?_, ?_⟩
  · rw [(hframe k).2.2.1]
    exact h.unwritten k
  · by_cases hku : k = sdsnew uid
    · subst hku
      have hdead : ∀ a c, ¬ Live (g.applied r ++ [e]) (sdsnew uid) a c := fun a c =>
        not_live_concat_of_deletes ho.closed ho.fresh hself hdel
      refine ⟨.inl ⟨hdead, fun q y hy => ?_⟩, ?_, ?_⟩
      · rw [hmem]
        rintro ⟨hyq, hne⟩
        rcases hkey.hung with hgone | ⟨a, c, hhung⟩
        · exact hgone.children q y hy hyq
        · obtain ⟨rfl, rfl⟩ := (hhung.children q y hy).mp hyq
          exact hne ⟨by rw [hhung.parent, sdsnewNull_some], hhung.uid⟩
      · exact iff_of_false hgone fun hl => hdead _ _ hl.choose_spec.choose_spec
      · rw [(hframe _).1, hu]
        simp
    · exact (h.key k hk).kept (hi k) (hnd k hku) (hne hku).1 (hframe k).1 (hframe k).2.1
        (hne hku).2 fun q y hy => hother q y (hy.trans_ne hku)
  · refine h.root.kept (by rw [hm]; rfl) ?_ (hframe _).1 (hframe _).2.1 (hne hroot.symm).2
      fun q y hy => (hother q y (hy.trans_ne hroot.symm)).mp
    rw [(hne hroot.symm).1]

/-! ### Runs -/

/-- What is true of a message of the discipline, given what its origin had applied. -/
inductive ChurnMsg (deps : List (TreeEvent N)) : TreeMsg → Prop
  | create : ChurnMsg deps .create
  | insert {name parent uid : Sds} {rp t : VC} (hroot : sdsnew uid ≠ rootId) :
      ChurnMsg deps (.insert name parent uid rp t)
  | delete {uid : Sds} {t : VC} (hroot : sdsnew uid ≠ rootId)
      (hin : ∃ d ∈ deps, ∃ c, d.msg.Inserts (sdsnew uid) c) : ChurnMsg deps (.delete uid t)

/-- **All along a run** of inserts and deletes that are separated, replicas are up and their
nodes are as the applied events say. -/
theorem churned_of_reachable (hg : Reachable (rwTree iter) churn g) (hsep : Separated g.log) :
    ∀ r, ∃ ht, g.state r = some ht ∧ Churned (g.applied r) (ht.node (.of iter r)) := by
  refine (tree_apply_invariant (J := fun e => ChurnMsg e.deps e.msg)
    (P := fun _ A F => Churned A F) ?_ (by simp [OpBased.start]) ?_ ?_
    (hg.and_log (K := Separated) (fun _ _ => Separated.of_append) hsep)).2
  · exact fun r => ⟨.empty, rfl, churned_rtnNew _⟩
  · intro g g' r fuel cmd m ht _ _ _ hP hc _ _ hacc
    cases hacc with
    | create => exact .create
    | insert _ hu => exact .insert (ne_rootId_of_istreeMember hu)
    | @delete uid hu =>
      have hroot : sdsnew uid ≠ rootId := hc.1.2
      refine .delete hroot ?_
      have hex := (exists_of_istreeMember (.of iter r) hu).resolve_left hroot
      obtain ⟨e, c, hlive⟩ := (hP.key _ hroot).exists_iff.mp hex
      exact ⟨e, hlive.mem, c, hlive.inserts⟩
    | _ => exact absurd hc.1.2 fun hc => hc
  · intro g g' r e ht ha ihJ hP
    obtain ⟨a, -, hsep'⟩ := ha.cond
    have hmsg := ihJ e ha.mem
    cases hm : e.msg with
    | create => exact ⟨_, rfl, hP.create (by simp [Server.of]) hm⟩
    | insert =>
      rw [hm] at hmsg
      rw [← hm]
      obtain _ | hroot | _ := hmsg
      exact hP.insert (fun hc => hc.1.1) ha hsep' hm hroot
    | delete =>
      rw [hm] at hmsg
      rw [← hm]
      obtain _ | _ | ⟨hroot, hin⟩ := hmsg
      exact hP.delete (fun hc => hc.1.1) ha hm hroot hin
    | _ =>
      rw [hm] at hmsg
      cases hmsg

/-! ### What is listed -/

theorem Churned.hung_of_mem (h : Churned A F) {q y : Sds} (hy : y ∈ (F q).children) :
    ∃ e c, Hung A F (sdsnew y) e c ∧ y = c.1 ∧ q = sdsnew c.2.2 := by
  have hroot : sdsnew y ≠ rootId := fun hr => h.root.children q y hr hy
  rcases (h.key _ hroot).hung with hgone | ⟨e, c, hhung⟩
  · exact absurd hy (hgone.children q y rfl)
  · exact ⟨e, c, hhung, (hhung.children q y rfl).mp hy⟩

/-- **Walks from the root end**: no node has two parents. -/
theorem Churned.acc_rootId (h : Churned A F) (srv : Server) :
    Acc (Below (alive F) (childIds srv F)) rootId := by
  have hkey : sdsnew rootId = rootId := by decide
  by_cases hc : Created A
  · have hacc : Acc (fun y x => (F (sdsnew x)).uid = some x ∧ y ∈ (F (sdsnew x)).children)
        rootId := by
      refine acc_of_unique ?_ ?_ ?_
      · refine (A.filterMap fun e => e.msg.insertOf.map Prod.fst).finite_toSet.subset ?_
        rintro y ⟨x, -, hy⟩
        obtain ⟨e, c, hhung, rfl, -⟩ := h.hung_of_mem hy
        exact List.mem_filterMap.mpr ⟨e, hhung.mem, by rw [hhung.inserts.1, Option.map_some]⟩
      · rintro x x' y ⟨hx, hy⟩ ⟨hx', hy'⟩
        obtain ⟨e, c, hhung, -, hq⟩ := h.hung_of_mem hy
        obtain ⟨e', c', hhung', -, hq'⟩ := h.hung_of_mem hy'
        have hparent := Option.some.inj (hhung.parent.symm.trans hhung'.parent)
        rw [hq, hparent, ← hq'] at hx
        exact Option.some.inj (hx.symm.trans hx')
      · rintro x ⟨-, hy⟩
        exact h.root.children _ _ hkey hy
    -- the walk meets every node under its own id
    have hwalk : ∀ x, Acc (fun y x => (F (sdsnew x)).uid = some x ∧ y ∈ (F (sdsnew x)).children)
        x → (F (sdsnew x)).uid = some x → Acc (Below (alive F) (childIds srv F)) x := by
      intro x hx
      induction hx with
      | intro x _ ih =>
        intro hu
        refine Acc.intro x ?_
        rintro y ⟨-, hy⟩
        rw [mem_childIds] at hy
        refine ih y ⟨hu, hy⟩ ?_
        obtain ⟨e, c, hhung, hyc, -⟩ := h.hung_of_mem hy
        rw [hhung.uid, ← hyc]
    exact hwalk rootId hacc (by rw [hkey, h.root.uid hc])
  · refine Acc.intro rootId ?_
    rintro y ⟨hal, -⟩
    rw [alive_iff, hkey, h.root.exists_iff] at hal
    exact absurd hal hc

/-- **Replicas agree on the nodes that are there**, once they have applied the same events. -/
theorem Churned.agree (h : Churned A F) (h' : Churned B F') (hAB : ∀ e, e ∈ A ↔ e ∈ B)
    (w : g.WellFormed) (hA : ∀ d ∈ A, d ∈ g.log) (hcl : Closed A) (hsep : Separated g.log)
    (hex : (F k).header.Exists) :
    (F' k).header.Exists ∧ (F' k).name = (F k).name ∧ (F' k).parent = (F k).parent ∧
      ∀ q y, sdsnew y = k → y ∈ (F q).children → y ∈ (F' q).children := by
  have hB : ∀ d ∈ B, d ∈ g.log := fun d hd => hA d ((hAB d).mpr hd)
  have hcl' : Closed B := fun e he d hd => (hAB d).mp (hcl e ((hAB e).mpr he) d hd)
  by_cases hk : k = rootId
  · subst hk
    have hc := h.root.exists_iff.mp hex
    have hc' : Created B := by
      obtain ⟨e, he, hm⟩ := hc
      exact ⟨e, (hAB e).mp he, hm⟩
    refine ⟨h'.root.exists_iff.mpr hc', by rw [h.root.name hc, h'.root.name hc'],
      by rw [h.root.parent hc, h'.root.parent hc'], fun q y hy hmem => ?_⟩
    exact absurd hmem (h.root.children q y hy)
  · obtain ⟨e, c, hlive⟩ := (h.key k hk).exists_iff.mp hex
    have hlive' := hlive.congr hAB
    obtain ⟨a, c₁, hhung⟩ := (h.key k hk).hung.resolve_left fun hgone => hgone.not_live e c hlive
    obtain ⟨b, c₂, hhung'⟩ :=
      (h'.key k hk).hung.resolve_left fun hgone => hgone.not_live e c hlive'
    obtain rfl := hhung.eq_of_live hlive w hA hcl hsep
    obtain rfl := hhung'.eq_of_live hlive' w hB hcl' hsep
    refine ⟨(h'.key k hk).exists_iff.mpr ⟨e, c₂, hlive'⟩, by rw [hhung.name, hhung'.name],
      by rw [hhung.parent, hhung'.parent], fun q y hy hmem => ?_⟩
    exact (hhung'.children q y hy).mpr ((hhung.children q y hy).mp hmem)

theorem Churned.lists_of_lists {srv srv' : Server} {ht' : TreeHT} (h : Churned A (ht.node srv))
    (h' : Churned B (ht'.node srv')) (hAB : ∀ e, e ∈ A ↔ e ∈ B) (w : g.WellFormed)
    (hA : ∀ d ∈ A, d ∈ g.log) (hcl : Closed A) (hsep : Separated g.log) {n n' : ℕ}
    {lines lines' : List TreeLine} (hl : treeMembers srv ht n = some lines)
    (hl' : treeMembers srv' ht' n' = some lines') {x v p : Sds} (hx : Lists lines x v p) :
    Lists lines' x v p := by
  have hagree : ∀ {k}, (ht.node srv k).header.Exists → _ := fun hex =>
    h.agree h' hAB w hA hcl hsep hex
  obtain ⟨y, hvis, hp, rfl, rfl, rfl⟩ := (lists_iff hl x v p).mp hx
  obtain ⟨-, hname, hparent, -⟩ := hagree (alive_iff.mp hvis.end_alive)
  have hp' := (hagree hp).1
  rw [← hparent] at hp'
  rw [← hname, ← hparent]
  refine (lists_iff hl' _ _ _).mpr ⟨y, hvis.mono ?_ ?_, hp', rfl, rfl, rfl⟩
  · exact fun z hz => alive_iff.mpr (hagree (alive_iff.mp hz)).1
  · intro q z hz hmem
    rw [mem_childIds] at hmem ⊢
    exact (hagree (alive_iff.mp hz)).2.2.2 _ z rfl hmem

/-- **Inserts and deletes of the same ids converge** if inserts of one id that differ have a delete
between them: once everything has been delivered, in whatever causal order, all replicas are up and
list the same nodes, values and parents. Clocks are unbounded here: in the code they are exact below
`INT_MAX` and for at most `100` replicas. -/
theorem rwTree_inserts_converge (hg : Reachable (rwTree iter) churn g) (hd : Delivered g)
    (hsep : Separated g.log) : SameMembers iter g := by
  have w := Reachable.wellFormed hg
  have hA : ∀ r, ∀ e ∈ g.applied r, e ∈ g.log := fun r e => w.applied_mem
  have happ : ∀ r r' e, e ∈ g.applied r ↔ e ∈ g.applied r' := fun r r' e =>
    ⟨fun he => hd r' e (hA r e he), fun he => hd r e (hA r' e he)⟩
  have hok := churned_of_reachable hg hsep
  choose ht hs hok using hok
  refine ⟨fun x v p => ∃ r n lines, treeMembers (.of iter r) (ht r) n = some lines ∧
    Lists lines x v p, fun r => ⟨ht r, hs r, ?_, fun n lines hl x v p => ⟨fun hx =>
      ⟨r, n, lines, hl, hx⟩, ?_⟩⟩⟩
  · have hroot : sdsnew rootId = rootId := by decide
    obtain ⟨n, o, hsub⟩ := exists_subTree (hroot ▸ (hok r).acc_rootId _)
    exact ⟨n, _, by rw [treeMembers, hsub, Option.map_some]⟩
  · rintro ⟨r', n', lines', hl', hx⟩
    exact (hok r').lists_of_lists (hok r) (happ r' r) w (hA r') (hd.closed w r') hsep hl' hl hx

end

/-- A node is deleted by two replicas at the same time and inserted again, under another parent,
by the one that has seen both deletes. -/
theorem rwTree_inserts_converge_again :
    ∃ g, Reachable (rwTree (inOrder 2)) churn g ∧ Delivered g ∧
      (∃ e ∈ g.log, e.msg.Inserts [120] ([120], [118], rootId)) ∧
      (∃ e ∈ g.log, e.msg.Inserts [120] ([120], [119], [97])) ∧
      SameMembers (inOrder 2) g := by
  obtain ⟨g, hg, hids, hold, hnew, hsep⟩ :=
    (rwTree (inOrder 2)).exists_reachable churn
      (fun g => (∀ r, ∀ i < g.log.length, i ∈ g.appliedIds r) ∧
        (∃ e ∈ g.log, e.msg.Inserts [120] ([120], [118], rootId)) ∧
        (∃ e ∈ g.log, e.msg.Inserts [120] ([120], [119], [97])) ∧
        ∀ a ∈ g.log, ∀ b ∈ g.log, SeparatedIds g.log a b)
      [.client 0 ⟨0, .create⟩, .client 0 ⟨1, .insert [118] rootId [97]⟩,
        .client 0 ⟨1, .insert [118] rootId [120]⟩, .deliver 1 0, .deliver 1 1, .deliver 1 2,
        .client 0 ⟨1, .delete [120]⟩, .client 1 ⟨1, .delete [120]⟩, .deliver 1 3,
        .client 1 ⟨2, .insert [119] [97] [120]⟩, .deliver 0 4, .deliver 0 5] (by decide)
  have w := Reachable.wellFormed hg
  have hd : Delivered g := w.delivered_of_ids hids
  exact ⟨g, hg, hd, hold, hnew, rwTree_inserts_converge hg hd (separated_of_ids w hsep)⟩

/-- **Concurrent inserts that differ.** Two replicas insert one id with different values at the
same time. Whichever insert arrives last writes its value, so each replica ends up with the
value of the other. -/
theorem rwTree_inserts_diverge :
    ∃ g, Reachable (rwTree (inOrder 2)) churn g ∧ Delivered g ∧
      ¬ SameMembers (inOrder 2) g := by
  obtain ⟨g, hg, hids, h₀, h₁⟩ :=
    (rwTree (inOrder 2)).exists_reachable churn
      (fun g => (∀ r, ∀ i < g.log.length, i ∈ g.appliedIds r) ∧
        (g.state 0).all (fun ht =>
          (treeMembers (.of (inOrder 2) 0) ht 2).any fun lines =>
            lines.all fun l => l.name ≠ [97]) ∧
        (g.state 1).all fun ht =>
          (treeMembers (.of (inOrder 2) 1) ht 2).any fun lines =>
            lines.any fun l => l.name = [97])
      [.client 0 ⟨0, .create⟩, .deliver 1 0, .client 0 ⟨1, .insert [97] rootId [120]⟩,
        .client 1 ⟨1, .insert [98] rootId [120]⟩, .deliver 1 1, .deliver 0 2] (by decide)
  refine ⟨g, hg, (Reachable.wellFormed hg).delivered_of_ids hids, ?_⟩
  rintro ⟨listed, hlisted⟩
  obtain ⟨ht, hs, -, hl⟩ := hlisted 0
  obtain ⟨ht', hs', -, hl'⟩ := hlisted 1
  rw [hs, Option.all_some] at h₀
  rw [hs', Option.all_some] at h₁
  obtain ⟨lines, hlines, hall⟩ := (Option.any_eq_true ..).mp h₀
  obtain ⟨lines', hlines', hany⟩ := (Option.any_eq_true ..).mp h₁
  obtain ⟨l, hmem, hname⟩ := List.any_eq_true.mp hany
  have hx := (hl' 2 lines' hlines' l.uid l.name l.parent).mp ⟨l, hmem, rfl, rfl, rfl⟩
  obtain ⟨l₀, hmem₀, -, hname₀, -⟩ := (hl 2 lines hlines _ _ _).mpr hx
  exact of_decide_eq_true (List.all_eq_true.mp hall l₀ hmem₀)
    (hname₀.trans (of_decide_eq_true hname))

end RemoveWin
