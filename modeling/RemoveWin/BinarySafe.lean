import RemoveWin.SetStores

/-!
# Members of any bytes

A member is a string with a length, and may hold NUL bytes. The prepare phases look members up under
the whole argument. `RWFSADD` sends the whole argument too, but every other command sends the copy
that `sdsnew` makes, which ends at the first NUL byte. So what is read and what is written may be
two different members.

A command is safe at a state if the visible set changes by exactly the members it names, and nothing
is written to the entries of any other. `RWFSADD` is always safe. `ORSREM` is safe because only
members without NUL bytes ever become visible in the OR-Set. The other commands are safe when they
send what was named, and `ORSADD` also has to draw a tag that is not a tombstone: the tags of a
member may have been drawn before, for a longer argument with the same copy.
-/

namespace RemoveWin

open Replicated

/-! ### What a command leaves alone -/

section

variable {α : Type} {T T' : Sds → Sds → Option α} {key x : Sds} {xs : List Sds}

/-- The hidden tables `T` and `T'` agree on everything but the listed members of one set. -/
def KeepsOthers (T T' : Sds → Sds → Option α) (key : Sds) (xs : List Sds) : Prop :=
  ∀ k y, (k = key → y ∉ xs) → T' k y = T k y

theorem KeepsOthers.refl (T : Sds → Sds → Option α) (key : Sds) (xs : List Sds) :
    KeepsOthers T T key xs := fun _ _ _ => rfl

theorem KeepsOthers.update (h : KeepsOthers T T' key xs) (hx : x ∈ xs) (a : Option α) :
    KeepsOthers T (Function.update T' key (Function.update (T' key) x a)) key xs := by
  intro k y hky
  by_cases hk : k = key
  · subst hk
    have hyx : y ≠ x := fun hyx => hky rfl (hyx ▸ hx)
    rw [Function.update_self, Function.update_of_ne hyx, h k y hky]
  · rw [Function.update_of_ne hk, h k y hky]

theorem KeepsOthers.htGet {κ : Type} {db : Db κ α} (h : KeepsOthers T db.elems key xs)
    (hx : x ∈ xs) (fresh : α) : KeepsOthers T (db.htGet fresh key x).2.elems key xs := by
  rw [Db.htGet]
  split
  · exact h
  · exact h.update hx _

end

/-- **A safe command.** The visible sets are what the command makes of plain sets, whatever bytes
the members consist of, and only entries of the named members are written. -/
structure BinarySafe {σ α : Type} (keys : σ → Keys) (table : σ → Sds → Sds → Option α)
    (plain : Sds → List Sds → SetCmd) (key : Sds) (xs : List Sds) (s s' : σ) : Prop where
  sets : (keys s').sets = (plain key xs).apply (keys s).sets
  /-- Entries of other members stay as they are. -/
  entries : KeepsOthers (table s) (table s') key xs

/-- **The accepted commands are safe exactly when a condition holds.** The replica hears of nobody
and has executed any commands of the family. A command is accepted if a message is sent. -/
def SafeWhen {N : ℕ} {σ Cmd Msg α : Type} (S : OpBased (Fin N) σ Cmd Msg) (keys : σ → Keys)
    (table : σ → Sds → Sds → Option α) (cmd : Sds → List Sds → Cmd)
    (plain : Sds → List Sds → SetCmd) (cond : Fin N → σ → Sds → List Sds → Prop) : Prop :=
  ∀ r cs s, Alone S r cs s → ∀ key xs s₁ m, S.prepare r (cmd key xs) s = some (s₁, some m) →
    (BinarySafe keys table plain key xs s (S.effect r m s₁) ↔ cond r s key xs)

section

variable {σ α : Type} {keys : σ → Keys} {table : σ → Sds → Sds → Option α} {key x : Sds}
  {xs : List Sds} {s s' : σ}

theorem BinarySafe.mem_of_add (h : BinarySafe keys table .add key xs s s') (hx : x ∈ xs) :
    x ∈ (keys s').visible key := by
  have hmem : x ∈ (keys s').sets key := by
    rw [h.sets, SetCmd.apply, Function.update_self]
    exact .inr hx
  exact hmem

theorem BinarySafe.notMem_of_rem (h : BinarySafe keys table .rem key xs s s') (hx : x ∈ xs) :
    x ∉ (keys s').visible key := by
  have hmem : x ∉ (keys s').sets key := by
    rw [h.sets, SetCmd.apply, Function.update_self]
    exact fun hrem => hrem.2 hx
  exact hmem

/-- Where entries say what is visible, other members stay as visible as they are. -/
theorem sets_of_keepsOthers (shows : Option α → Prop)
    (hs : ∀ k x, x ∈ (keys s).visible k ↔ shows (table s k x))
    (hs' : ∀ k x, x ∈ (keys s').visible k ↔ shows (table s' k x))
    (hkeeps : KeepsOthers (table s) (table s') key xs) {R : Set Sds}
    (hin : ∀ x ∈ xs, x ∈ (keys s').visible key ↔ x ∈ R)
    (hout : ∀ x ∉ xs, x ∈ R ↔ x ∈ (keys s).visible key) :
    (keys s').sets = Function.update (keys s).sets key R := by
  refine Keys.sets_eq_update fun k x => ?_
  have hother : (k = key → x ∉ xs) → (x ∈ (keys s').visible k ↔ x ∈ (keys s).visible k) :=
    fun hkx => by rw [hs', hkeeps k x hkx, ← hs]
  by_cases hk : k = key
  · subst hk
    rw [if_pos rfl]
    by_cases hx : x ∈ xs
    · exact hin x hx
    · rw [hother fun _ => hx, hout x hx]
  · rw [if_neg hk, hother fun hk' => absurd hk' hk]

theorem binarySafe_add (shows : Option α → Prop)
    (hs : ∀ k x, x ∈ (keys s).visible k ↔ shows (table s k x))
    (hs' : ∀ k x, x ∈ (keys s').visible k ↔ shows (table s' k x))
    (hkeeps : KeepsOthers (table s) (table s') key xs)
    (hin : ∀ x ∈ xs, x ∈ (keys s').visible key) : BinarySafe keys table .add key xs s s' where
  sets := sets_of_keepsOthers shows hs hs' hkeeps
    (fun x hx => iff_of_true (hin x hx) (.inr hx)) fun _ hx => or_iff_left hx
  entries := hkeeps

theorem binarySafe_rem (shows : Option α → Prop)
    (hs : ∀ k x, x ∈ (keys s).visible k ↔ shows (table s k x))
    (hs' : ∀ k x, x ∈ (keys s').visible k ↔ shows (table s' k x))
    (hkeeps : KeepsOthers (table s) (table s') key xs)
    (hin : ∀ x ∈ xs, x ∉ (keys s').visible key) : BinarySafe keys table .rem key xs s s' where
  sets := sets_of_keepsOthers shows hs hs' hkeeps
    (fun x hx => iff_of_false (hin x hx) fun hrem => hrem.2 hx) fun _ hx => and_iff_left hx
  entries := hkeeps

end

theorem exists_of_accepted {σ Msg : Type} {o : Option (Prepared σ Msg)} {s₁ : σ} {m : Msg}
    (h : (o.map fun p => (p.state, p.msg)) = some (s₁, some m)) :
    ∃ p, o = some p ∧ p.state = s₁ ∧ p.msg = some m := by
  obtain ⟨p, hp, hpm⟩ := Option.map_eq_some_iff.mp h
  exact ⟨p, hp, Prod.mk.inj hpm⟩

/-! ### The RWF-Set -/

section

variable {T : Sds → Sds → Option Reh} {srv : Server} {key : Sds} {xs : List Sds} {db : RwDb}

theorem keepsOthers_entryLoop {out : Sds → Sds} {emit : Sds → Reh → Option VC}
    (h : KeepsOthers T db.elems key xs) :
    KeepsOthers T (entryLoop srv key id out emit xs db).1.elems key xs :=
  (collect_invariant (P := fun db' : RwDb => KeepsOthers T db'.elems key xs) (Q := fun _ => True)
    (fun _ hx _ hdb' => ⟨hdb'.htGet hx _, fun _ _ => trivial⟩) h).1

theorem keepsOthers_rwsEntry {isAdd : Bool} {en : RwEntry} (h : KeepsOthers T db.elems key xs)
    (hx : en.member ∈ xs) : KeepsOthers T (rwsEntry srv isAdd key db en).elems key xs := by
  have hremove : ∀ {db' : RwDb} (e : Reh), KeepsOthers T db'.elems key xs →
      KeepsOthers T (setRemoveFunc db' e en.clock key en.member).2.elems key xs := by
    intro db' e hdb'
    rw [setRemoveFunc]
    split <;> exact hdb'
  have hget : KeepsOthers T (rwseHTGet srv db key en.member).2.elems key xs := h.htGet hx _
  rw [rwsEntry]
  split
  · rw [saddEntry]
    dsimp only
    split <;> exact (hremove _ hget).update hx _
  · exact (hremove _ hget).update hx _

theorem keepsOthers_rwsEffect {m : RwMsg} (hm : m.setName = key)
    (hxs : ∀ en ∈ m.entries, en.member ∈ xs) (h : KeepsOthers T db.elems key xs) :
    KeepsOthers T (rwsEffect srv m db).elems key xs := by
  obtain ⟨db₀, heq, hdb₀⟩ := rwsEffect_eq_foldl srv m db
  rw [heq]
  refine foldl_received (P := fun (_ : List RwItem) (db' : RwDb) =>
    KeepsOthers T db'.elems key xs) (L := []) ?_ fun _ db' it hit ih => ?_
  · rcases hdb₀ with rfl | rfl <;> exact h
  · obtain ⟨-, hname, hen⟩ := RwMsg.mem_items.mp hit
    rw [rwsItem, hname, hm]
    exact keepsOthers_rwsEntry ih (hxs _ hen)

theorem rwsFinish_accepted {isAdd : Bool} {replies : List Reply} {refusal : Reply}
    {l : RwDb × List RwEntry} {m : RwMsg}
    (h : (rwsFinish isAdd key replies refusal l).msg = some m) :
    (rwsFinish isAdd key replies refusal l).state = l.1 ∧ m = ⟨isAdd, key, l.2⟩ := by
  rw [rwsFinish] at h ⊢
  split at h
  · cases h
  · next hne =>
    rw [if_neg hne]
    exact ⟨rfl, (Option.some.inj h).symm⟩

/-- `RWFSADD` sends members as they are named. -/
theorem rwsadd_accepted {p : Prepared RwDb RwMsg} {m : RwMsg}
    (hp : rwsaddPrepare srv key xs db = p) (h : p.msg = some m) :
    m.setName = key ∧ (∀ en ∈ m.entries, en.member ∈ xs) ∧
      KeepsOthers db.elems p.state.elems key xs := by
  subst hp
  rw [rwsaddPrepare] at h ⊢
  split at h
  · cases h
  · obtain ⟨hstate, rfl⟩ := rwsFinish_accepted h
    refine ⟨rfl, fun en hen => ?_, ?_⟩
    · rw [(entryLoop_spec ..).2.2] at hen
      obtain ⟨x, hx, hen⟩ := List.mem_filterMap.mp hen
      obtain ⟨t, -, rfl⟩ := Option.map_eq_some_iff.mp hen
      exact hx
    · rw [hstate]
      exact keepsOthers_entryLoop (.refl _ _ _)

/-- `RWFSREM` sends copies of the visible ones among the named members. -/
theorem rwsrem_accepted {p : Prepared RwDb RwMsg} {m : RwMsg}
    (hp : rwsremPrepare srv key xs db = p) (h : p.msg = some m) :
    m.setName = key ∧
      (∀ en ∈ m.entries, ∃ x ∈ xs, x ∈ db.keys.visible key ∧ en.member = sdsnew x) ∧
      KeepsOthers db.elems p.state.elems key xs := by
  subst hp
  rw [rwsremPrepare] at h ⊢
  split at h
  · cases h
  · cases h
  · next set hset =>
    obtain ⟨hstate, rfl⟩ := rwsFinish_accepted h
    refine ⟨rfl, fun en hen => ?_, ?_⟩
    · rw [(entryLoop_spec ..).2.2] at hen
      obtain ⟨x, hx, hen⟩ := List.mem_filterMap.mp hen
      obtain ⟨t, ht, rfl⟩ := Option.map_eq_some_iff.mp hen
      have hvis := (Option.ite_none_right_eq_some.mp ht).1
      exact ⟨x, hx, (Keys.mem_visible_set hset).mpr (setTypeIsMember_iff.mp hvis), rfl⟩
    · rw [hstate]
      exact keepsOthers_entryLoop (.refl _ _ _)

end

section

variable {N : ℕ} (iter : Fin N → Iteration)

/-- The named members that are visible have no NUL bytes. -/
def Db.RemovesWhole (db : RwDb) (key : Sds) (xs : List Sds) : Prop :=
  ∀ x ∈ xs, x ∈ db.keys.visible key → NulFree x

theorem rwSet_add_safeWhen :
    SafeWhen (rwSet iter) Db.keys Db.elems .add .add fun _ _ _ _ => True := by
  intro r cs db hrun key xs db₁ m hprep
  obtain ⟨L, hok⟩ := rwOk_of_alone iter hrun
  obtain ⟨p, hp, rfl, hm⟩ :=
    exists_of_accepted (o := rwsPrepare (.of iter r) (.add key xs) db) hprep
  obtain ⟨hname, hmem, hkeeps⟩ := rwsadd_accepted (Option.some.inj hp) hm
  have hsets := sets_rwsadd hok (by simp [Server.of]) (by simp [Server.of]) key xs
  rw [Option.some.inj hp, RwDb.after, hm] at hsets
  exact iff_true_intro ⟨hsets, keepsOthers_rwsEffect hname hmem hkeeps⟩

theorem rwSet_rem_safeWhen :
    SafeWhen (rwSet iter) Db.keys Db.elems .rem .rem fun _ => Db.RemovesWhole := by
  intro r cs db hrun key xs db₁ m hprep
  obtain ⟨L, hok⟩ := rwOk_of_alone iter hrun
  obtain ⟨L', hok'⟩ := rwOk_of_alone iter (hrun.step (OpBased.perform_eq hprep))
  obtain ⟨p, hp, rfl, hm⟩ :=
    exists_of_accepted (o := rwsPrepare (.of iter r) (.rem key xs) db) hprep
  have hheader := (rwsPrepare_spec hok.onlySets hp).header
  obtain ⟨hname, hmem, hkeeps⟩ := rwsrem_accepted (Option.some.inj hp) hm
  constructor
  · intro hsafe x hx hvis
    by_contra hnul
    -- what is sent has no NUL bytes, so nothing is written for `x`
    have hsent : KeepsOthers p.state.elems (rwsEffect (.of iter r) m p.state).elems key
        (m.entries.map RwEntry.member) :=
      keepsOthers_rwsEffect hname (fun en hen => List.mem_map_of_mem hen) (.refl _ _ _)
    have hx' : x ∉ m.entries.map RwEntry.member := by
      intro hx'
      obtain ⟨en, hen, rfl⟩ := List.mem_map.mp hx'
      obtain ⟨y, -, -, hy⟩ := hmem en hen
      exact hnul (hy ▸ nulFree_sdsnew y)
    have hstays := hsent key x fun _ => hx'
    refine hsafe.notMem_of_rem hx ((hok'.visible key x).mpr ?_)
    rw [hok.visible, ← hheader, Db.header, Db.elem, ← hstays] at hvis
    exact hvis
  · intro hwhole
    have hsets := sets_rwsrem hok (by simp [Server.of]) (by simp [Server.of]) hwhole
    rw [Option.some.inj hp, RwDb.after, hm] at hsets
    refine ⟨hsets, keepsOthers_rwsEffect hname (fun en hen => ?_) hkeeps⟩
    obtain ⟨x, hx, hvis, hcopy⟩ := hmem en hen
    rwa [hcopy, sdsnew_of_nulFree (hwhole x hx hvis)]

end

/-! ### The OR-Set -/

section

variable {e : Ore} {t u : Sds}

theorem Ore.mem_rset_add_of_ne (hut : u ≠ t) : u ∈ (e.add t).rset ↔ u ∈ e.rset := by
  by_cases hmem : t ∈ e.rset
  · simp [Ore.add, removeTag, hmem, hut]
  · simp [Ore.add, removeTag, hmem]

/-- Adds of different tags leave a live one unless all of them were tombstones. -/
theorem Ore.exists_mem_aset_foldl_add {ts : List Sds} (hnd : ts.Nodup) :
    (∃ u, u ∈ (ts.foldl Ore.add e).aset) ↔ (∃ u, u ∈ e.aset) ∨ ∃ t ∈ ts, t ∉ e.rset := by
  induction ts generalizing e with
  | nil => simp
  | cons t ts ih =>
    obtain ⟨ht, hnd⟩ := List.nodup_cons.mp hnd
    have hrest : (∃ t' ∈ ts, t' ∉ (e.add t).rset) ↔ ∃ t' ∈ ts, t' ∉ e.rset := by
      refine exists_congr fun t' => and_congr_right fun ht' => not_congr ?_
      exact Ore.mem_rset_add_of_ne fun heq => ht (heq ▸ ht')
    rw [List.foldl_cons, ih hnd, Ore.exists_mem_aset_add, hrest, or_assoc]
    simp only [List.mem_cons, exists_eq_or_imp]

end

section

variable {T : Sds → Sds → Option Ore} {srv : Server} {key x : Sds} {xs : List Sds} {db : OrDb}

theorem keepsOthers_orsItem {it : OrItem} (h : KeepsOthers T db.elems it.setName xs)
    (hx : it.member ∈ xs) : KeepsOthers T (orsItem db it).elems it.setName xs := by
  cases it with
  | add s x t =>
    have hget : KeepsOthers T (oreHTGet db s x).2.elems s xs := h.htGet hx _
    show KeepsOthers T (orsaddEntry s db ⟨x, t⟩).elems s xs
    rw [orsaddEntry]
    dsimp only
    split <;> exact hget.update hx _
  | rem s x ts =>
    have hget : KeepsOthers T (oreHTGet db s x).2.elems s xs := h.htGet hx _
    show KeepsOthers T (orsremEntry s db ⟨x, ts⟩).elems s xs
    rw [orsremEntry]
    dsimp only
    split <;> exact hget.update hx _

theorem keepsOthers_orsEffect {m : OrMsg}
    (hm : ∀ it ∈ m.items, it.setName = key ∧ it.member ∈ xs) (h : KeepsOthers T db.elems key xs) :
    KeepsOthers T (orsEffect m db).elems key xs := by
  obtain ⟨db₀, heq, hdb₀⟩ := orsEffect_eq_foldl m db
  rw [heq]
  refine foldl_received (P := fun (_ : List OrItem) (db' : OrDb) =>
    KeepsOthers T db'.elems key xs) (L := []) ?_ fun _ db' it hit ih => ?_
  · rcases hdb₀ with rfl | ⟨_, rfl⟩ <;> exact h
  · obtain ⟨rfl, hx⟩ := hm it hit
    exact keepsOthers_orsItem ih hx

/-- The adds of a message reach the entry of `x` with the tags sent for `x`. -/
theorem ore_foldl_orsItem_add (es : List OrAdd) (db : OrDb) :
    ((es.map fun en => OrItem.add key en.member en.tag).foldl orsItem db).ore key x =
      ((es.filter fun en => en.member = x).map OrAdd.tag).foldl Ore.add (db.ore key x) := by
  induction es generalizing db with
  | nil => rfl
  | cons en es ih =>
    rw [List.map_cons, List.foldl_cons, ih]
    by_cases hx : en.member = x
    · subst hx
      have hself : (orsItem db (.add key en.member en.tag)).ore key en.member =
          (db.ore key en.member).add en.tag := ore_orsItem_self db _
      rw [List.filter_cons_of_pos (by simp), List.map_cons, List.foldl_cons, hself]
    · have hne : (key, x) ≠ (key, en.member) := fun heq => hx (Prod.mk.inj heq).2.symm
      rw [List.filter_cons_of_neg (by simpa using hx), ore_orsItem_of_ne db hne]

/-- The removes of a message take the tags sent for `x` out of the entry of `x`. -/
theorem mem_aset_foldl_orsItem_rem {u : Sds} (es : List OrRem) (db : OrDb) :
    u ∈ (((es.map fun en => OrItem.rem key en.member en.tags).foldl orsItem db).ore key x).aset ↔
      u ∈ (db.ore key x).aset ∧ ∀ en ∈ es, en.member = x → u ∉ en.tags := by
  induction es generalizing db with
  | nil => simp
  | cons en es ih =>
    rw [List.map_cons, List.foldl_cons, ih, List.forall_mem_cons, ← and_assoc]
    refine and_congr_left fun _ => ?_
    by_cases hx : en.member = x
    · subst hx
      have hself : (orsItem db (.rem key en.member en.tags)).ore key en.member =
          en.tags.foldl Ore.remove (db.ore key en.member) := ore_orsItem_self db _
      rw [hself, Ore.mem_aset_foldl_remove, imp_iff_right rfl]
    · have hne : (key, x) ≠ (key, en.member) := fun heq => hx (Prod.mk.inj heq).2.symm
      rw [ore_orsItem_of_ne db hne, and_iff_left fun h => absurd h hx]

theorem mem_aset_orsEffect_rem {u : Sds} (es : List OrRem) (db : OrDb) :
    u ∈ ((orsEffect (.rem key es) db).ore key x).aset ↔
      u ∈ (db.ore key x).aset ∧ ∀ en ∈ es, en.member = x → u ∉ en.tags := by
  obtain ⟨db₀, heq, hdb₀⟩ := orsEffect_eq_foldl (.rem key es) db
  have hore : db₀.ore key x = db.ore key x := by rcases hdb₀ with rfl | ⟨_, rfl⟩ <;> rfl
  rw [heq, OrMsg.items, mem_aset_foldl_orsItem_rem, hore]
  simp only [List.mem_reverse]

/-- The loop of `orsaddCommand`, where the sets are `ks`. -/
def orsaddDraws (srv : Server) (key : Sds) (ks : Keys) (xs : List Sds) (db : OrDb) :
    OrDb × List OrAdd :=
  collect (fun x db' => if ks.lacks key x then drawTag srv key x x db' else (db', none)) xs db

theorem keepsOthers_orsaddDraws (ks : Keys) (db : OrDb) :
    KeepsOthers db.elems (orsaddDraws srv key ks xs db).1.elems key xs ∧
      ∀ en ∈ (orsaddDraws srv key ks xs db).2, ∃ x ∈ xs, en.member = sdsnew x := by
  refine collect_invariant (P := fun db' : OrDb => KeepsOthers db.elems db'.elems key xs)
    (fun x hx db' hdb' => ?_) (.refl _ _ _)
  split
  · refine ⟨(hdb'.htGet hx _).update hx _, ?_⟩
    rintro _ ⟨⟩
    exact ⟨x, hx, rfl⟩
  · exact ⟨hdb', by simp⟩

/-- The tag that is drawn for member `x` of set `s` after `i` others. -/
def Db.tagAfter (srv : Server) (db : OrDb) (s x : Sds) (i : ℕ) : Sds :=
  lcToSds ⟨(db.ore s x).current + i, srv.p2pId⟩

theorem Db.tagAfter_injective (srv : Server) (db : OrDb) (s x : Sds) :
    Function.Injective (db.tagAfter srv s x) := by
  intro i j hij
  have hx : (db.ore s x).current + (i : ℤ) = (db.ore s x).current + j :=
    congrArg Lc.x (lcToSds_injective hij)
  omega

theorem tags_orsaddDraws (ks : Keys) (hnul : ∀ y ∈ xs, NulFree y) (db : OrDb) (x : Sds) :
    ((orsaddDraws srv key ks xs db).2.filter fun en => en.member = x).map OrAdd.tag =
      (List.range ((xs.filter (ks.lacks key)).count x)).map (db.tagAfter srv key x) := by
  induction xs generalizing db with
  | nil => rfl
  | cons y xs ih =>
    have hy := sdsnew_of_nulFree (hnul y List.mem_cons_self)
    replace ih := ih fun z hz => hnul z (List.mem_cons_of_mem y hz)
    by_cases hlacks : ks.lacks key y
    · have hloop : (orsaddDraws srv key ks (y :: xs) db).2 =
          ⟨y, db.tagAfter srv key y 0⟩ ::
            (orsaddDraws srv key ks xs (drawTag srv key y y db).1).2 := by
        simp only [orsaddDraws, collect, if_pos hlacks]
        simp [drawTag, oreHTGet, hy, Db.tagAfter]
      rw [hloop, List.filter_cons_of_pos hlacks, List.count_cons]
      by_cases hyx : y = x
      · subst hyx
        have hnext : (drawTag srv key y y db).1.tagAfter srv key y =
            db.tagAfter srv key y ∘ Nat.succ := by
          funext i
          rw [Db.tagAfter, ore_drawTag, if_pos rfl, Function.comp_apply, Db.tagAfter]
          push_cast
          rw [add_assoc, add_comm 1]
        rw [List.filter_cons_of_pos (by simp), if_pos (beq_self_eq_true y), List.map_cons, ih,
          hnext, List.range_succ_eq_map, List.map_cons, List.map_map]
      · have hsame : (drawTag srv key y y db).1.tagAfter srv key x = db.tagAfter srv key x := by
          have hne : (key, x) ≠ (key, y) := fun heq => hyx (Prod.mk.inj heq).2.symm
          funext i
          rw [Db.tagAfter, ore_drawTag, if_neg hne, Db.tagAfter]
        rw [List.filter_cons_of_neg (by simpa using hyx), if_neg (by simpa using hyx), ih, hsame,
          add_zero]
    · have hloop : (orsaddDraws srv key ks (y :: xs) db).2 = (orsaddDraws srv key ks xs db).2 := by
        simp only [orsaddDraws, collect, if_neg hlacks]
        rfl
      rw [hloop, List.filter_cons_of_neg hlacks, ih]

theorem orsadd_accepted {p : Prepared OrDb OrMsg} {m : OrMsg}
    (hp : orsaddPrepare srv key xs db = some p) (hm : p.msg = some m) :
    p.state = (orsaddDraws srv key db.keys xs db).1 ∧
      m = .add key (orsaddDraws srv key db.keys xs db).2 := by
  rw [orsaddPrepare] at hp
  split at hp
  · split at hp
    · cases hp
      cases hm
    · cases hp
  · dsimp only at hp
    split at hp
    · cases hp
      cases hm
    · cases hp
      exact ⟨rfl, (Option.some.inj hm).symm⟩

/-- **What `ORSADD` adds**, if copies are faithful. -/
theorem OrSound.exists_live_orsadd (h : OrSound db) {p : Prepared OrDb OrMsg} {m : OrMsg}
    (hp : orsaddPrepare srv key xs db = some p) (hm : p.msg = some m)
    (hnul : ∀ y ∈ xs, NulFree y) (x : Sds) :
    (∃ u, u ∈ ((orsEffect m p.state).ore key x).aset) ↔ x ∈ db.keys.visible key ∨
      ∃ i < (xs.filter (db.keys.lacks key)).count x,
        db.tagAfter srv key x i ∉ (db.ore key x).rset := by
  have hprep : orsPrepare srv (.add key xs) db = some p := hp
  have hsame := (orCopies_orsPrepare hprep).same
  obtain ⟨-, rfl⟩ := orsadd_accepted hp hm
  obtain ⟨db₀, heq, hdb₀⟩ := orsEffect_eq_foldl (.add key (orsaddDraws srv key db.keys xs db).2)
    p.state
  have hore : db₀.ore key x = p.state.ore key x := by rcases hdb₀ with rfl | ⟨_, rfl⟩ <;> rfl
  have hnodup := (List.nodup_range (n := (xs.filter (db.keys.lacks key)).count x)).map
    (db.tagAfter_injective srv key x)
  rw [heq, OrMsg.items, ore_foldl_orsItem_add, hore, List.filter_reverse, List.map_reverse,
    tags_orsaddDraws db.keys hnul, Ore.exists_mem_aset_foldl_add (List.nodup_reverse.mpr hnodup),
    hsame.aset, hsame.rset, ← h.visible]
  simp only [List.mem_reverse, List.mem_map, List.mem_range, exists_exists_and_eq_and]

/-- The loop of `orsremCommand`, where the set is `set`. -/
def orsremLists (srv : Server) (key : Sds) (set : SetObj) (xs : List Sds) (db : OrDb) :
    OrDb × List OrRem :=
  collect (fun x db' => if setTypeIsMember set x then listTags srv key x x db' else (db', none))
    xs db

theorem keepsOthers_orsremLists (set : SetObj) (db : OrDb) :
    KeepsOthers db.elems (orsremLists srv key set xs db).1.elems key xs := by
  refine (collect_invariant (P := fun db' : OrDb => KeepsOthers db.elems db'.elems key xs)
    (Q := fun _ => True) (fun x hx db' hdb' => ?_) (.refl _ _ _)).1
  split
  · exact ⟨hdb'.htGet hx _, fun _ _ => trivial⟩
  · exact ⟨hdb', fun _ _ => trivial⟩

theorem mem_orsremLists (set : SetObj) (db : OrDb) (en : OrRem) :
    en ∈ (orsremLists srv key set xs db).2 ↔ ∃ x ∈ xs, setTypeIsMember set x ∧
      en = ⟨sdsnew x, (srv.iter.order (db.ore key x).aset.elems).map sdsnew⟩ := by
  have hlists : (orsremLists srv key set xs db).2 = _ :=
    entries_listTags (c := setTypeIsMember set) (k := id) (fun _ _ => rfl) xs db
  rw [hlists]
  simp only [List.mem_map, List.mem_filter, and_assoc, eq_comm (a := en), id]

/-- `ORSREM` sends copies of the visible ones among the named members, with all their tags. -/
theorem orsrem_accepted {p : Prepared OrDb OrMsg} {m : OrMsg}
    (hp : orsremPrepare srv key xs db = p) (hm : p.msg = some m) :
    ∃ es, m = .rem key es ∧ (∀ en, en ∈ es ↔ ∃ x ∈ xs, x ∈ db.keys.visible key ∧
        en = ⟨sdsnew x, (srv.iter.order (db.ore key x).aset.elems).map sdsnew⟩) ∧
      KeepsOthers db.elems p.state.elems key xs := by
  subst hp
  rw [orsremPrepare, Db.view_eq] at hm ⊢
  split at hm
  · cases hm
  · cases hm
  · next set hset =>
    dsimp only at hm ⊢
    split at hm
    · cases hm
    · next hne =>
      rw [if_neg hne]
      refine ⟨_, (Option.some.inj hm).symm, fun en => ?_, keepsOthers_orsremLists set db⟩
      simp only [Keys.mem_visible_set hset, ← setTypeIsMember_iff]
      exact mem_orsremLists set db en

end

section

variable {N : ℕ} (iter : Fin N → Iteration)

/-- Members to be added have no NUL bytes, and one of the tags drawn for each is not a tombstone. -/
structure Db.DrawsWhole (srv : Server) (db : OrDb) (key : Sds) (xs : List Sds) : Prop where
  nulFree : ∀ x ∈ xs, NulFree x
  /-- A tag is drawn for each time a member that is not visible is named. -/
  live : ∀ x ∈ xs, x ∉ db.keys.visible key →
    ∃ i < xs.count x, db.tagAfter srv key x i ∉ (db.ore key x).rset

theorem orSet_add_safeWhen :
    SafeWhen (orSet iter) Db.keys Db.elems .add .add fun r => Db.DrawsWhole (.of iter r) := by
  intro r cs db hrun key xs db₁ m hprep
  have hok := orSound_of_alone hrun
  have hok' : OrSound ((orSet iter).effect r m db₁) :=
    orSound_of_alone (hrun.step (OpBased.perform_eq hprep))
  obtain ⟨p, hp, rfl, hm⟩ :=
    exists_of_accepted (o := orsPrepare (.of iter r) (.add key xs) db) hprep
  have hvisible : (∀ y ∈ xs, NulFree y) → ∀ x,
      x ∈ ((orSet iter).effect r m p.state).keys.visible key ↔ x ∈ db.keys.visible key ∨
        ∃ i < (xs.filter (db.keys.lacks key)).count x,
          db.tagAfter (.of iter r) key x i ∉ (db.ore key x).rset := fun hnul x =>
    (hok'.visible key x).trans (hok.exists_live_orsadd hp hm hnul x)
  constructor
  · intro hsafe
    have hnul : ∀ x ∈ xs, NulFree x := fun x hx => hok'.nulFree key x (hsafe.mem_of_add hx)
    refine ⟨hnul, fun x hx hvis => ?_⟩
    have hlive := ((hvisible hnul x).mp (hsafe.mem_of_add hx)).resolve_left hvis
    rwa [List.count_filter (hok.onlySets.lacks_iff.mpr hvis)] at hlive
  · rintro ⟨hnul, hlive⟩
    obtain ⟨hstate, rfl⟩ := orsadd_accepted hp hm
    obtain ⟨hkeeps, hsent⟩ := keepsOthers_orsaddDraws db.keys db
    refine binarySafe_add (fun o => ∃ t, t ∈ (o.getD oreNew).aset) hok.visible hok'.visible
      (keepsOthers_orsEffect (fun it hit => ?_) (hstate ▸ hkeeps)) fun x hx => ?_
    · obtain ⟨en, hen, rfl⟩ := List.mem_map.mp hit
      obtain ⟨y, hy, hmem⟩ := hsent en (List.mem_reverse.mp hen)
      refine ⟨rfl, ?_⟩
      show en.member ∈ xs
      rwa [hmem, sdsnew_of_nulFree (hnul y hy)]
    · by_cases hvis : x ∈ db.keys.visible key
      · exact (hvisible hnul x).mpr (.inl hvis)
      · refine (hvisible hnul x).mpr (.inr ?_)
        rw [List.count_filter (hok.onlySets.lacks_iff.mpr hvis)]
        exact hlive x hx hvis

theorem orSet_rem_safeWhen :
    SafeWhen (orSet iter) Db.keys Db.elems .rem .rem fun _ _ _ _ => True := by
  intro r cs db hrun key xs db₁ m hprep
  have hok := orSound_of_alone hrun
  have hok' : OrSound ((orSet iter).effect r m db₁) :=
    orSound_of_alone (hrun.step (OpBased.perform_eq hprep))
  obtain ⟨p, hp, rfl, hm⟩ :=
    exists_of_accepted (o := orsPrepare (.of iter r) (.rem key xs) db) hprep
  have hsame := (orCopies_orsPrepare hp).same
  obtain ⟨es, rfl, hmem, hkeeps⟩ := orsrem_accepted (Option.some.inj hp) hm
  refine iff_true_intro (binarySafe_rem (fun o => ∃ t, t ∈ (o.getD oreNew).aset) hok.visible
    hok'.visible (keepsOthers_orsEffect (fun it hit => ?_) hkeeps) fun x hx hvis => ?_)
  · obtain ⟨en, hen, rfl⟩ := List.mem_map.mp hit
    obtain ⟨y, hy, hvis, rfl⟩ := (hmem en).mp (List.mem_reverse.mp hen)
    refine ⟨rfl, ?_⟩
    show sdsnew y ∈ xs
    rwa [sdsnew_of_nulFree (hok.nulFree key y hvis)]
  · obtain ⟨u, hu⟩ := (hok'.visible key x).mp hvis
    obtain ⟨hlive, hunsent⟩ := (mem_aset_orsEffect_rem es p.state).mp hu
    rw [hsame.aset] at hlive
    have hx' : x ∈ db.keys.visible key := (hok.visible key x).mpr ⟨u, hlive⟩
    refine hunsent _ ((hmem _).mpr ⟨x, hx, hx', rfl⟩) (sdsnew_of_nulFree (hok.nulFree key x hx')) ?_
    exact List.mem_map.mpr ⟨u, by simpa using hlive, sdsnew_of_nulFree (hok.tags key x u hlive)⟩

end

/-! ### The PN-Set -/

section

variable {T : Sds → Sds → Option Pne} {key : Sds} {xs : List Sds} {db : PnDb}

theorem keepsOthers_pnsItem {it : PnItem} (h : KeepsOthers T db.elems it.setName xs)
    (hx : it.member ∈ xs) : KeepsOthers T (pnsItem db it).elems it.setName xs := by
  have hget : KeepsOthers T (pneHTGet db it.setName it.member).2.elems it.setName xs :=
    h.htGet hx _
  rw [pnsItem]
  split
  · rw [pnsaddEntry]
    dsimp only
    split <;> exact hget.update hx _
  · rw [pnsremEntry]
    dsimp only
    split <;> exact hget.update hx _

theorem keepsOthers_pnsEffect {m : PnMsg}
    (hm : ∀ it ∈ m.items, it.setName = key ∧ it.member ∈ xs) (h : KeepsOthers T db.elems key xs) :
    KeepsOthers T (pnsEffect m db).elems key xs := by
  obtain ⟨db₀, heq, hdb₀⟩ := pnsEffect_eq_foldl m db
  rw [heq]
  refine foldl_received (P := fun (_ : List PnItem) (db' : PnDb) =>
    KeepsOthers T db'.elems key xs) (L := []) ?_ fun _ db' it hit ih => ?_
  · rcases hdb₀ with rfl | ⟨_, rfl⟩ <;> exact h
  · obtain ⟨rfl, hx⟩ := hm it hit
    exact keepsOthers_pnsItem ih hx

/-- The loop of `pnsaddCommand`, where the sets are `ks`. -/
def pnsaddRaises (key : Sds) (ks : Keys) (xs : List Sds) (db : PnDb) : PnDb × List PnAdd :=
  collect (fun x db' => if ks.lacks key x then raiseToOne key x x db' else (db', none)) xs db

theorem keepsOthers_pnsaddRaises (ks : Keys) (db : PnDb) :
    KeepsOthers db.elems (pnsaddRaises key ks xs db).1.elems key xs ∧
      ∀ en ∈ (pnsaddRaises key ks xs db).2, ∃ x ∈ xs, en.member = sdsnew x := by
  refine collect_invariant (P := fun db' : PnDb => KeepsOthers db.elems db'.elems key xs)
    (fun x hx db' hdb' => ?_) (.refl _ _ _)
  split
  · refine ⟨hdb'.htGet hx _, ?_⟩
    rintro _ ⟨⟩
    exact ⟨x, hx, rfl⟩
  · exact ⟨hdb', by simp⟩

/-- `PNSADD` sends copies of the named members. -/
theorem pnsadd_accepted {p : Prepared PnDb PnMsg} {m : PnMsg}
    (hp : pnsaddPrepare key xs db = some p) (hm : p.msg = some m) :
    KeepsOthers db.elems p.state.elems key xs ∧
      ∀ it ∈ m.items, it.setName = key ∧ ∃ x ∈ xs, it.member = sdsnew x := by
  have hloop : KeepsOthers db.elems (pnsaddRaises key db.keys xs db).1.elems key xs ∧ _ :=
    keepsOthers_pnsaddRaises db.keys db
  rw [pnsaddPrepare] at hp
  split at hp
  · split at hp
    · cases hp
      cases hm
    · cases hp
  · dsimp only at hp
    split at hp
    · cases hp
      cases hm
    · cases hp
      cases hm
      refine ⟨hloop.1, fun it hit => ?_⟩
      obtain ⟨en, hen, rfl⟩ := List.mem_map.mp hit
      exact ⟨rfl, hloop.2 en (List.mem_reverse.mp hen)⟩

end

section

variable {N : ℕ} (iter : Fin N → Iteration)

theorem pnSet_add_safeWhen :
    SafeWhen (pnSet iter) Db.keys Db.elems .add .add fun _ _ _ xs => ∀ x ∈ xs, NulFree x := by
  intro r cs db hrun key xs db₁ m hprep
  obtain ⟨L, hok⟩ := pnOk_of_alone iter hrun
  obtain ⟨L', hok'⟩ : ∃ L', PnOk L' ((pnSet iter).effect r m db₁) :=
    pnOk_of_alone iter (hrun.step (OpBased.perform_eq hprep))
  obtain ⟨p, hp, rfl, hm⟩ :=
    exists_of_accepted (o := pnsPrepare (.of iter r) (.add key xs) db) hprep
  refine ⟨fun hsafe x hx => hok'.nulFree key x (hsafe.mem_of_add hx), fun hnul => ?_⟩
  obtain ⟨hkeeps, hsent⟩ := pnsadd_accepted hp hm
  refine binarySafe_add (fun o => 0 < (o.getD pneNew).current) hok.visible hok'.visible
    (keepsOthers_pnsEffect (fun it hit => ?_) hkeeps) (hok.add_takesEffect hp hm hnul)
  obtain ⟨hname, y, hy, hmem⟩ := hsent it hit
  rw [hmem, sdsnew_of_nulFree (hnul y hy)]
  exact ⟨hname, hy⟩

end

theorem exists_accepted {ι σ Cmd Msg : Type} {S : OpBased ι σ Cmd Msg} {r : ι} {c : Cmd} {s : σ}
    (h : ((S.prepare r c s).bind Prod.snd).isSome) :
    ∃ s₁ m, S.prepare r c s = some (s₁, some m) := by
  obtain ⟨m, hm⟩ := Option.isSome_iff_exists.mp h
  obtain ⟨⟨s₁, o⟩, hprep, ho⟩ := Option.bind_eq_some_iff.mp hm
  exact ⟨s₁, m, by rw [hprep, ← ho]⟩

end RemoveWin
