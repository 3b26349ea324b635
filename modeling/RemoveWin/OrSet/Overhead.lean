import RemoveWin.Lib.Tokens
import RemoveWin.OrSet.Local

/-!
# The size of the tags of the OR-Set

`total_tag_size` of `t_orset.c`, which is kept if overhead is measured. Both effect loops adjust it
by the length of a tag: downwards if the tag was found in the dictionary it cancels with, upwards
otherwise. Upwards is also taken when the tag is in the other dictionary already and nothing is
inserted.

Live tags are tokens and tombstones are holes, so what the counter is worth is a question about
`Tokens.run`. Prepare phases do not touch dictionaries, and whether the counter is exact at a
replica depends only on the tags it has been sent and on their order.
-/

namespace RemoveWin

open Containers Replicated Tokens

/-! ### The counter -/

/-- The OR-Sets at one replica, with `total_tag_size`. -/
structure OrMeter (D : Type := OrDb) where
  /-- The sets and their metadata. -/
  db : D
  /-- `total_tag_size`. -/
  totalTagSize : ℤ

/-- What `orsaddGenericCommand` adds to the counter for a tag. -/
def Ore.addSize (e : Ore) (tag : Sds) : ℤ :=
  match removeTag e.rset tag with
  | (_, true) => -tag.length
  | (_, false) => tag.length

/-- What `orsremGenericCommand` adds to the counter for a tag. -/
def Ore.removeSize (e : Ore) (tag : Sds) : ℤ :=
  match removeTag e.aset tag with
  | (_, true) => -tag.length
  | (_, false) => tag.length

/-- The same for all tags of an entry, one after the other. -/
def Ore.removeSizes : Ore → List Sds → ℤ
  | _, [] => 0
  | e, tag :: tags => e.removeSize tag + (e.remove tag).removeSizes tags

section

variable {D : Type} [SetTables D Ore]

/-- One round of the loop of `orsaddGenericCommand`. -/
def orsaddEntrySize (setName : Sds) (s : OrMeter D) (en : OrAdd) : OrMeter D :=
  let e := (oreHTGet s.db setName en.member).1
  ⟨orsaddEntry setName s.db en, s.totalTagSize + e.addSize en.tag⟩

/-- One round of the loop of `orsremGenericCommand`. -/
def orsremEntrySize (setName : Sds) (s : OrMeter D) (en : OrRem) : OrMeter D :=
  let e := (oreHTGet s.db setName en.member).1
  ⟨orsremEntry setName s.db en, s.totalTagSize + e.removeSizes en.tags⟩

/-- `orsaddGenericCommand` and `orsremGenericCommand`. -/
def orsEffectSize (m : OrMsg) (s : OrMeter D) : OrMeter D :=
  match m with
  | .add setName es =>
    if es.isEmpty then s
    else es.reverse.foldl (orsaddEntrySize setName)
      { s with db := Tables.update s.db setName (.create none) }
  | .rem setName es =>
    if es.isEmpty then s
    else es.reverse.foldl (orsremEntrySize setName)
      { s with db := Tables.update s.db setName (.create none) }

theorem db_orsEffectSize (m : OrMsg) (s : OrMeter D) :
    (orsEffectSize m s).db = orsEffect m s.db := by
  cases m with
  | add setName es =>
    rw [orsEffectSize, orsEffect]
    split_ifs
    · rfl
    · exact (List.foldl_hom OrMeter.db fun _ _ => rfl).symm
  | rem setName es =>
    rw [orsEffectSize, orsEffect]
    split_ifs
    · rfl
    · exact (List.foldl_hom OrMeter.db fun _ _ => rfl).symm

end

/-- The OR-Set of `N` servers that measure. -/
def orSetSize {N : ℕ} (iter : Fin N → Iteration) : OpBased (Fin N) OrMeter OrCmd OrMsg where
  init _ := ⟨.empty, 0⟩
  prepare r c s := (orsPrepare (.of iter r) c s.db).map fun p => ({ s with db := p.state }, p.msg)
  effect _ m s := orsEffectSize m s

/-- The counter is the sum of the lengths of all tags in all dictionaries. -/
def OrMeter.Exact (s : OrMeter) : Prop :=
  ∃ live dead : Finset (Sds × Sds × Sds),
    (∀ k x t, (k, x, t) ∈ live ↔ t ∈ (s.db.ore k x).aset) ∧
    (∀ k x t, (k, x, t) ∈ dead ↔ t ∈ (s.db.ore k x).rset) ∧
    s.totalTagSize = ∑ p ∈ live, (p.2.2.length : ℤ) + ∑ p ∈ dead, (p.2.2.length : ℤ)

/-! ### Items -/

/-- One round of either loop. -/
def orsItemSize (s : OrMeter) : OrItem → OrMeter
  | .add k x t => orsaddEntrySize k s ⟨x, t⟩
  | .rem k x ts => orsremEntrySize k s ⟨x, ts⟩

theorem db_orsItemSize (s : OrMeter) (it : OrItem) : (orsItemSize s it).db = orsItem s.db it := by
  cases it <;> rfl

/-- Both effects are the loop over items, from where the set has been created. -/
theorem orsEffectSize_eq_foldl (m : OrMsg) (s : OrMeter) :
    ∃ db₀ : OrDb, orsEffectSize m s = m.items.foldl orsItemSize { s with db := db₀ } ∧
      orsEffect m s.db = m.items.foldl orsItem db₀ ∧ db₀.ore = s.db.ore := by
  cases m with
  | add k es =>
    rw [orsEffectSize, orsEffect, OrMsg.items]
    split
    · next he =>
      rw [List.isEmpty_iff] at he
      exact ⟨s.db, by simp [he], by simp [he], rfl⟩
    · refine ⟨s.db.modifySet k id, ?_, ?_, rfl⟩
      · rw [List.foldl_map]
        rfl
      · rw [List.foldl_map]
        rfl
  | rem k es =>
    rw [orsEffectSize, orsEffect, OrMsg.items]
    split
    · next he =>
      rw [List.isEmpty_iff] at he
      exact ⟨s.db, by simp [he], by simp [he], rfl⟩
    · refine ⟨s.db.modifySet k id, ?_, ?_, rfl⟩
      · rw [List.foldl_map]
        rfl
      · rw [List.foldl_map]
        rfl

/-! ### Dictionaries as tokens and holes -/

/-- What an item does to tags. -/
def OrItem.moves : OrItem → List (Move (Sds × Sds × Sds))
  | .add k x t => [.put (k, x, t)]
  | .rem k x ts => ts.map fun t => .take (k, x, t)

/-- The weight of a tag is its length. -/
def tagSize (p : Sds × Sds × Sds) : ℤ := p.2.2.length

/-- The dictionaries of member `x` of set `k`, exchanged. -/
def Ore.swap (e : Ore) : Ore := ⟨e.current, e.rset, e.aset⟩

theorem Ore.remove_eq (e : Ore) (t : Sds) : e.remove t = (e.swap.add t).swap := by
  simp only [Ore.remove, Ore.add, Ore.swap]
  split <;> rfl

/-- The board has the tags of an entry. -/
structure Ore.OnBoard (e : Ore) (k x : Sds) (b : Board (Sds × Sds × Sds)) : Prop where
  aset : ∀ t, (k, x, t) ∈ b.tokens ↔ t ∈ e.aset
  rset : ∀ t, (k, x, t) ∈ b.holes ↔ t ∈ e.rset

section

variable {e : Ore} {k x k' x' t : Sds} {b : Board (Sds × Sds × Sds)}

theorem Ore.OnBoard.flip (h : e.OnBoard k x b) : e.swap.OnBoard k x b.flip := ⟨h.rset, h.aset⟩

theorem Ore.OnBoard.put (h : e.OnBoard k x b) (ht : NulFree t) :
    (e.add t).OnBoard k x (b.put (k, x, t)) := by
  by_cases hmem : t ∈ e.rset
  · have hadd : e.add t = { e with rset := setTypeRemove e.rset t } := by
      simp [Ore.add, removeTag, hmem]
    refine ⟨fun u => ?_, fun u => ?_⟩
    · rw [Board.tokens_put, if_pos ((h.rset t).mpr hmem), hadd, h.aset]
    · rw [Board.holes_put, if_pos ((h.rset t).mpr hmem), hadd, Finset.mem_erase, h.rset,
        mem_setTypeRemove]
      simp
  · have hadd : e.add t = { e with aset := setTypeAdd e.aset t } := by
      simp [Ore.add, removeTag, hmem, addTag, sdsnew_of_nulFree ht]
    refine ⟨fun u => ?_, fun u => ?_⟩
    · rw [Board.tokens_put, if_neg (mt (h.rset t).mp hmem), hadd, Finset.mem_insert, h.aset,
        mem_setTypeAdd]
      simp
    · rw [Board.holes_put, if_neg (mt (h.rset t).mp hmem), hadd, h.rset]

theorem Ore.OnBoard.put_of_ne (h : e.OnBoard k x b) (hne : (k, x) ≠ (k', x')) :
    e.OnBoard k x (b.put (k', x', t)) := by
  have hne' : ∀ u, (k, x, u) ≠ (k', x', t) := by
    intro u heq
    obtain ⟨rfl, hxu⟩ := Prod.mk.inj heq
    exact hne (by rw [(Prod.mk.inj hxu).1])
  refine ⟨fun u => ?_, fun u => ?_⟩
  · rw [← h.aset, Board.tokens_put]
    split_ifs
    · rfl
    · rw [Finset.mem_insert, or_iff_right (hne' u)]
  · rw [← h.rset, Board.holes_put]
    split_ifs
    · rw [Finset.mem_erase, and_iff_right (hne' u)]
    · rfl

theorem Ore.OnBoard.take (h : e.OnBoard k x b) (ht : NulFree t) :
    (e.remove t).OnBoard k x (b.take (k, x, t)) := by
  rw [Ore.remove_eq]
  exact (h.flip.put ht).flip

theorem Ore.OnBoard.take_of_ne (h : e.OnBoard k x b) (hne : (k, x) ≠ (k', x')) :
    e.OnBoard k x (b.take (k', x', t)) := (h.flip.put_of_ne hne).flip

theorem Ore.OnBoard.addSize (h : e.OnBoard k x b) :
    b.charge tagSize (.put (k, x, t)) = e.addSize t := by
  rw [Board.charge, Ore.addSize, removeTag]
  simp only [h.rset]
  split_ifs <;> rfl

theorem Ore.OnBoard.removeSize (h : e.OnBoard k x b) :
    b.charge tagSize (.take (k, x, t)) = e.removeSize t := by
  rw [Board.charge, Ore.removeSize, removeTag]
  simp only [h.aset]
  split_ifs <;> rfl

end

/-- The board has all tags of a replica, and its meter shows `total_tag_size`. -/
structure OrMeter.OnBoard (s : OrMeter) (st : Metered (Sds × Sds × Sds)) : Prop where
  ore : ∀ k x, (s.db.ore k x).OnBoard k x st.board
  meter : st.meter = s.totalTagSize

section

variable {s s' : OrMeter} {st : Metered (Sds × Sds × Sds)}

theorem OrMeter.OnBoard.congr (h : s.OnBoard st)
    (haset : ∀ k x, (s'.db.ore k x).aset = (s.db.ore k x).aset)
    (hrset : ∀ k x, (s'.db.ore k x).rset = (s.db.ore k x).rset)
    (htotal : s'.totalTagSize = s.totalTagSize) : s'.OnBoard st where
  ore k x := ⟨by simpa only [haset] using (h.ore k x).aset,
    by simpa only [hrset] using (h.ore k x).rset⟩
  meter := h.meter.trans htotal.symm

theorem Ore.OnBoard.takes {k x : Sds} {ts : List Sds} (hts : ∀ t ∈ ts, NulFree t) {e : Ore}
    (h : e.OnBoard k x st.board) :
    ((ts.map fun t => Move.take (k, x, t)).foldl (Metered.move tagSize) st).meter =
        st.meter + e.removeSizes ts ∧
      (ts.foldl Ore.remove e).OnBoard k x
        ((ts.map fun t => Move.take (k, x, t)).foldl (Metered.move tagSize) st).board ∧
      ∀ {k' x' : Sds} {e' : Ore}, (k', x') ≠ (k, x) → e'.OnBoard k' x' st.board →
        e'.OnBoard k' x'
          ((ts.map fun t => Move.take (k, x, t)).foldl (Metered.move tagSize) st).board := by
  induction ts generalizing st e with
  | nil => exact ⟨(add_zero _).symm, h, fun _ h' => h'⟩
  | cons t ts ih =>
    have hnext : (e.remove t).OnBoard k x (st.move tagSize (.take (k, x, t))).board :=
      h.take (hts t List.mem_cons_self)
    obtain ⟨hmeter, hself, hother⟩ := ih (fun u hu => hts u (List.mem_cons_of_mem t hu)) hnext
    refine ⟨?_, hself, fun hne h' => hother hne (h'.take_of_ne hne)⟩
    rw [List.map_cons, List.foldl_cons, hmeter, Ore.removeSizes, ← h.removeSize, ← add_assoc]
    rfl

/-- **One round of a loop makes the moves of its item.** -/
theorem OrMeter.OnBoard.item (h : s.OnBoard st) {it : OrItem} (hit : ∀ t ∈ it.tags, NulFree t) :
    (orsItemSize s it).OnBoard (it.moves.foldl (Metered.move tagSize) st) := by
  have hself := ore_orsItem_self s.db it
  have hother : ∀ k x, (k, x) ≠ (it.setName, it.member) →
      (orsItem s.db it).ore k x = s.db.ore k x := fun k x => ore_orsItem_of_ne s.db
  cases it with
  | add k x t =>
    have ht : NulFree t := hit t (List.mem_singleton_self t)
    refine ⟨fun k' x' => ?_, ?_⟩
    · rw [db_orsItemSize]
      by_cases hne : (k', x') = (k, x)
      · obtain ⟨rfl, rfl⟩ := Prod.mk.inj hne
        exact hself ▸ (h.ore k' x').put ht
      · rw [hother k' x' hne]
        exact (h.ore k' x').put_of_ne hne
    · show st.meter + st.board.charge tagSize (.put (k, x, t)) =
        s.totalTagSize + (oreHTGet s.db k x).1.addSize t
      rw [(h.ore k x).addSize, h.meter, oreHTGet, Db.get_eq, Db.htGet_fst]
  | rem k x ts =>
    have hts : ∀ t ∈ ts, NulFree t := hit
    obtain ⟨hmeter, hboard, hboards⟩ := (h.ore k x).takes hts
    refine ⟨fun k' x' => ?_, ?_⟩
    · rw [db_orsItemSize]
      by_cases hne : (k', x') = (k, x)
      · obtain ⟨rfl, rfl⟩ := Prod.mk.inj hne
        exact hself ▸ hboard
      · rw [hother k' x' hne]
        exact hboards hne (h.ore k' x')
    · show _ = s.totalTagSize + (oreHTGet s.db k x).1.removeSizes ts
      rw [OrItem.moves, hmeter, h.meter, oreHTGet, Db.get_eq, Db.htGet_fst]

theorem OrMeter.OnBoard.effect {L : List OrItem}
    (h : s.OnBoard (run tagSize (L.flatMap OrItem.moves))) {m : OrMsg}
    (hm : ∀ it ∈ m.items, ∀ t ∈ it.tags, NulFree t) :
    (orsEffectSize m s).OnBoard (run tagSize ((L ++ m.items).flatMap OrItem.moves)) := by
  obtain ⟨db₀, heq, -, hore⟩ := orsEffectSize_eq_foldl m s
  rw [heq]
  refine foldl_received (P := fun L s => OrMeter.OnBoard s (run tagSize (L.flatMap OrItem.moves)))
    (h.congr (fun k x => by rw [hore]) (fun k x => by rw [hore]) rfl) fun L s it hit ih => ?_
  rw [List.flatMap_append, List.flatMap_singleton, run, List.foldl_append]
  exact ih.item (hm it hit)

end

/-! ### Runs -/

/-- Every tag is the text of a Lamport clock. -/
def IsTag (t : Sds) : Prop := ∃ c, t = lcToSds c

theorem IsTag.nulFree {t : Sds} (h : IsTag t) : NulFree t := by
  obtain ⟨c, rfl⟩ := h
  exact nulFree_lcToSds c

theorem IsTag.length_pos {t : Sds} (h : IsTag t) : 0 < t.length := by
  obtain ⟨c, rfl⟩ := h
  rw [lcToSds, List.length_append, List.length_cons]
  omega

section

variable {N : ℕ} {iter : Fin N → Iteration} {g : Net (Fin N) OrMeter OrMsg}

/-- What a list of messages does to tags. -/
def tagMoves (A : List (Event (Fin N) OrMsg)) : List (Move (Sds × Sds × Sds)) :=
  (orItems A).flatMap OrItem.moves

theorem orSetSize_prepare {r : Fin N} {c : OrCmd} {s s' : OrMeter} {o : Option OrMsg}
    (hp : (orSetSize iter).prepare r c s = some (s', o)) :
    SameTags s.db s'.db ∧ s'.totalTagSize = s.totalTagSize ∧
      ∀ m ∈ o, ∀ it ∈ m.items, it.Copied s.db := by
  obtain ⟨p, hprep, heq⟩ := Option.map_eq_some_iff.mp hp
  obtain ⟨rfl, rfl⟩ := Prod.mk.inj heq
  obtain ⟨hsame, hcopied⟩ := orCopies_orsPrepare hprep
  exact ⟨hsame, rfl, hcopied⟩

theorem isTag_of_mem_tagMoves {A : List (Event (Fin N) OrMsg)}
    (hA : ∀ e ∈ A, ∀ it ∈ e.msg.items, ∀ t ∈ it.tags, IsTag t) {m : Move (Sds × Sds × Sds)}
    (hm : m ∈ tagMoves A) : IsTag m.key.2.2 := by
  obtain ⟨it, hit, hm⟩ := List.mem_flatMap.mp hm
  obtain ⟨e, he, hit⟩ := List.mem_flatMap.mp hit
  cases it with
  | add k x t =>
    obtain rfl := List.mem_singleton.mp hm
    exact hA e he _ hit t (List.mem_singleton_self t)
  | rem k x ts =>
    obtain ⟨t, ht, rfl⟩ := List.mem_map.mp hm
    exact hA e he _ hit t ht

/-- Tags in messages are texts of Lamport clocks, and the dictionaries and the counter of a replica
are what the moves it has applied lead to. -/
theorem onBoard_of_reachable (hg : Reachable (orSetSize iter) anyOrder g) :
    (∀ e ∈ g.log, ∀ it ∈ e.msg.items, ∀ t ∈ it.tags, IsTag t) ∧
      ∀ r, (g.state r).OnBoard (run tagSize (tagMoves (g.applied r))) := by
  refine hg.joint_invariant
    (I := fun _ A s => OrMeter.OnBoard s (run tagSize (tagMoves A)))
    (J := fun e => ∀ it ∈ e.msg.items, ∀ t ∈ it.tags, IsTag t) ?_ ?_ ?_ ?_ ?_
  · refine fun r => ⟨fun k x => ⟨fun t => ?_, fun t => ?_⟩, rfl⟩
    · simp [OpBased.start, orSetSize, tagMoves, orItems, run, Board.empty, oreNew]
    · simp [OpBased.start, orSetSize, tagMoves, orItems, run, Board.empty, oreNew]
  · simp [OpBased.start]
  · intro g g' r c s o _ _ hp hboard
    obtain ⟨hsame, htotal, -⟩ := orSetSize_prepare hp
    exact hboard.congr hsame.aset hsame.rset htotal
  · intro g g' r c s m hg hmsgs hboard _ _ hp it hit t ht
    obtain ⟨-, -, hcopied⟩ := orSetSize_prepare hp
    rcases (hcopied m rfl it hit).tags t ht with hdrawn | ⟨k, x, u, hu, rfl⟩
    · exact hdrawn
    · -- a listed tag is on the board, so a message brought it
      obtain ⟨m', hm', hkey⟩ := exists_of_mem_tokens (((hboard.ore k x).aset u).mpr hu)
      have hu : IsTag m'.key.2.2 := isTag_of_mem_tagMoves
        (fun e he => hmsgs e ((Reachable.wellFormed hg).applied_mem he)) hm'
      rw [hkey] at hu
      rwa [sdsnew_of_nulFree hu.nulFree]
  · intro g' r e A s _ hmsgs he _ hboard
    have hitems : orItems (A ++ [e]) = orItems A ++ e.msg.items := by simp [orItems]
    rw [tagMoves, hitems]
    exact hboard.effect fun it hit t ht => (hmsgs e he it hit t ht).nulFree

theorem OrMeter.OnBoard.exact_iff {s : OrMeter} {st : Metered (Sds × Sds × Sds)}
    (h : s.OnBoard st) : s.Exact ↔ st.meter = st.board.size tagSize := by
  rw [h.meter]
  constructor
  · rintro ⟨live, dead, hlive, hdead, htotal⟩
    have htokens : st.board.tokens = live := by
      ext ⟨k, x, t⟩
      rw [(h.ore k x).aset, hlive]
    have hholes : st.board.holes = dead := by
      ext ⟨k, x, t⟩
      rw [(h.ore k x).rset, hdead]
    rw [htotal, Board.size, htokens, hholes]
    rfl
  · exact fun heq => ⟨_, _, fun k x => (h.ore k x).aset, fun k x => (h.ore k x).rset, heq⟩

/-- **When `total_tag_size` is exact.** Whatever the order in which messages are applied, the
counter of a replica is the length of the tags it stores if and only if, at no point of what the
replica has applied, a tag of a member has been added two times more than removed or the other way
round. -/
theorem total_tag_size_exact_iff (hg : Reachable (orSetSize iter) anyOrder g) (r : Fin N) :
    (g.state r).Exact ↔ Level (tagMoves (g.applied r)) := by
  obtain ⟨hmsgs, hboard⟩ := onBoard_of_reachable hg
  rw [(hboard r).exact_iff, meter_eq_size_iff]
  intro m hm
  have htag : IsTag m.key.2.2 := isTag_of_mem_tagMoves
    (fun e he => hmsgs e ((Reachable.wellFormed hg).applied_mem he)) hm
  exact Int.natCast_pos.mpr htag.length_pos

end

end RemoveWin
