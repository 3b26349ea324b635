import RemoveWin.Lib.OpBased
import RemoveWin.RWFramework
import RemoveWin.SetDb

/-!
# The remove-win set

`t_rwset.c`. An RWF-Set is two things at one replica: the visible set, an ordinary set object at
the key, and a hidden hash table with a header for every member ever mentioned. The table lives
at the key with a suffix appended. The handlers are written for any store of sets with tables. The
results here are for tables that are private to these commands; nothing in the source makes them so,
and `KeySpace.RwSet` says what holds of servers that have both in one dictionary.

The prepare phase of each command decides which members to send and with which clock. Adds and
union send the clock of the header, removes, difference and intersection send `nowVC` of it.
The effect walks the entries from the last to the first.

## Where the copies are not binary safe

`RWFSADD` copies members with `sdsdup`, the other commands with `sdsnew`. `RWFSREM` looks up
header and membership under the whole argument and sends the truncated copy; the store commands
look up the header under the truncated copy and membership under the whole member.
-/

namespace RemoveWin

open Containers Replicated

/-- The RWF-Sets at one replica. -/
abbrev RwDb := SetDb Reh

/-- A member and the clock sent with it. -/
structure RwEntry where
  /-- The member. -/
  member : Sds
  /-- The clock. -/
  clock : VC

/-- The commands, with their arguments after the name. -/
inductive RwCmd where
  | add (key : Sds) (members : List Sds)
  | rem (key : Sds) (members : List Sds)
  | unionstore (dst src : Sds) (srcs : List Sds)
  | diffstore (dst src : Sds) (srcs : List Sds)
  | interstore (dst src : Sds) (srcs : List Sds)

/-- What is broadcast: which effect, on which set, with which entries. -/
structure RwMsg where
  /-- Whether the effect is `saddGenericCommand` or `sremGenericCommand`. -/
  isAdd : Bool
  /-- The name of the set. -/
  setName : Sds
  /-- The entries in the order they were appended to the message. -/
  entries : List RwEntry

section

variable {D : Type} [SetTables D Reh]

/-- `rwseHTGet` with `create` set: the header, and the table that now has it. -/
def rwseHTGet (srv : Server) (db : D) (tname key : Sds) : Reh × D :=
  Tables.get (rehInit srv) db tname key

/-! ### Prepare -/

/-- The loop of every prepare phase: fetch the header under `key x`, and send `out x` with the
clock that `emit` picks, if it picks one. -/
def entryLoop (srv : Server) (tname : Sds) (key out : Sds → Sds) (emit : Sds → Reh → Option VC) :
    List Sds → D → D × List RwEntry :=
  collect fun x db =>
    let (h, db) := rwseHTGet srv db tname (key x)
    (db, (emit x h).map fun t => ⟨out x, t⟩)

/-- The end of every prepare phase: refuse when nothing is to be sent, else accept. -/
def rwsFinish (isAdd : Bool) (setName : Sds) (replies : List Reply) (refusal : Reply)
    (r : D × List RwEntry) : Prepared D RwMsg :=
  if r.2.isEmpty then ⟨r.1, replies ++ [refusal], none⟩
  else ⟨r.1, replies ++ [.ok], some ⟨isAdd, setName, r.2⟩⟩

/-- `rwsaddCommand`, prepare phase. -/
def rwsaddPrepare (srv : Server) (key : Sds) (members : List Sds) (db : D) :
    Prepared D RwMsg :=
  match Tables.view db key with
  | some (.other _) => ⟨db, [.wrongtypeerr], none⟩
  | _ =>
    rwsFinish true key [] .eleExist <|
      entryLoop srv key id id (fun _ h => if h.Exists then none else some h.current) members db

/-- `rwsremCommand`, prepare phase. -/
def rwsremPrepare (srv : Server) (key : Sds) (members : List Sds) (db : D) :
    Prepared D RwMsg :=
  match Tables.view db key with
  | none => ⟨db, [.czero], none⟩
  | some (.other _) => ⟨db, [.wrongtypeerr], none⟩
  | some (.set set) =>
    rwsFinish false key [] .eleNexist <|
      entryLoop srv key id sdsnew
        (fun x h => if setTypeIsMember set x then some (nowVC h.current) else none) members db

/-- `rwsunionstoreCommand`, prepare phase. An absent destination ends it without a reply; one
without the encoding of a set is only noticed, by a panic, when there is a member to test. -/
def rwsunionstorePrepare (srv : Server) (dst : Sds) (srcs : List Sds) (db : D) :
    Option (Prepared D RwMsg) :=
  match Tables.view db dst with
  | none => some ⟨db, [], none⟩
  | some set =>
    let (dstset, replies) := sunionResult srv (Tables.view db) srcs .empty
    match set.asSet with
    | none =>
      if dstset.elems.isEmpty then some ⟨db, replies ++ [.eleExist], none⟩ else none
    | some set =>
      some <| rwsFinish true dst replies .eleExist <|
        entryLoop srv dst sdsnew sdsnew
          (fun x h => if setTypeIsMember set x then none else some h.current)
          (srv.iter.order dstset.elems) db

/-- `rwsdiffstoreCommand`, prepare phase. -/
def rwsdiffstorePrepare (srv : Server) (dst src : Sds) (srcs : List Sds) (db : D) :
    Option (Prepared D RwMsg) :=
  match Tables.view db dst with
  | none => some ⟨db, [], none⟩
  | some set =>
    match sdiffResult srv (Tables.view db) src srcs .empty, set.asSet with
    | none, _ => none
    | some _, none => none
    | some (dstset, replies), some set =>
      some <| rwsFinish false dst replies .eleNexist <|
        entryLoop srv dst sdsnew sdsnew (fun _ h => some (nowVC h.current))
          ((srv.iter.order set.elems).filter fun x => !setTypeIsMember dstset x) db

/-- `rwsinterstoreCommand`, prepare phase. Alone among the removing commands it skips members
whose header says they are not there. -/
def rwsinterstorePrepare (srv : Server) (dst src : Sds) (srcs : List Sds) (db : D) :
    Option (Prepared D RwMsg) :=
  match Tables.view db dst with
  | none => some ⟨db, [], none⟩
  | some set =>
    let (dstset, replies) := sinterResult srv (Tables.view db) src srcs .empty
    match set.asSet with
    | none => none
    | some set =>
      some <| rwsFinish false dst replies .eleNexist <|
        entryLoop srv dst sdsnew sdsnew
          (fun _ h => if h.Exists then some (nowVC h.current) else none)
          ((srv.iter.order set.elems).filter fun x =>
            setTypeSize dstset = 0 || !setTypeIsMember dstset x) db

/-- The prepare phase of any RWF-Set command. -/
def rwsPrepare (srv : Server) : RwCmd → D → Option (Prepared D RwMsg)
  | .add key members, db => some (rwsaddPrepare srv key members db)
  | .rem key members, db => some (rwsremPrepare srv key members db)
  | .unionstore dst src srcs, db => rwsunionstorePrepare srv dst (src :: srcs) db
  | .diffstore dst src srcs, db => rwsdiffstorePrepare srv dst src srcs db
  | .interstore dst src srcs, db => rwsinterstorePrepare srv dst src srcs db

/-! ### Effect -/

/-- `setRemoveFunc`, on the header it is handed. -/
def setRemoveFunc (db : D) (h : Reh) (t : VC) (setName eleName : Sds) : Reh × D :=
  if removeCheck h t then (rehRmvFunc h t, Tables.update db setName (.remove eleName)) else (h, db)

/-- One round of the loop of `saddGenericCommand`. -/
def saddEntry (srv : Server) (setName : Sds) (db : D) (en : RwEntry) : D :=
  let (h, db) := rwseHTGet srv db setName en.member
  let (h, db) := setRemoveFunc db h en.clock setName en.member
  if insertCheck h en.clock then
    Tables.put (Tables.update db setName (.add en.member)) setName en.member
      { h with pid := en.clock.id }
  else Tables.put db setName en.member h

/-- One round of the loop of `sremGenericCommand`. -/
def sremEntry (srv : Server) (setName : Sds) (db : D) (en : RwEntry) : D :=
  let (h, db) := rwseHTGet srv db setName en.member
  let (h, db) := setRemoveFunc db h en.clock setName en.member
  Tables.put db setName en.member h

/-- One round of either loop. -/
def rwsEntry (srv : Server) (isAdd : Bool) (setName : Sds) (db : D) (en : RwEntry) : D :=
  if isAdd then saddEntry srv setName db en else sremEntry srv setName db en

/-- `saddGenericCommand` and `sremGenericCommand`: make sure the set is there, with the last member
as a sample, then go through the entries from the last to the first. A message without entries does
nothing. -/
def rwsEffect (srv : Server) (m : RwMsg) (db : D) : D :=
  if m.entries.isEmpty then db
  else
    m.entries.reverse.foldl (rwsEntry srv m.isAdd m.setName)
      (Tables.update db m.setName (.create (m.entries.getLast?.map RwEntry.member)))

end

/-! ### Headers -/

namespace Db

/-- The header of a member, as `rwseHTGet` returns it: a fresh one when there is none. -/
def header (srv : Server) (db : RwDb) (tname key : Sds) : Reh := db.elem (rehInit srv) tname key

variable (srv : Server) (db : RwDb) (s x : Sds)

@[simp] theorem header_empty : (SetDb.empty : RwDb).header srv s x = rehInit srv := rfl

@[simp] theorem header_setElem_self (h : Reh) : (db.setElem s x h).header srv s x = h :=
  elem_setElem_self ..

theorem header_setElem_of_ne {s x s' x' : Sds} (h : Reh) (hne : (s', x') ≠ (s, x)) :
    (db.setElem s x h).header srv s' x' = db.header srv s' x' := elem_setElem_of_ne _ _ _ hne

@[simp] theorem header_modifySet (f : SetObj → SetObj) :
    (db.modifySet s f).header srv = db.header srv := rfl

end Db

section

variable (srv : Server) (db : RwDb) (s x : Sds)

theorem rwseHTGet_fst : (rwseHTGet srv db s x).1 = db.header srv s x := Db.htGet_fst ..

@[simp] theorem keys_rwseHTGet : (rwseHTGet srv db s x).2.keys = db.keys := Db.keys_htGet ..

/-- Creating a header is not visible through `header`. -/
@[simp] theorem header_rwseHTGet : (rwseHTGet srv db s x).2.header srv = db.header srv :=
  Db.elem_htGet ..

end

/-- A prepare loop changes no key and no header, and sends what `emit` picks. -/
theorem entryLoop_spec (srv : Server) (tname : Sds) (key out : Sds → Sds)
    (emit : Sds → Reh → Option VC) (xs : List Sds) (db : RwDb) :
      (entryLoop srv tname key out emit xs db).1.keys = db.keys ∧
      (entryLoop srv tname key out emit xs db).1.header srv = db.header srv ∧
      (entryLoop srv tname key out emit xs db).2 =
        xs.filterMap fun x => (emit x (db.header srv tname (key x))).map (⟨out x, ·⟩) := by
  refine ⟨collect_still Db.keys (fun x db => keys_rwseHTGet ..) xs db,
    collect_still (Db.header srv) (fun x db => header_rwseHTGet ..) xs db,
    collect_of_still (Db.header srv)
      (f := fun x header => (emit x (header tname (key x))).map (RwEntry.mk (out x))) ?_ xs db⟩
  intro x db
  exact ⟨header_rwseHTGet .., by simp only [rwseHTGet_fst]⟩

/-! ### What a prepare phase sends -/

/-- The members given with a command. -/
def RwCmd.members : RwCmd → List Sds
  | .add _ members => members
  | .rem _ members => members
  | _ => []

/-- The clock an entry carries: an add sends the clock of the header, a remove one more. -/
def rwStamp (isAdd : Bool) (h : Reh) : VC := if isAdd then h.current else nowVC h.current

/-- Where an entry comes from: a member of the command or of a visible set, sent and looked up
whole or truncated. -/
structure RwEntry.Origin (srv : Server) (c : RwCmd) (db : RwDb) (isAdd : Bool) (setName : Sds)
    (en : RwEntry) (y k : Sds) : Prop where
  mention : y ∈ c.members ∨ ∃ s, y ∈ db.keys.visible s
  member : en.member = y ∨ en.member = sdsnew y
  key : k = y ∨ k = sdsnew y
  clock : en.clock = rwStamp isAdd (db.header srv setName k)

/-- What every prepare phase guarantees. -/
structure RwPrepared (srv : Server) (c : RwCmd) (db : RwDb) (p : Prepared RwDb RwMsg) : Prop where
  keys : p.state.keys = db.keys
  header : p.state.header srv = db.header srv
  entries : ∀ m ∈ p.msg, ∀ en ∈ m.entries, ∃ y k, en.Origin srv c db m.isAdd m.setName y k

theorem RwPrepared.refused (srv : Server) (c : RwCmd) (db : RwDb) (replies : List Reply) :
    RwPrepared srv c db ⟨db, replies, none⟩ := ⟨rfl, rfl, by simp⟩

/-- The common shape of the accepting branches: a loop over members that were given or visible,
sending the clocks of its kind. -/
theorem RwPrepared.loop {srv : Server} {c : RwCmd} {db : RwDb} {isAdd : Bool} {setName : Sds}
    {key out : Sds → Sds} {emit : Sds → Reh → Option VC} {xs : List Sds}
    (hxs : ∀ x ∈ xs, x ∈ c.members ∨ ∃ s, x ∈ db.keys.visible s)
    (hkey : key = id ∨ key = sdsnew) (hout : out = id ∨ out = sdsnew)
    (hemit : ∀ x h, ∀ t ∈ emit x h, t = rwStamp isAdd h) (replies : List Reply)
    (refusal : Reply) :
    RwPrepared srv c db
      (rwsFinish isAdd setName replies refusal (entryLoop srv setName key out emit xs db)) := by
  obtain ⟨hk, hh, he⟩ := entryLoop_spec srv setName key out emit xs db
  unfold rwsFinish
  split
  · exact ⟨hk, hh, by simp⟩
  · refine ⟨hk, hh, fun m hm en hen => ?_⟩
    obtain rfl : _ = m := by simpa using hm
    simp only [he, List.mem_filterMap, Option.map_eq_some_iff] at hen
    obtain ⟨x, hx, t, ht, rfl⟩ := hen
    refine ⟨x, key x, hxs x hx, ?_, ?_, hemit _ _ t ht⟩
    · rcases hout with rfl | rfl <;> simp
    · rcases hkey with rfl | rfl <;> simp

theorem rwsPrepare_spec {srv : Server} {c : RwCmd} {db : RwDb} {p : Prepared RwDb RwMsg}
    (ho : db.keys.OnlySets) (hp : rwsPrepare srv c db = some p) : RwPrepared srv c db p := by
  cases c with
  | add key members =>
    cases hp
    unfold rwsaddPrepare
    split
    · exact .refused ..
    · refine .loop (fun x hx => .inl hx) (.inl rfl) (.inl rfl) (fun x h t ht => ?_) ..
      simp only [Option.mem_def, Option.ite_none_left_eq_some, Option.some.injEq] at ht
      exact ht.2.symm
  | rem key members =>
    cases hp
    unfold rwsremPrepare
    split
    · exact .refused ..
    · exact .refused ..
    · refine .loop (fun x hx => .inl hx) (.inl rfl) (.inr rfl) (fun x h t ht => ?_) ..
      simp only [Option.mem_def, Option.ite_none_right_eq_some, Option.some.injEq] at ht
      exact ht.2.symm
  | unionstore dst src srcs =>
    simp only [rwsPrepare, rwsunionstorePrepare, Db.view_eq] at hp
    split at hp
    · cases hp
      exact .refused ..
    · split at hp
      · split at hp
        · cases hp
          exact .refused ..
        · cases hp
      · cases hp
        refine .loop (fun x hx => .inr ?_) (.inr rfl) (.inr rfl) (fun x h t ht => ?_) ..
        · rw [Iteration.mem_order, SetObj.mem_elems, ho.mem_sunionResult] at hx
          obtain ⟨k, -, hk⟩ := hx.resolve_left (SetObj.notMem_empty x)
          exact ⟨k, hk⟩
        · simp only [Option.mem_def, Option.ite_none_left_eq_some, Option.some.injEq] at ht
          exact ht.2.symm
  | diffstore dst src srcs =>
    simp only [rwsPrepare, rwsdiffstorePrepare, Db.view_eq] at hp
    split at hp
    · cases hp
      exact .refused ..
    · next set hset =>
      split at hp
      · cases hp
      · cases hp
      · next o _ hasSet =>
        have hdst : db.keys dst = some (.set o) := ho.eq_set (by rw [hset]; exact hasSet)
        cases hp
        refine .loop (fun x hx => .inr ⟨dst, ?_⟩) (.inr rfl) (.inr rfl) (fun x h t ht => ?_) ..
        · rw [Keys.mem_visible_set hdst]
          simpa using (List.mem_filter.mp hx).1
        · exact (Option.some.inj ht).symm
  | interstore dst src srcs =>
    simp only [rwsPrepare, rwsinterstorePrepare, Db.view_eq] at hp
    split at hp
    · cases hp
      exact .refused ..
    · next set hset =>
      split at hp
      · cases hp
      · next o hasSet =>
        have hdst : db.keys dst = some (.set o) := ho.eq_set (by rw [hset]; exact hasSet)
        cases hp
        refine .loop (fun x hx => .inr ⟨dst, ?_⟩) (.inr rfl) (.inr rfl) (fun x h t ht => ?_) ..
        · rw [Keys.mem_visible_set hdst]
          simpa using (List.mem_filter.mp hx).1
        · simp only [Option.mem_def, Option.ite_none_right_eq_some, Option.some.injEq] at ht
          exact ht.2.symm

/-! ### What one entry does -/

section

variable (srv : Server) (db : RwDb) (h : Reh) (t : VC) (s x : Sds)

theorem setRemoveFunc_fst : (setRemoveFunc db h t s x).1 = h.rmv t := by
  unfold setRemoveFunc Reh.rmv
  split <;> rfl

theorem header_setRemoveFunc : (setRemoveFunc db h t s x).2.header srv = db.header srv := by
  unfold setRemoveFunc
  split <;> rfl

theorem keys_setRemoveFunc : (setRemoveFunc db h t s x).2.keys =
    if removeCheck h t then db.keys.modifySet s (setTypeRemove · x) else db.keys := by
  unfold setRemoveFunc
  split <;> rfl

end

section

variable {srv : Server} {isAdd : Bool} {s s' x : Sds} {db : RwDb} {en : RwEntry}

theorem header_rwsEntry_self :
    (rwsEntry srv isAdd s db en).header srv s en.member =
      (db.header srv s en.member).receive isAdd en.clock := by
  unfold rwsEntry saddEntry sremEntry Reh.receive
  cases isAdd
  · simp [setRemoveFunc_fst, rwseHTGet_fst]
  · simp only [if_pos, setRemoveFunc_fst, rwseHTGet_fst, Db.put_eq]
    unfold Reh.ins
    split <;> rw [Db.header_setElem_self]

theorem header_rwsEntry_of_ne (hne : (s', x) ≠ (s, en.member)) :
    (rwsEntry srv isAdd s db en).header srv s' x = db.header srv s' x := by
  unfold rwsEntry saddEntry sremEntry
  cases isAdd
  · simp only [Bool.false_eq_true, if_false, Db.put_eq]
    rw [Db.header_setElem_of_ne _ _ _ hne, header_setRemoveFunc, header_rwseHTGet]
  · simp only [if_true, Db.put_eq, Db.update_add]
    split <;> rw [Db.header_setElem_of_ne _ _ _ hne]
    · rw [Db.header_modifySet, header_setRemoveFunc, header_rwseHTGet]
    · rw [header_setRemoveFunc, header_rwseHTGet]

theorem keys_rwsEntry :
    (rwsEntry srv isAdd s db en).keys =
      let h := db.header srv s en.member
      let ks := if removeCheck h en.clock then db.keys.modifySet s (setTypeRemove · en.member)
        else db.keys
      if isAdd ∧ insertCheck (h.rmv en.clock) en.clock then
        ks.modifySet s (setTypeAdd · en.member)
      else ks := by
  unfold rwsEntry saddEntry sremEntry
  cases isAdd
  · simp [keys_setRemoveFunc, rwseHTGet_fst]
  · simp only [if_true, true_and, setRemoveFunc_fst, rwseHTGet_fst]
    split <;> simp [keys_setRemoveFunc]

theorem onlySets_rwsEntry (ho : db.keys.OnlySets) :
    (rwsEntry srv isAdd s db en).keys.OnlySets := by
  rw [keys_rwsEntry]
  dsimp only
  split_ifs
  · exact (ho.modifySet _ _).modifySet _ _
  · exact ho.modifySet _ _
  · exact ho.modifySet _ _
  · exact ho

theorem mem_visible_rwsEntry_of_ne (ho : db.keys.OnlySets) (hne : (s', x) ≠ (s, en.member)) :
    x ∈ (rwsEntry srv isAdd s db en).keys.visible s' ↔ x ∈ db.keys.visible s' := by
  have hmod : ∀ {ks : Keys} {f : SetObj → Sds → SetObj}, ks.OnlySets →
      (∀ o : SetObj, x ≠ en.member → (x ∈ f o en.member ↔ x ∈ o)) →
      (x ∈ (ks.modifySet s (f · en.member)).visible s' ↔ x ∈ ks.visible s') := by
    intro ks f hks hf
    by_cases hs : s' = s
    · subst hs
      have hx : x ≠ en.member := fun hx => hne (by rw [hx])
      exact hks.mem_visible_modifySet s' (p := id) fun o => hf o hx
    · rw [ks.visible_modifySet_of_ne _ hs]
  have hrem := hmod (f := setTypeRemove) ho fun o hx => by simp [hx]
  rw [keys_rwsEntry]
  dsimp only
  split_ifs
  · rw [hmod (f := setTypeAdd) (ho.modifySet _ _) fun o hx => by simp [hx], hrem]
  · exact hmod (f := setTypeAdd) ho fun o hx => by simp [hx]
  · exact hrem
  · rfl

/-- A member is visible after its entry if the entry put it there, or if it was visible and has
not been removed. -/
theorem mem_visible_rwsEntry_self (ho : db.keys.OnlySets) :
    en.member ∈ (rwsEntry srv isAdd s db en).keys.visible s ↔
      (isAdd ∧ insertCheck ((db.header srv s en.member).rmv en.clock) en.clock) ∨
        (¬ removeCheck (db.header srv s en.member) en.clock ∧
          en.member ∈ db.keys.visible s) := by
  have hadd : ∀ {ks : Keys}, ks.OnlySets →
      en.member ∈ (ks.modifySet s (setTypeAdd · en.member)).visible s := fun hks =>
    (hks.mem_visible_modifySet s (p := fun _ => True) fun o => by simp).mpr trivial
  rw [keys_rwsEntry]
  dsimp only
  split_ifs with hins hrem
  · exact ⟨fun _ => .inl hins, fun _ => hadd (ho.modifySet _ _)⟩
  · exact ⟨fun _ => .inl hins, fun _ => hadd ho⟩
  · rw [ho.mem_visible_modifySet s (p := fun _ => False) fun o => by simp]
    simp_all
  · simp_all

end

/-- The RWF-Set of `N` servers, as a replicated object. -/
def rwSet {N : ℕ} (iter : Fin N → Iteration) : OpBased (Fin N) RwDb RwCmd RwMsg where
  init _ := .empty
  prepare r c db := (rwsPrepare (.of iter r) c db).map fun p => (p.state, p.msg)
  effect r m db := rwsEffect (.of iter r) m db

end RemoveWin
