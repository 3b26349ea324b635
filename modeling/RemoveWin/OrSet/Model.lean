import RemoveWin.LamportClock
import RemoveWin.Lib.OpBased
import RemoveWin.SetDb

/-!
# The observed-remove set

`t_orset.c`. Every add draws a tag for its member, and a remove lists the tags of the member that
its origin has. A member's entry in the hidden table has the counter tags are drawn from and two
dictionaries of tags: `aset` for the live ones, `rset` for removes that came before their add.

Drawing happens in the prepare phase, so the counter of an entry moves only at replicas where
adds are issued, and each replica draws from a counter of its own. The effects walk the entries
of a message from the last to the first.

## Differences between the commands

`ORSADD` and `ORSREM` refuse when there is nothing to send, the store commands send a message
without entries. `ORSADD` and `ORSREM` look up a member under the whole argument and send the
truncated copy, the store commands look it up under the truncated copy. A missing destination is
an empty set for `ORSUNIONSTORE` and a `NULL` pointer followed for the other two.

## Main definitions

* `RemoveWin.Ore`, `OrDb`, `OrCmd`, `OrMsg`
* `RemoveWin.orsPrepare`, `orsEffect` — all prepare and effect phases
* `RemoveWin.orSet` — the replicated object
-/

namespace RemoveWin

open Containers Replicated

/-- `struct OR_SET_element`. A dictionary of keys only is the hash table behind a set object. -/
structure Ore where
  /-- The counter of the next tag. -/
  current : ℤ
  /-- The live tags. -/
  aset : SetObj
  /-- The tombstones. -/
  rset : SetObj

/-- `oreNew`. -/
def oreNew : Ore := ⟨0, .empty, .empty⟩

/-- The OR-Sets at one replica. -/
abbrev OrDb := SetDb Ore

/-- The commands, with their arguments after the name. -/
inductive OrCmd where
  | add (key : Sds) (members : List Sds)
  | rem (key : Sds) (members : List Sds)
  | unionstore (dst src : Sds) (srcs : List Sds)
  | diffstore (dst src : Sds) (srcs : List Sds)
  | interstore (dst src : Sds) (srcs : List Sds)

/-- An entry of an add: a member and its tag. -/
structure OrAdd where
  /-- The member. -/
  member : Sds
  /-- The tag. -/
  tag : Sds

/-- An entry of a remove: a member and the tags its origin had. -/
structure OrRem where
  /-- The member. -/
  member : Sds
  /-- The tags. -/
  tags : List Sds

/-- What is broadcast: the effect, the set and the entries in the order they were appended. -/
inductive OrMsg where
  | add (setName : Sds) (entries : List OrAdd)
  | rem (setName : Sds) (entries : List OrRem)

section

variable {D : Type} [SetTables D Ore]

/-- `oreHTGet` with `create` set. -/
def oreHTGet (db : D) (tname key : Sds) : Ore × D := Tables.get oreNew db tname key

/-! ### Prepare -/

/-- Draw a tag for the member looked up under `key`, and send `x` with it. -/
def drawTag (srv : Server) (tname key x : Sds) (db : D) : D × Option OrAdd :=
  let (e, db) := oreHTGet db tname key
  let t : Lc := ⟨e.current, srv.p2pId⟩
  (Tables.put db tname key { e with current := e.current + 1 }, some ⟨sdsnew x, lcToSds t⟩)

/-- List the tags of the member looked up under `key`, and send `x` with them. -/
def listTags (srv : Server) (tname key x : Sds) (db : D) : D × Option OrRem :=
  let (e, db) := oreHTGet db tname key
  (db, some ⟨sdsnew x, (srv.iter.order e.aset.elems).map sdsnew⟩)

/-- `orsaddCommand`, prepare phase. The type of the key is not checked; one without the encoding of
a set makes the first membership test panic. -/
def orsaddPrepare (srv : Server) (key : Sds) (members : List Sds) (db : D) :
    Option (Prepared D OrMsg) :=
  match Tables.view db key with
  | some (.other none) => if members.isEmpty then some ⟨db, [.eleExist], none⟩ else none
  | _ =>
    let (db', es) := collect (fun x db' =>
      if Keys.lacks (Tables.view db) key x then drawTag srv key x x db' else (db', none)) members db
    if es.isEmpty then some ⟨db', [.eleExist], none⟩
    else some ⟨db', [.ok], some (.add key es)⟩

/-- `orsremCommand`, prepare phase. -/
def orsremPrepare (srv : Server) (key : Sds) (members : List Sds) (db : D) :
    Prepared D OrMsg :=
  match Tables.view db key with
  | none => ⟨db, [.czero], none⟩
  | some (.other _) => ⟨db, [.wrongtypeerr], none⟩
  | some (.set set) =>
    let (db', es) := collect (fun x db' =>
      if setTypeIsMember set x then listTags srv key x x db' else (db', none)) members db
    if es.isEmpty then ⟨db', [.eleNexist], none⟩ else ⟨db', [.ok], some (.rem key es)⟩

/-- `orsunionstoreCommand`, prepare phase. -/
def orsunionstorePrepare (srv : Server) (dst : Sds) (srcs : List Sds) (db : D) :
    Option (Prepared D OrMsg) :=
  let (dstset, replies) := sunionResult srv (Tables.view db) srcs .empty
  let (db', es) := collect (fun x db' =>
    -- the entry is fetched once for every element and once more for those that are sent
    let (_, db') := oreHTGet db' dst (sdsnew x)
    if Keys.lacks (Tables.view db) dst x then drawTag srv dst (sdsnew x) x db' else (db', none))
    (srv.iter.order dstset.elems) db
  match Tables.view db dst with
  | some (.other none) =>
    if dstset.elems.isEmpty then some ⟨db, replies ++ [.ok], some (.add dst [])⟩ else none
  | _ => some ⟨db', replies ++ [.ok], some (.add dst es)⟩

/-- The loop of the two removing store commands: every member of the destination that is not in
the scratch set. -/
def orsstoreRemoves (srv : Server) (dst : Sds) (set dstset : SetObj) (replies : List Reply)
    (db : D) : Prepared D OrMsg :=
  let (db', es) := collect (fun x db' =>
    if setTypeIsMember dstset x then (db', none) else listTags srv dst (sdsnew x) x db')
    (srv.iter.order set.elems) db
  ⟨db', replies ++ [.ok], some (.rem dst es)⟩

/-- `orsdiffstoreCommand`, prepare phase. -/
def orsdiffstorePrepare (srv : Server) (dst src : Sds) (srcs : List Sds) (db : D) :
    Option (Prepared D OrMsg) :=
  match sdiffResult srv (Tables.view db) src srcs .empty, (Tables.view db dst).bind RObj.asSet with
  | some (dstset, replies), some set => some (orsstoreRemoves srv dst set dstset replies db)
  | _, _ => none

/-- `orsinterstoreCommand`, prepare phase. -/
def orsinterstorePrepare (srv : Server) (dst src : Sds) (srcs : List Sds) (db : D) :
    Option (Prepared D OrMsg) :=
  let (dstset, replies) := sinterResult srv (Tables.view db) src srcs .empty
  match (Tables.view db dst).bind RObj.asSet with
  | some set => some (orsstoreRemoves srv dst set dstset replies db)
  | none => none

/-- The prepare phase of any OR-Set command. -/
def orsPrepare (srv : Server) : OrCmd → D → Option (Prepared D OrMsg)
  | .add key members, db => orsaddPrepare srv key members db
  | .rem key members, db => some (orsremPrepare srv key members db)
  | .unionstore dst src srcs, db => orsunionstorePrepare srv dst (src :: srcs) db
  | .diffstore dst src srcs, db => orsdiffstorePrepare srv dst src srcs db
  | .interstore dst src srcs, db => orsinterstorePrepare srv dst src srcs db

/-! ### Effect -/

/-- `addTag`. -/
def addTag (ht : SetObj) (tag : Sds) : SetObj := setTypeAdd ht (sdsnew tag)

/-- `removeTag`, with its return value. -/
def removeTag (ht : SetObj) (tag : Sds) : SetObj × Bool :=
  if tag ∈ ht then (setTypeRemove ht tag, true) else (ht, false)

/-- `lookup`: the number of live tags. -/
def Ore.lookup (e : Ore) : ℕ := setTypeSize e.aset

/-- What an add does to the entry of its member. -/
def Ore.add (e : Ore) (tag : Sds) : Ore :=
  match removeTag e.rset tag with
  | (rset, true) => { e with rset }
  | (_, false) => { e with aset := addTag e.aset tag }

/-- What a remove does to the entry of its member, tag by tag. -/
def Ore.remove (e : Ore) (tag : Sds) : Ore :=
  match removeTag e.aset tag with
  | (aset, true) => { e with aset }
  | (_, false) => { e with rset := addTag e.rset tag }

/-- One round of the loop of `orsaddGenericCommand`. -/
def orsaddEntry (setName : Sds) (db : D) (en : OrAdd) : D :=
  let (e, db) := oreHTGet db setName en.member
  let e := e.add en.tag
  let db := Tables.put db setName en.member e
  if 0 < e.lookup then Tables.update db setName (.add en.member) else db

/-- One round of the loop of `orsremGenericCommand`. -/
def orsremEntry (setName : Sds) (db : D) (en : OrRem) : D :=
  let (e, db) := oreHTGet db setName en.member
  let e := en.tags.foldl Ore.remove e
  let db := Tables.put db setName en.member e
  if e.lookup = 0 then Tables.update db setName (.remove en.member) else db

/-- `orsaddGenericCommand` and `orsremGenericCommand`: make sure the set is there, then go through
the entries from the last to the first. A message without entries does nothing. `getSetOrCreate` is
handed an object where it expects the text of a sample. -/
def orsEffect (m : OrMsg) (db : D) : D :=
  match m with
  | .add setName es =>
    if es.isEmpty then db
    else es.reverse.foldl (orsaddEntry setName) (Tables.update db setName (.create none))
  | .rem setName es =>
    if es.isEmpty then db
    else es.reverse.foldl (orsremEntry setName) (Tables.update db setName (.create none))

end

/-- The OR-Set of `N` servers, as a replicated object. -/
def orSet {N : ℕ} (iter : Fin N → Iteration) : OpBased (Fin N) OrDb OrCmd OrMsg where
  init _ := .empty
  prepare r c db := (orsPrepare (.of iter r) c db).map fun p => (p.state, p.msg)
  effect _ m db := orsEffect m db

end RemoveWin
