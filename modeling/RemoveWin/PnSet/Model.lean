import RemoveWin.Lib.OpBased
import RemoveWin.SetDb

/-!
# The positive-negative set

`t_pnset.c`. The hidden table has a counter for every member. An add is issued for members that
are not visible and carries the increment that takes the counter of its origin to one; a remove
is issued for visible members and takes one off. The add effect only ever inserts into the
visible set and the remove effect only ever deletes from it, each after a look at the counter.

Counters are unbounded integers here, where the source has `long long`.

## Differences between the commands

`PNSADD` looks up the counter under the whole argument, `PNSUNIONSTORE` under the truncated copy;
both send the truncated copy. A command that lists a member twice sends it twice: an add with the
same increment both times, since the prepare phase does not touch the counter.

## Main definitions

* `RemoveWin.Pne`, `PnDb`, `PnCmd`, `PnMsg`
* `RemoveWin.pnsPrepare`, `pnsEffect` — all prepare and effect phases
* `RemoveWin.pnSet` — the replicated object
-/

namespace RemoveWin

open Containers Replicated

/-- `struct PN_SET_element`. -/
structure Pne where
  /-- The counter. -/
  current : ℤ
  deriving DecidableEq

/-- `pneNew`. -/
def pneNew : Pne := ⟨0⟩

/-- The PN-Sets at one replica. -/
abbrev PnDb := SetDb Pne

/-- The commands, with their arguments after the name. -/
inductive PnCmd where
  | add (key : Sds) (members : List Sds)
  | rem (key : Sds) (members : List Sds)
  | unionstore (dst src : Sds) (srcs : List Sds)
  | diffstore (dst src : Sds) (srcs : List Sds)
  | interstore (dst src : Sds) (srcs : List Sds)

/-- An entry of an add: a member and the increment of its counter. -/
structure PnAdd where
  /-- The member. -/
  member : Sds
  /-- The increment. -/
  cnt : ℤ

/-- What is broadcast: the effect, the set and the entries in the order they were appended. -/
inductive PnMsg where
  | add (setName : Sds) (entries : List PnAdd)
  | rem (setName : Sds) (members : List Sds)

section

variable {D : Type} [SetTables D Pne]

/-- `pneHTGet` with `create` set. -/
def pneHTGet (db : D) (tname key : Sds) : Pne × D := Tables.get pneNew db tname key

/-! ### Prepare -/

/-- Send `x` with the increment that takes the counter found under `key` to one. -/
def raiseToOne (tname key x : Sds) (db : D) : D × Option PnAdd :=
  let (e, db) := pneHTGet db tname key
  (db, some ⟨sdsnew x, 1 - e.current⟩)

/-- `pnsaddCommand`, prepare phase. The type of the key is not checked; one without the encoding of
a set makes the first membership test panic. -/
def pnsaddPrepare (key : Sds) (members : List Sds) (db : D) : Option (Prepared D PnMsg) :=
  match Tables.view db key with
  | some (.other none) => if members.isEmpty then some ⟨db, [.eleExist], none⟩ else none
  | _ =>
    let (db', es) := collect (fun x db' =>
      if Keys.lacks (Tables.view db) key x then raiseToOne key x x db' else (db', none)) members db
    if es.isEmpty then some ⟨db', [.eleExist], none⟩
    else some ⟨db', [.ok], some (.add key es)⟩

/-- `pnsremCommand`, prepare phase. -/
def pnsremPrepare (key : Sds) (members : List Sds) (db : D) : Prepared D PnMsg :=
  match Tables.view db key with
  | none => ⟨db, [.czero], none⟩
  | some (.other _) => ⟨db, [.wrongtypeerr], none⟩
  | some (.set set) =>
    let xs := (members.filter fun x => setTypeIsMember set x).map sdsnew
    if xs.isEmpty then ⟨db, [.eleNexist], none⟩ else ⟨db, [.ok], some (.rem key xs)⟩

/-- `pnsunionstoreCommand`, prepare phase. -/
def pnsunionstorePrepare (srv : Server) (dst : Sds) (srcs : List Sds) (db : D) :
    Option (Prepared D PnMsg) :=
  let (dstset, replies) := sunionResult srv (Tables.view db) srcs .empty
  let (db', es) := collect (fun x db' =>
    if Keys.lacks (Tables.view db) dst x then raiseToOne dst (sdsnew x) x db' else (db', none))
    (srv.iter.order dstset.elems) db
  match Tables.view db dst with
  | some (.other none) =>
    if dstset.elems.isEmpty then some ⟨db, replies ++ [.ok], some (.add dst [])⟩ else none
  | _ => some ⟨db', replies ++ [.ok], some (.add dst es)⟩

/-- The loop of the two removing store commands: every member of the destination that is not in
the scratch set. -/
def pnsstoreRemoves (srv : Server) (set dstset : SetObj) : List Sds :=
  ((srv.iter.order set.elems).filter fun x => !setTypeIsMember dstset x).map sdsnew

/-- `pnsdiffstoreCommand`, prepare phase. -/
def pnsdiffstorePrepare (srv : Server) (dst src : Sds) (srcs : List Sds) (db : D) :
    Option (Prepared D PnMsg) :=
  match sdiffResult srv (Tables.view db) src srcs .empty, (Tables.view db dst).bind RObj.asSet with
  | some (dstset, replies), some set =>
    some ⟨db, replies ++ [.ok], some (.rem dst (pnsstoreRemoves srv set dstset))⟩
  | _, _ => none

/-- `pnsinterstoreCommand`, prepare phase. -/
def pnsinterstorePrepare (srv : Server) (dst src : Sds) (srcs : List Sds) (db : D) :
    Option (Prepared D PnMsg) :=
  let (dstset, replies) := sinterResult srv (Tables.view db) src srcs .empty
  match (Tables.view db dst).bind RObj.asSet with
  | some set =>
    some ⟨db, replies ++ [.ok], some (.rem dst (pnsstoreRemoves srv set dstset))⟩
  | none => none

/-- The prepare phase of any PN-Set command. -/
def pnsPrepare (srv : Server) : PnCmd → D → Option (Prepared D PnMsg)
  | .add key members, db => pnsaddPrepare key members db
  | .rem key members, db => some (pnsremPrepare key members db)
  | .unionstore dst src srcs, db => pnsunionstorePrepare srv dst (src :: srcs) db
  | .diffstore dst src srcs, db => pnsdiffstorePrepare srv dst src srcs db
  | .interstore dst src srcs, db => pnsinterstorePrepare srv dst src srcs db

/-! ### Effect -/

/-- One round of the loop of `pnsaddGenericCommand`. -/
def pnsaddEntry (setName : Sds) (db : D) (en : PnAdd) : D :=
  let (e, db) := pneHTGet db setName en.member
  let e : Pne := ⟨e.current + en.cnt⟩
  let db := Tables.put db setName en.member e
  if 0 < e.current then Tables.update db setName (.add en.member) else db

/-- One round of the loop of `pnsremGenericCommand`. -/
def pnsremEntry (setName : Sds) (db : D) (x : Sds) : D :=
  let (e, db) := pneHTGet db setName x
  let e : Pne := ⟨e.current - 1⟩
  let db := Tables.put db setName x e
  if e.current ≤ 0 then Tables.update db setName (.remove x) else db

/-- `pnsaddGenericCommand` and `pnsremGenericCommand`: make sure the set is there, with the last
member as a sample, then go through the entries from the last to the first. A message without
entries does nothing. -/
def pnsEffect (m : PnMsg) (db : D) : D :=
  match m with
  | .add setName es =>
    if es.isEmpty then db
    else es.reverse.foldl (pnsaddEntry setName)
      (Tables.update db setName (.create (es.getLast?.map PnAdd.member)))
  | .rem setName xs =>
    if xs.isEmpty then db
    else xs.reverse.foldl (pnsremEntry setName) (Tables.update db setName (.create xs.getLast?))

end

/-- The PN-Set of `N` servers, as a replicated object. -/
def pnSet {N : ℕ} (iter : Fin N → Iteration) : OpBased (Fin N) PnDb PnCmd PnMsg where
  init _ := .empty
  prepare r c db := (pnsPrepare (.of iter r) c db).map fun p => (p.state, p.msg)
  effect _ m db := pnsEffect m db

end RemoveWin
