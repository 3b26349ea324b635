import RemoveWin.LamportClock
import RemoveWin.Lib.OpBased
import RemoveWin.ZsetType

/-!
# The add-win priority queue

`t_ozset.c`. Every add draws a tag. An element keeps a list `aset` with an entry for every live
tag: the value of the add, the sum of the increments that listed the tag and the sum of their
absolute values. Its score is the value of the entry with the greatest tag plus the sum of the
entry with the greatest absolute sum, and pointers to the two entries are cached.

An increment that arrives before the add of a tag it lists makes an entry for it, and the value
field of that entry is whatever `zmalloc` returned. The model takes these contents from an oracle,
so that results hold whatever they are.

## Pointers

`innate` and `acquired` point into `aset`. The tags in `aset` are distinct, so a pointer is the
tag of the entry it points to, and comparing pointers is comparing tags.

## Main definitions

* `RemoveWin.Ase`, `Oze`, `OzDb`, `OzCmd`, `OzMsg`
* `RemoveWin.ozPrepare`, `ozEffect` — all prepare and effect phases
* `RemoveWin.ozSet` — the replicated object
-/

namespace RemoveWin

open Containers Replicated

/-- `struct aset_element`. -/
structure Ase where
  /-- The tag. -/
  t : Lc
  /-- The value of the add, unspecified until the add sets it. -/
  x : ℚ
  /-- The sum of the increments. -/
  inc : ℚ
  /-- The sum of their absolute values. -/
  count : ℚ

/-- `struct ORI_RPQ_element`. -/
structure Oze where
  /-- The counter of the next tag. -/
  current : ℤ
  /-- The tag of the entry with the value, `none` for `NULL`. -/
  innate : Option Lc
  /-- The tag of the entry with the increments, `none` for `NULL`. -/
  acquired : Option Lc
  /-- The entries of the live tags. -/
  aset : List Ase
  /-- The removed tags. -/
  rset : List Lc

/-- `ozeNew`. -/
def ozeNew : Oze := ⟨0, none, none, [], []⟩

namespace Oze

/-- `LOOKUP`. -/
def Lookup (e : Oze) : Prop := e.aset.length ≠ 0

instance (e : Oze) : Decidable e.Lookup := inferInstanceAs (Decidable (e.aset.length ≠ 0))

/-- `asetGet` without `delete`. -/
def asetGet (e : Oze) (t : Lc) : Option Ase := e.aset.find? fun a => lcCmpAsTag t a.t = 0

/-- `rsetGet` without `delete`, as a test. -/
def rsetGet (e : Oze) (t : Lc) : Bool := e.rset.any fun a => lcCmpAsTag t a = 0

/-- `SCORE`. -/
def score (e : Oze) : ℚ :=
  ((e.innate.bind e.asetGet).map Ase.x).getD 0 + ((e.acquired.bind e.asetGet).map Ase.inc).getD 0

/-- `asetGet`, then `add_ase` if there is no entry. `junk` is what the value field holds. -/
def withAse (e : Oze) (t : Lc) (junk : ℚ) : Oze :=
  match e.asetGet t with
  | some _ => e
  | none => { e with aset := e.aset ++ [⟨t, junk, 0, 0⟩] }

/-- Change the entry of a tag in place. -/
def modifyAse (e : Oze) (t : Lc) (f : Ase → Ase) : Oze :=
  { e with aset := e.aset.map fun a => if a.t = t then f a else a }

/-- The test of `update_innate_value` and `resort` for moving `innate` to an entry. -/
def innateBelow (e : Oze) (a : Ase) : Bool :=
  match e.innate with
  | none => true
  | some i => lcCmpAsTag i a.t < 0

/-- The test of `update_acquired_value` and `resort` for moving `acquired` to an entry. -/
def acquiredBelow (e : Oze) (a : Ase) : Bool :=
  match e.acquired.bind e.asetGet with
  | none => true
  | some b => b.count < a.count || (b.count = a.count && lcCmpAsTag b.t a.t < 0)

/-- `update_innate_value`, with its return value. -/
def updateInnateValue (e : Oze) (t : Lc) (v junk : ℚ) : Oze × Bool :=
  if e.rsetGet t then (e, false)
  else
    let e := (e.withAse t junk).modifyAse t fun a => { a with x := v }
    match e.asetGet t with
    | none => (e, false)
    | some a => if e.innateBelow a then ({ e with innate := some t }, true) else (e, false)

/-- `update_acquired_value`, with its return value. -/
def updateAcquiredValue (e : Oze) (t : Lc) (v junk : ℚ) : Oze × Bool :=
  if e.rsetGet t then (e, false)
  else
    let e := (e.withAse t junk).modifyAse t fun a =>
      { a with inc := a.inc + v, count := a.count + if v > 0 then v else -v }
    match e.asetGet t with
    | none => (e, false)
    | some a =>
      if e.acquired = some t then (e, true)
      else if e.acquiredBelow a then ({ e with acquired := some t }, true)
      else (e, false)

/-- `remove_tag`. -/
def removeTag (e : Oze) (t : Lc) : Oze :=
  if e.rsetGet t then e
  else
    { e with
      rset := e.rset ++ [t]
      aset := e.aset.eraseP fun a => lcCmpAsTag t a.t = 0
      innate := if e.innate = some t then none else e.innate
      acquired := if e.acquired = some t then none else e.acquired }

/-- One round of the loop of `resort`. -/
def resortRound (e : Oze) (a : Ase) : Oze :=
  { e with
    innate := if e.innateBelow a then some a.t else e.innate
    acquired := if e.acquiredBelow a then some a.t else e.acquired }

/-- `resort`. -/
def resort (e : Oze) : Oze :=
  if e.innate.isSome && e.acquired.isSome then e else e.aset.foldl resortRound e

end Oze

/-- The priority queues at one replica. -/
abbrev OzDb := ZDb Oze

/-- What the value fields of fresh entries hold, by queue, element and tag. -/
abbrev Garbage := Sds → Sds → Lc → ℚ

/-- The commands. The value is what parsing its argument gives, and `more` are further
arguments. -/
inductive OzCmd where
  | add (key element : Sds) (value : Option ℚ) (more : List Sds)
  | incrby (key element : Sds) (value : Option ℚ) (more : List Sds)
  | rem (key element : Sds) (more : List Sds)

/-- Which effect a message has, with the tags as they are sent. -/
inductive OzOp where
  | add (value : ℚ) (tag : Sds)
  | incrby (value : ℚ) (tags : List Sds)
  | rem (tags : List Sds)

/-- What is broadcast. -/
structure OzMsg where
  /-- The effect. -/
  op : OzOp
  /-- The name of the queue. -/
  key : Sds
  /-- The element. -/
  element : Sds

section

variable {D : Type} [ZsetTables D Oze]

/-! ### Prepare -/

/-- `ozaddCommand`, prepare phase. -/
def ozaddPrepare (srv : Server) (key element : Sds) (value : Option ℚ) (more : List Sds)
    (db : D) : ZPrepared D OzMsg :=
  match checkArgcAndZsetType (Tables.view db) key more, value with
  | some reply, _ => ⟨db, reply, none⟩
  | none, none => ⟨db, .notFloat, none⟩
  | none, some v =>
    let (e, db) := Tables.get ozeNew db key element
    if e.Lookup then ⟨db, .eleExist, none⟩
    else
      let t : Lc := ⟨e.current, srv.p2pId⟩
      ⟨Tables.put db key element { e with current := e.current + 1 }, .ok,
        some ⟨.add v (lcToSds t), key, element⟩⟩

/-- `ozincrbyCommand`, prepare phase. -/
def ozincrbyPrepare (key element : Sds) (value : Option ℚ) (more : List Sds) (db : D) :
    ZPrepared D OzMsg :=
  match checkArgcAndZsetType (Tables.view db) key more, value with
  | some reply, _ => ⟨db, reply, none⟩
  | none, none => ⟨db, .notFloat, none⟩
  | none, some v =>
    match Tables.find db key element with
    | (none, db) => ⟨db, .eleNexist, none⟩
    | (some e, db) =>
      if e.Lookup then
        ⟨db, .ok, some ⟨.incrby v (e.aset.map fun a => lcToSds a.t), key, element⟩⟩
      else ⟨db, .eleNexist, none⟩

/-- `ozremCommand`, prepare phase. -/
def ozremPrepare (key element : Sds) (more : List Sds) (db : D) : ZPrepared D OzMsg :=
  match checkArgcAndZsetType (Tables.view db) key more with
  | some reply => ⟨db, reply, none⟩
  | none =>
    match Tables.find db key element with
    | (none, db) => ⟨db, .eleNexist, none⟩
    | (some e, db) =>
      if e.Lookup then ⟨db, .ok, some ⟨.rem (e.aset.map fun a => lcToSds a.t), key, element⟩⟩
      else ⟨db, .eleNexist, none⟩

/-- The prepare phase of any command of the queue. -/
def ozPrepare (srv : Server) : OzCmd → D → ZPrepared D OzMsg
  | .add key element value more, db => ozaddPrepare srv key element value more db
  | .incrby key element value more, db => ozincrbyPrepare key element value more db
  | .rem key element more, db => ozremPrepare key element more db

/-! ### Effect -/

/-- The loop of `ozincrbyCommand` over the tags, with the sum of the return values as a flag. -/
def Oze.increase (junk : Lc → ℚ) (v : ℚ) : List Lc → Oze → Oze × Bool
  | [], e => (e, false)
  | t :: ts, e =>
    let (e, changed) := e.updateAcquiredValue t v (junk t)
    let (e, changed') := Oze.increase junk v ts e
    (e, changed || changed')

/-- The effect of every command. -/
def ozEffect (junk : Garbage) (m : OzMsg) (db : D) : D :=
  let (e, db) := Tables.get ozeNew db m.key m.element
  match m.op with
  | .add v tag =>
    let t := sdsToLc tag
    let (e, changed) := e.updateInnateValue t v (junk m.key m.element t)
    let db := Tables.put db m.key m.element e
    if changed then Tables.update db m.key (.add e.score m.element) else db
  | .incrby v tags =>
    let (e, changed) := e.increase (junk m.key m.element) v (tags.map sdsToLc)
    let db := Tables.put db m.key m.element e
    if changed then Tables.update db m.key (.add e.score m.element) else db
  | .rem tags =>
    let e := (tags.map sdsToLc).foldl Oze.removeTag e
    if e.innate.isNone || e.acquired.isNone then
      let e := e.resort
      let db := Tables.put db m.key m.element e
      if e.Lookup then Tables.update db m.key (.add e.score m.element)
      else Tables.update db m.key (.del m.element)
    else Tables.put db m.key m.element e

end

/-- The queues of `N` servers, as a replicated object. -/
def ozSet {N : ℕ} (iter : Fin N → Iteration) (junk : Fin N → Garbage) :
    OpBased (Fin N) OzDb OzCmd OzMsg where
  init _ := .empty
  prepare r c db :=
    let p := ozPrepare (.of iter r) c db
    some (p.state, p.msg)
  effect r m db := ozEffect (junk r) m db

end RemoveWin
