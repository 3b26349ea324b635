import RemoveWin.Lib.OpBased
import RemoveWin.RWFramework
import RemoveWin.ZsetType

/-!
# The remove-win priority queue

`t_rzset.c`. The metadata of an element is the header of the remove-win framework and the two
parts of its score: `innate`, the value of the add the element belongs to, and `acquired`, the
sum of the increments. All three commands carry a clock, and every effect first lets the clock
remove: a clock ahead of the header's clears the element and takes it out of the sorted set. An
add or an increment then applies if the clock is exactly the header's.

An increment may arrive before the add it followed. It then puts the element into the sorted set
with the acquired part alone, and the header still says that the element does not exist.

## Main definitions

* `RemoveWin.Rze`, `RzDb`, `RzCmd`, `RzMsg`
* `RemoveWin.rzPrepare`, `rzEffect` — all prepare and effect phases
* `RemoveWin.rzSet` — the replicated object
-/

namespace RemoveWin

open Containers Replicated

/-- `struct RW_RPQ_element`. -/
structure Rze where
  /-- The header of the framework. -/
  header : Reh
  /-- The value of the add. -/
  innate : ℚ
  /-- The sum of the increments. -/
  acquired : ℚ

/-- `rzeNew`. -/
def rzeNew (srv : Server) : Rze := ⟨rehInit srv, 0, 0⟩

/-- `SCORE`. -/
def Rze.score (e : Rze) : ℚ := e.innate + e.acquired

/-- The priority queues at one replica. -/
abbrev RzDb := ZDb Rze

/-- The commands. The value is what parsing its argument gives, and `more` are further
arguments. -/
inductive RzCmd where
  | add (key element : Sds) (value : Option ℚ) (more : List Sds)
  | incrby (key element : Sds) (value : Option ℚ) (more : List Sds)
  | rem (key element : Sds) (more : List Sds)

/-- Which effect a message has. -/
inductive RzOp where
  | add (value : ℚ)
  | incrby (value : ℚ)
  | rem
  deriving DecidableEq

/-- What is broadcast. -/
structure RzMsg where
  /-- The effect. -/
  op : RzOp
  /-- The name of the queue. -/
  key : Sds
  /-- The element. -/
  element : Sds
  /-- The remove history. -/
  clock : VC

section

variable {D : Type} [ZsetTables D Rze]

/-- `rzeHTGet` with `create` set. -/
def rzeHTGet (srv : Server) (db : D) (tname key : Sds) : Rze × D :=
  Tables.get (rzeNew srv) db tname key

/-! ### Prepare -/

/-- `rzaddCommand`, prepare phase. -/
def rzaddPrepare (srv : Server) (key element : Sds) (value : Option ℚ) (more : List Sds)
    (db : D) : ZPrepared D RzMsg :=
  match checkArgcAndZsetType (Tables.view db) key more, value with
  | some reply, _ => ⟨db, reply, none⟩
  | none, none => ⟨db, .notFloat, none⟩
  | none, some v =>
    let (e, db) := rzeHTGet srv db key element
    if e.header.Exists then ⟨db, .eleExist, none⟩
    else ⟨db, .ok, some ⟨.add v, key, element, e.header.current⟩⟩

/-- `rzincrbyCommand`, prepare phase. -/
def rzincrbyPrepare (key element : Sds) (value : Option ℚ) (more : List Sds) (db : D) :
    ZPrepared D RzMsg :=
  match checkArgcAndZsetType (Tables.view db) key more, value with
  | some reply, _ => ⟨db, reply, none⟩
  | none, none => ⟨db, .notFloat, none⟩
  | none, some v =>
    match Tables.find db key element with
    | (none, db) => ⟨db, .eleNexist, none⟩
    | (some e, db) =>
      if e.header.Exists then ⟨db, .ok, some ⟨.incrby v, key, element, e.header.current⟩⟩
      else ⟨db, .eleNexist, none⟩

/-- `rzremCommand`, prepare phase. -/
def rzremPrepare (key element : Sds) (more : List Sds) (db : D) : ZPrepared D RzMsg :=
  match checkArgcAndZsetType (Tables.view db) key more with
  | some reply => ⟨db, reply, none⟩
  | none =>
    match Tables.find db key element with
    | (none, db) => ⟨db, .eleNexist, none⟩
    | (some e, db) =>
      if e.header.Exists then ⟨db, .ok, some ⟨.rem, key, element, nowVC e.header.current⟩⟩
      else ⟨db, .eleNexist, none⟩

/-- The prepare phase of any command of the queue. -/
def rzPrepare (srv : Server) : RzCmd → D → ZPrepared D RzMsg
  | .add key element value more, db => rzaddPrepare srv key element value more db
  | .incrby key element value more, db => rzincrbyPrepare key element value more db
  | .rem key element more, db => rzremPrepare key element more db

/-! ### Effect -/

/-- `removeFunc`, on the element it is handed. -/
def removeFunc (db : D) (e : Rze) (t : VC) (key element : Sds) : Rze × D :=
  if removeCheck e.header t then
    (⟨rehRmvFunc e.header t, 0, 0⟩, Tables.update db key (.del element))
  else (e, db)

/-- The effect of every command: remove, then insert or increase at exactly the clock. -/
def rzEffect (srv : Server) (m : RzMsg) (db : D) : D :=
  let (e, db) := rzeHTGet srv db m.key m.element
  let (e, db) := removeFunc db e m.clock m.key m.element
  match m.op with
  | .add v =>
    if insertCheck e.header m.clock then
      let e : Rze := { e with header := { e.header with pid := m.clock.id }, innate := v }
      Tables.update (Tables.put db m.key m.element e) m.key (.add e.score m.element)
    else Tables.put db m.key m.element e
  | .incrby v =>
    if updateCheck e.header m.clock then
      let e : Rze := { e with acquired := e.acquired + v }
      Tables.update (Tables.put db m.key m.element e) m.key (.add e.score m.element)
    else Tables.put db m.key m.element e
  | .rem => Tables.put db m.key m.element e

end

/-- The queues of `N` servers, as a replicated object. -/
def rzSet {N : ℕ} (iter : Fin N → Iteration) : OpBased (Fin N) RzDb RzCmd RzMsg where
  init _ := .empty
  prepare r c db :=
    let p := rzPrepare (.of iter r) c db
    some (p.state, p.msg)
  effect r m db := rzEffect (.of iter r) m db

end RemoveWin
