import RemoveWin.Lib.OpBased
import RemoveWin.RWFramework
import RemoveWin.SetType

/-!
# The remove-win tree

`t_rwtree.c`. A tree is a hash table of nodes. A node has the header of the framework, a clock
for its value and one for its moves, its own id, a name, the id of its parent and the set of ids
of its children. Parents and children are kept separately and an effect may create a node before
anything is known about it, so strings of a node may be `NULL`.

## Pointers

`rtnHTGet` hands out pointers into the table, and two of them may be the same one. An update
through a pointer is an update of the table under the node's key here, and every read goes to
the table again, so that aliasing comes out as it does in memory. The key of a node is its id up
to the first NUL byte; what is stored in `uid`, `parent` and the children sets is longer if the
id was.

## Loops and crashes

`istreeMember` and `subTree` follow parents and children without looking back, so they need not
end. They take fuel, and commands carry the fuel their prepare phase may use: a command whose
loops do not end has no step. A `NULL` string that is hashed or measured kills the server. The
state of a replica is an `Option`, and `none` is a server that crashed while applying a message.

## Main definitions

* `RemoveWin.Rtn`, `TreeHT` — nodes and tables
* `RemoveWin.istreeMember`, `subTree`, `treeMembers` — the walks
* `RemoveWin.treePrepare`, `treeEffect` — the five commands
* `RemoveWin.rwTree` — the replicated object
-/

namespace RemoveWin

open Replicated

/-- `ROOT_ID`: `0,0`. -/
def rootId : Sds := bytes [48, 44, 48]

/-- `TREE_ROOT`: `_root_`. -/
def treeRoot : Sds := bytes [95, 114, 111, 111, 116, 95]

/-- The parent of the root: `null`. -/
def nullId : Sds := bytes [110, 117, 108, 108]

/-- The parent of a removed node: `none`. -/
def noneId : Sds := bytes [110, 111, 110, 101]

/-- `rtn` and the `rawt` it points to: a node of the tree. -/
structure Rtn where
  /-- The header of the framework. -/
  header : Reh
  /-- The clock of the node's value. -/
  vectorClock : VC
  /-- The clock of the node's moves. -/
  moveVC : VC
  /-- The id of the node. -/
  uid : Option Sds
  /-- The value of the node. -/
  name : Option Sds
  /-- The id of its parent. -/
  parent : Option Sds
  /-- The ids of its children. -/
  children : SetObj

/-- `rtnNew`. -/
def rtnNew (srv : Server) : Rtn :=
  ⟨rehInit srv, lNewVC srv, lNewVC srv, none, none, none, .empty⟩

/-- The hash table of a tree. -/
structure TreeHT where
  /-- Whether the table has been created. -/
  present : Bool
  /-- The nodes, by key. -/
  nodes : Sds → Option Rtn

namespace TreeHT

/-- No table yet. -/
def empty : TreeHT := ⟨false, fun _ => none⟩

/-- `rtnHTGet` without `create`. -/
def find (ht : TreeHT) (id : Sds) : Option Rtn := ht.nodes (sdsnew id)

/-- What `rtnHTGet` with `create` points to, given the key: a fresh node if there is none. -/
def node (srv : Server) (ht : TreeHT) (k : Sds) : Rtn := (ht.nodes k).getD (rtnNew srv)

/-- An update through the pointer that `rtnHTGet` with `create` returned for a key. -/
def modify (srv : Server) (ht : TreeHT) (k : Sds) (f : Rtn → Rtn) : TreeHT :=
  ⟨true, Function.update ht.nodes k (some (f (ht.node srv k)))⟩

/-- `rtnHTGet` with `create`, for the table it leaves. -/
def create (srv : Server) (ht : TreeHT) (k : Sds) : TreeHT := ht.modify srv k fun tn => tn

end TreeHT

/-! ### Walks -/

/-- The loop of `istreeMember`, at `ele`. A node that is there and has no parent string is a
crash. -/
def istreeMemberLoop (ht : TreeHT) : ℕ → Sds → Option Bool
  | 0, ele => if sdscmp ele rootId = 0 then some true else none
  | fuel + 1, ele =>
    if sdscmp ele rootId = 0 then some true
    else
      match ht.find ele with
      | none => some false
      | some tn =>
        if tn.header.Exists then tn.parent.bind (istreeMemberLoop ht fuel) else some false

/-- `istreeMember`. -/
def istreeMember (ht : TreeHT) (fuel : ℕ) (id : Sds) : Option Bool :=
  istreeMemberLoop ht fuel (sdsnew id)

/-- The loop of `subTree`, with its queue and the set it collects. -/
def subTreeLoop (srv : Server) (ht : TreeHT) : ℕ → List Sds → SetObj → Option SetObj
  | _, [], subtree => some subtree
  | 0, _ :: _, _ => none
  | fuel + 1, curId :: list, subtree =>
    match ht.find curId with
    | none => subTreeLoop srv ht fuel list subtree
    | some tn =>
      if tn.header.Exists then
        subTreeLoop srv ht fuel (list ++ srv.iter.order tn.children.elems)
          (setTypeAdd subtree curId)
      else subTreeLoop srv ht fuel list subtree

/-- `subTree`. -/
def subTree (srv : Server) (ht : TreeHT) (fuel : ℕ) (uid : Sds) : Option SetObj :=
  subTreeLoop srv ht fuel [sdsnew uid] .empty

/-- A line of the reply of `RWFTREEMEMBERS`. -/
structure TreeLine where
  /-- The id of the node. -/
  uid : Sds
  /-- Its value. -/
  name : Sds
  /-- The id of its parent. -/
  parent : Sds
  /-- The ids of its children. -/
  children : List Sds

/-- `treeMembers`: a line for every node of the subtree of the root whose parent is there. -/
def treeMembers (srv : Server) (ht : TreeHT) (fuel : ℕ) : Option (List TreeLine) :=
  (subTree srv ht fuel rootId).map fun tree =>
    (srv.iter.order tree.elems).filterMap fun uid =>
      match ht.find uid with
      | none => none
      | some tn =>
        match ht.nodes (sdsnewNull tn.parent) with
        | none => none
        | some tnp =>
          if tn.header.Exists ∧ tnp.header.Exists then
            some ⟨sdsnew uid, sdsnewNull tn.name, sdsnewNull tn.parent,
              (srv.iter.order tn.children.elems).map sdsnew⟩
          else none

/-! ### Commands and messages -/

/-- The commands, with their arguments after the name of the tree. -/
inductive TreeCmd where
  | create
  | insert (name parent uid : Sds)
  | delete (uid : Sds)
  | changeValue (uid name : Sds)
  | move (dst src : Sds)

/-- A command and the fuel for the loops of its prepare phase. -/
structure TreeCall where
  /-- The fuel. -/
  fuel : ℕ
  /-- The command. -/
  cmd : TreeCmd

/-- What is broadcast: the arguments and the clocks added to them. -/
inductive TreeMsg where
  | create
  | insert (name parent uid : Sds) (rp r : VC)
  | delete (uid : Sds) (r : VC)
  | changeValue (uid name : Sds) (vcChangeval r : VC)
  | move (dst src : Sds) (moveVC rDst rSrc : VC)

/-! ### Prepare -/

/-- `CreateTree`, prepare phase. -/
def createPrepare (ht : TreeHT) : Prepared TreeHT TreeMsg :=
  if ht.present then ⟨ht, [.eleExist], none⟩ else ⟨ht, [.ok], some .create⟩

/-- `treeNodeInsertWithUid`, prepare phase. The root passes for a member before it is there, and
its header is read all the same. -/
def insertPrepare (srv : Server) (fuel : ℕ) (name parent uid : Sds) (ht : TreeHT) :
    Option (Prepared TreeHT TreeMsg) :=
  if ¬ ht.present then some ⟨ht, [.emptymultibulk], none⟩
  else do
    if ¬ (← istreeMember ht fuel parent) then return ⟨ht, [.eleNexist], none⟩
    let tnp ← ht.find parent
    if ← istreeMember ht fuel uid then return ⟨ht, [.eleExist], none⟩
    let ht := ht.create srv (sdsnew uid)
    let tn := ht.node srv (sdsnew uid)
    return ⟨ht, [.ok], some (.insert name parent uid tnp.header.current tn.header.current)⟩

/-- `treeNodeDelete`, prepare phase. -/
def deletePrepare (fuel : ℕ) (uid : Sds) (ht : TreeHT) : Option (Prepared TreeHT TreeMsg) :=
  if ¬ ht.present then some ⟨ht, [.emptymultibulk], none⟩
  else do
    if ¬ (← istreeMember ht fuel uid) then return ⟨ht, [.eleNexist], none⟩
    let tn ← ht.find uid
    return ⟨ht, [.ok], some (.delete uid (nowVC tn.header.current))⟩

/-- `treeNodeChangeValue`, prepare phase. -/
def changeValuePrepare (fuel : ℕ) (uid name : Sds) (ht : TreeHT) :
    Option (Prepared TreeHT TreeMsg) :=
  if ¬ ht.present then some ⟨ht, [.emptymultibulk], none⟩
  else do
    if ¬ (← istreeMember ht fuel uid) then return ⟨ht, [.eleNexist], none⟩
    let tn ← ht.find uid
    return ⟨ht, [.ok], some (.changeValue uid name (nowVC tn.vectorClock) tn.header.current)⟩

/-- `treeNodeMove`, prepare phase. -/
def movePrepare (srv : Server) (fuel : ℕ) (dst src : Sds) (ht : TreeHT) :
    Option (Prepared TreeHT TreeMsg) :=
  if ¬ ht.present then some ⟨ht, [.emptymultibulk], none⟩
  else do
    if ¬ (← istreeMember ht fuel dst) then return ⟨ht, [.eleNexist], none⟩
    if ¬ (← istreeMember ht fuel src) then return ⟨ht, [.eleNexist], none⟩
    let srcSt ← subTree srv ht fuel src
    if setTypeIsMember srcSt dst then return ⟨ht, [.err], none⟩
    let tnDst ← ht.find dst
    let tnSrc ← ht.find src
    return ⟨ht, [.ok],
      some (.move dst src (nowVC tnSrc.moveVC) tnDst.header.current tnSrc.header.current)⟩

/-- The prepare phase of any tree command. -/
def treePrepare (srv : Server) (c : TreeCall) (ht : TreeHT) : Option (Prepared TreeHT TreeMsg) :=
  match c.cmd with
  | .create => some (createPrepare ht)
  | .insert name parent uid => insertPrepare srv c.fuel name parent uid ht
  | .delete uid => deletePrepare c.fuel uid ht
  | .changeValue uid name => changeValuePrepare c.fuel uid name ht
  | .move dst src => movePrepare srv c.fuel dst src ht

/-! ### Effect -/

/-- `setTypeRemove` of a string that may be `NULL`: a table without entries is not searched, any
other hashes the key first. -/
def setTypeRemoveNull (o : SetObj) : Option Sds → Option SetObj
  | some x => some (setTypeRemove o x)
  | none => if o.elems.isEmpty then some o else none

/-- `setTypeAdd` of a string that may be `NULL`. -/
def setTypeAddNull (o : SetObj) : Option Sds → Option SetObj
  | some x => some (setTypeAdd o x)
  | none => none

/-- `setTypeRemove` of the id of node `s` from the children of node `p`. -/
def unlink (srv : Server) (p s : Sds) (ht : TreeHT) : Option TreeHT :=
  (setTypeRemoveNull (ht.node srv p).children (ht.node srv s).uid).map fun children =>
    ht.modify srv p fun tn => { tn with children := children }

/-- `setTypeAdd` of the id of node `s` to the children of node `d`, which becomes its parent. -/
def link (srv : Server) (d s : Sds) (ht : TreeHT) : Option TreeHT :=
  (setTypeAddNull (ht.node srv d).children (ht.node srv s).uid).map fun children =>
    (ht.modify srv d fun tn => { tn with children := children }).modify srv s fun tn =>
      { tn with parent := some d }

/-- `tRemFunc`, on the node with key `k`. -/
def tRemFunc (srv : Server) (ht : TreeHT) (k : Sds) (t : VC) : Option TreeHT :=
  if removeCheck (ht.node srv k).header t then
    let p := sdsnewNull (ht.node srv k).parent
    let ht := ht.create srv p
    let ht := ht.modify srv k fun tn => { tn with header := rehRmvFunc tn.header t }
    (unlink srv p k ht).map fun ht => ht.modify srv k fun tn => { tn with parent := some noneId }
  else some ht

/-- `CreateTree`, effect phase. -/
def createEffect (srv : Server) (ht : TreeHT) : TreeHT :=
  ht.modify srv rootId fun tn =>
    { tn with
      header := { tn.header with pid := srv.p2pId }
      uid := some rootId
      name := some treeRoot
      parent := some nullId }

/-- The part of `treeNodeInsertWithUid` that writes without asking. -/
def insertWrite (srv : Server) (name parent uid : Sds) (ht : TreeHT) : TreeHT :=
  let k := sdsnew uid
  let p := sdsnew parent
  let ht := (ht.create srv k).create srv p
  let ht := ht.modify srv k fun tn =>
    { tn with
      uid := some uid
      parent := some parent
      name := if checkInitVC tn.vectorClock then some name else tn.name }
  ht.modify srv p fun tn => { tn with children := setTypeAdd tn.children uid }

/-- The part of `treeNodeInsertWithUid` that takes the node over. -/
def insertOwn (srv : Server) (k : Sds) (r : VC) (ht : TreeHT) : TreeHT :=
  if insertCheck (ht.node srv k).header r then
    ht.modify srv k fun tn => { tn with header := { tn.header with pid := r.id } }
  else ht

/-- `treeNodeInsertWithUid`, effect phase. -/
def insertEffect (srv : Server) (name parent uid : Sds) (rp r : VC) (ht : TreeHT) :
    Option TreeHT := do
  let ht := insertWrite srv name parent uid ht
  let ht ← tRemFunc srv ht (sdsnew parent) rp
  let ht ← tRemFunc srv ht (sdsnew uid) r
  return insertOwn srv (sdsnew uid) r ht

/-- `treeNodeDelete`, effect phase. -/
def deleteEffect (srv : Server) (uid : Sds) (r : VC) (ht : TreeHT) : Option TreeHT :=
  tRemFunc srv (ht.create srv (sdsnew uid)) (sdsnew uid) r

/-- The part of `treeNodeChangeValue` that decides: a write that is greater in the order of
`currentCompare` or that comes next takes place. -/
def changeName (srv : Server) (k name : Sds) (vcChangeval r : VC) (ht : TreeHT) : TreeHT :=
  let tn := ht.node srv k
  if updateCheck tn.header r then
    if currentCompare tn.vectorClock vcChangeval < 0 then
      ht.modify srv k fun tn => { tn with name := some name }
    else if causallyReady tn.vectorClock vcChangeval then
      ht.modify srv k fun tn => { tn with name := some name }
    else ht
  else ht

/-- `treeNodeChangeValue`, effect phase. -/
def changeValueEffect (srv : Server) (uid name : Sds) (vcChangeval r : VC) (ht : TreeHT) :
    Option TreeHT := do
  let k := sdsnew uid
  let ht ← tRemFunc srv (ht.create srv k) k r
  let ht := changeName srv k name vcChangeval r ht
  return ht.modify srv k fun tn => { tn with vectorClock := updateVC tn.vectorClock vcChangeval }

/-- `unlink`, if the node `p` is there. -/
def unlinkFound (srv : Server) (p s : Sds) (ht : TreeHT) : Option TreeHT :=
  if (ht.nodes p).isSome then unlink srv p s ht else some ht

/-- The part of `treeNodeMove` that hangs the node with key `s` under `dst`. Its old parent is
looked up with or without `create`, and is not touched if there is none. -/
def reparent (srv : Server) (create : Bool) (dst : Sds) (s : Sds) (ht : TreeHT) :
    Option TreeHT :=
  let p := sdsnewNull (ht.node srv s).parent
  let ht := if create then ht.create srv p else ht
  (unlinkFound srv p s ht).bind (link srv (sdsnew dst) s)

/-- The part of `treeNodeMove` that decides: of concurrent moves the smaller destination wins, a
move that comes next takes place. -/
def moveLink (srv : Server) (dst : Sds) (s : Sds) (moveVC rSrc : VC) (ht : TreeHT) :
    Option TreeHT :=
  let tn := ht.node srv s
  if updateCheck tn.header rSrc then
    if checkCurrency tn.moveVC moveVC then
      if sdscmp (sdsnewNull tn.parent) dst > 0 then reparent srv false dst s ht else some ht
    else if causallyReady tn.moveVC moveVC then reparent srv true dst s ht
    else some ht
  else some ht

/-- `treeNodeMove`, effect phase. -/
def moveEffect (srv : Server) (dst src : Sds) (moveVC rDst rSrc : VC) (ht : TreeHT) :
    Option TreeHT := do
  let d := sdsnew dst
  let s := sdsnew src
  let ht := (ht.create srv d).create srv s
  let ht ← tRemFunc srv ht d rDst
  let ht ← tRemFunc srv ht s rSrc
  let ht ← moveLink srv dst s moveVC rSrc ht
  return ht.modify srv s fun tn => { tn with moveVC := updateVC tn.moveVC moveVC }

/-- The effect phase of any tree command. -/
def treeEffect (srv : Server) (ht : TreeHT) : TreeMsg → Option TreeHT
  | .create => some (createEffect srv ht)
  | .insert name parent uid rp r => insertEffect srv name parent uid rp r ht
  | .delete uid r => deleteEffect srv uid r ht
  | .changeValue uid name vcChangeval r => changeValueEffect srv uid name vcChangeval r ht
  | .move dst src moveVC rDst rSrc => moveEffect srv dst src moveVC rDst rSrc ht

/-- The RWF-Tree of `N` servers, as a replicated object: one tree, at every server. -/
def rwTree {N : ℕ} (iter : Fin N → Iteration) :
    OpBased (Fin N) (Option TreeHT) TreeCall TreeMsg where
  init _ := some .empty
  prepare r c s := do
    let ht ← s
    let p ← treePrepare (.of iter r) c ht
    return (some p.state, p.msg)
  effect r m s := s.bind fun ht => treeEffect (.of iter r) ht m

/-- A state of the whole system. -/
abbrev TreeNet (N : ℕ) := Net (Fin N) (Option TreeHT) TreeMsg

/-- A message that was broadcast. -/
abbrev TreeEvent (N : ℕ) := Event (Fin N) TreeMsg

/-- What is asked of the steps of a run. -/
abbrev TreeCond (N : ℕ) := Cond (Fin N) (Option TreeHT) TreeCall TreeMsg

end RemoveWin
