import RemoveWin.Lib.Trace

/-!
# The links of a server

`p2p.c`, with the parts of `networking.c`, `db.c` and `call` it depends on. A server keeps a list
of the clients that are links to its peers. `REPLICATE` connects to peers and puts the new clients
on the list; a peer that connects puts itself on it with a handshake, and `REPLTEST` does the same
for a tool that listens. An accepted update is written to every link on the list, preceded by a
`SELECT` if the database is not the one of the last broadcast.

A link is a stream. What has been written to it is kept here from the moment the connection is
made, with what the peer at the other end does on reading it: it starts in database 0, and between
`MULTI` and `EXEC` it queues.

## Clients

A client is a pointer in the source, and the memory of one that has been freed may be used for
another. So the names of clients are any type here, a name is taken while the client lives, and it
may be taken again.

## Main definitions

* `RemoveWin.Wire`, `Reader` — what is written to a link, and its reader
* `RemoveWin.P2p` — a server with its clients and links
* `RemoveWin.P2p.replicationBroadcast`
* `RemoveWin.P2p.step` — connections, disconnections and requests
-/

namespace RemoveWin

/-! ### Streams -/

/-- What is written to a link. -/
inductive Wire (Msg : Type) where
  | multi
  | select (db : ℕ)
  | cmd (m : Msg)
  | exec
  deriving DecidableEq

/-- The client at the other end of a link. -/
structure Reader (Msg : Type) where
  /-- The database it has selected. -/
  db : ℕ
  /-- The commands queued since `MULTI`, if it is in a transaction. -/
  queue : Option (List (Wire Msg))
  /-- The messages executed, each with the database it was executed in. -/
  executed : List (ℕ × Msg)
  deriving DecidableEq

namespace Reader

variable {Msg : Type}

/-- A client that has just been accepted. -/
def fresh : Reader Msg := ⟨0, none, []⟩

/-- Execute a command. -/
def execute (r : Reader Msg) : Wire Msg → Reader Msg
  | .select db => { r with db := db }
  | .cmd m => { r with executed := r.executed ++ [(r.db, m)] }
  | .multi => r
  | .exec => r

/-- Read a command: `MULTI` within a transaction and `EXEC` outside of one are errors. -/
def read (r : Reader Msg) (w : Wire Msg) : Reader Msg :=
  match r.queue, w with
  | none, .multi => { r with queue := some [] }
  | some _, .multi => r
  | none, .exec => r
  | some q, .exec => q.foldl execute { r with queue := none }
  | none, w => r.execute w
  | some q, w => { r with queue := some (q ++ [w]) }

/-- Read a stream from its beginning. -/
def readAll (ws : List (Wire Msg)) : Reader Msg := ws.foldl read fresh

end Reader

/-! ### The server -/

/-- The fields of `client` that are used here. -/
structure PeerClient where
  /-- `c->db->id`. -/
  db : ℕ
  /-- `CLIENT_REPLICA`. -/
  replica : Bool
  deriving DecidableEq

/-- A server and its links. -/
structure P2p (κ Msg : Type) where
  /-- The clients that have been created and not been freed. -/
  clients : κ → Option PeerClient
  /-- `server.replicas`. -/
  replicas : List κ
  /-- `server.p2p_count`. -/
  p2pCount : ℤ
  /-- `server.p2p_id`. -/
  p2pId : ℤ
  /-- `server.p2p_seldb`. -/
  p2pSeldb : ℤ
  /-- What has been written to a client by `replicationBroadcast` since it was created. -/
  wire : κ → List (Wire Msg)
  /-- The messages behind it, each with the database it was executed in here. -/
  due : κ → List (ℕ × Msg)

/-- The arguments of `REPLTEST` that matter: none, a size and an id, or anything else. -/
inductive RepltestArgs where
  | none
  | config (size id : ℤ)
  | other

/-- The requests of a client. Numbers are what parsing their argument leaves in the variable. The
addresses given to `REPLICATE` appear as the clients made for them, `none` where connecting
fails. An update carries its message if its prepare phase completes. -/
inductive P2pCmd (κ Msg : Type) where
  | select (id : Int64)
  | repltest (args : RepltestArgs)
  | handshake
  | replicate (size id : ℤ) (peers : List (Option κ))
  | update (m : Option Msg)

/-- What can happen at a server. -/
inductive P2pAct (κ Msg : Type) where
  | connect (k : κ)
  | close (k : κ)
  | request (k : κ) (c : P2pCmd κ Msg)

namespace P2p

variable {κ Msg : Type}

/-- A server that has been started. -/
def start : P2p κ Msg := ⟨fun _ => none, [], 0, -1, -1, fun _ => [], fun _ => []⟩

variable [DecidableEq κ]

/-- `createClient`. -/
def createClient (s : P2p κ Msg) (k : κ) : P2p κ Msg :=
  { s with
    clients := Function.update s.clients k (some ⟨0, false⟩)
    wire := Function.update s.wire k []
    due := Function.update s.due k [] }

/-- `freeClient`. The list of replicas is not touched. -/
def freeClient (s : P2p κ Msg) (k : κ) : P2p κ Msg :=
  { s with clients := Function.update s.clients k none }

/-- Change the fields of a client. -/
def modifyClient (s : P2p κ Msg) (k : κ) (f : PeerClient → PeerClient) : P2p κ Msg :=
  { s with clients := Function.update s.clients k ((s.clients k).map f) }

/-- Set `CLIENT_REPLICA`. -/
def setReplica (s : P2p κ Msg) (k : κ) : P2p κ Msg :=
  s.modifyClient k fun c => { c with replica := true }

/-- `listAddNodeTail(server.replicas, c)`. -/
def addReplica (s : P2p κ Msg) (k : κ) : P2p κ Msg := { s with replicas := s.replicas ++ [k] }

/-- `selectCommand`, on a server with `dbnum` databases. The index is read as a `long`, and
`selectDb` takes an `int`. -/
def selectCommand (dbnum : ℕ) (s : P2p κ Msg) (k : κ) (id : Int64) : P2p κ Msg :=
  let id := id.toInt32.toInt
  if id < 0 ∨ id ≥ dbnum then s else s.modifyClient k fun c => { c with db := id.toNat }

/-- `repltestCommand`. -/
def repltestCommand (s : P2p κ Msg) (k : κ) (args : RepltestArgs) : P2p κ Msg :=
  let s := s.setReplica k
  match args with
  | .none => s.addReplica k
  | .config size id => { s with p2pCount := size, p2pId := id }
  | .other => s

/-- The loop of `replicateCommand` over the addresses. It ends where connecting fails, and cannot
be given a name that is taken. -/
def connectPeers (s : P2p κ Msg) : List (Option κ) → Option (P2p κ Msg)
  | [] => some s
  | none :: _ => some s
  | some k :: peers =>
    if (s.clients k).isSome then none
    else (((s.createClient k).setReplica k).addReplica k).connectPeers peers

/-- Write to a client. -/
def send (s : P2p κ Msg) (k : κ) (ws : List (Wire Msg)) : P2p κ Msg :=
  { s with wire := Function.update s.wire k (s.wire k ++ ws) }

/-- Note down that a message has been written to a client. -/
def owe (s : P2p κ Msg) (k : κ) (x : ℕ × Msg) : P2p κ Msg :=
  { s with due := Function.update s.due k (s.due k ++ [x]) }

/-- `replicationBroadcast`. -/
def replicationBroadcast (s : P2p κ Msg) (dictid : ℕ) (m : Msg) : P2p κ Msg :=
  if s.replicas.length = 0 then s
  else if s.p2pSeldb ≠ dictid then
    let s₁ := s.replicas.foldl (fun s k => s.send k [.multi, .select dictid]) s
    s₁.replicas.foldl (fun s k => (s.send k [.cmd m, .exec]).owe k (dictid, m))
      { s₁ with p2pSeldb := dictid }
  else
    s.replicas.foldl (fun s k => (s.send k [.cmd m]).owe k (dictid, m))
      { s with p2pSeldb := dictid }

/-- `REPLICATION_MODE`. -/
def ReplicationMode (s : P2p κ Msg) : Prop := s.replicas.length ≠ 0 ∨ s.p2pCount ≠ 0

omit [DecidableEq κ] in
instance decidableReplicationMode (s : P2p κ Msg) : Decidable s.ReplicationMode :=
  inferInstanceAs (Decidable (s.replicas.length ≠ 0 ∨ s.p2pCount ≠ 0))

/-- A request of a client. An update of a client that is a replica is a message from a peer, which
is not broadcast again. -/
def request (dbnum : ℕ) (s : P2p κ Msg) (k : κ) (c : PeerClient) :
    P2pCmd κ Msg → Option (P2p κ Msg)
  | .select id => some (s.selectCommand dbnum k id)
  | .repltest args => some (s.repltestCommand k args)
  | .handshake => some ((s.setReplica k).addReplica k)
  | .replicate size id peers => connectPeers { s with p2pCount := size, p2pId := id } peers
  | .update (some m) =>
    some (if s.ReplicationMode ∧ ¬ c.replica then s.replicationBroadcast c.db m else s)
  | .update none => some s

/-- One act: `none` if it is impossible. -/
def step (dbnum : ℕ) (s : P2p κ Msg) : P2pAct κ Msg → Option (P2p κ Msg)
  | .connect k => if (s.clients k).isSome then none else some (s.createClient k)
  | .close k => if (s.clients k).isSome then some (s.freeClient k) else none
  | .request k cmd =>
    match s.clients k with
    | none => none
    | some c => s.request dbnum k c cmd

end P2p

end RemoveWin
