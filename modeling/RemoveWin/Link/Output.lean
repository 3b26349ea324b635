import RemoveWin.Link.Numbers

/-!
# Output buffers

What a command answers, and what is broadcast, goes through the output buffers of a client
(`networking.c`): a fixed buffer first, and once that is full a list of chunks, of which the last
one is extended while it is small. Both are emptied by `writeToClient`, as far as the socket takes
it, with one counter `sentlen` for how much of the chunk in front is gone. The number of elements
of a reply may be sent before it is known: an empty node is put into the list and filled in later.

The handler for a writable socket is installed only when something is left after a first attempt:
a client that gets something to send is put into a list that is served before the next wait.

## Main definitions

* `RemoveWin.OutClient` — the output side of a client
* `RemoveWin.OutClient.addReply` and the other functions that add, `writeToClient`
* `RemoveWin.OutReply` — what can be added, and its text
* `RemoveWin.OutConn.step` — a connection: replies, and what the event loop does
-/

namespace RemoveWin

/-! ### Text -/

/-- `"\r\n"`. -/
def crlf : Sds := bytes [13, 10]

/-- `'*'`. -/
def star : Fin 256 := ⟨42, by decide⟩

/-- `'$'`. -/
def dollar : Fin 256 := ⟨36, by decide⟩

/-- `':'`. -/
def colon : Fin 256 := ⟨58, by decide⟩

/-- A prefix, a number and the end of the line. -/
def lineHeader (pfx : Fin 256) (ll : Int64) : Sds := pfx :: (sdsfromlonglong ll ++ crlf)

/-- A string object: its bytes, or a number in place of them. -/
inductive StringObj where
  | raw (s : Sds)
  | int (n : Int64)
  deriving DecidableEq

/-- The bytes an object stands for. -/
def StringObj.text : StringObj → Sds
  | .raw s => s
  | .int n => sdsfromlonglong n

theorem length_sdsfromlonglong_le (v : Int64) : (sdsfromlonglong v).length ≤ 20 := by
  have hlo := v.le_toInt
  have hhi := v.toInt_lt
  have hdigits : (Decimal.ofNat (magnitude v)).length ≤ 19 := by
    rw [magnitude_eq_natAbs]
    exact Decimal.length_ofNat_le (by omega) (by omega)
  rw [sdsfromlonglong_eq, List.length_append]
  split_ifs
  · rw [List.length_singleton]
    omega
  · rw [List.length_nil]
    omega

/-- A buffer of the stack. What it holds does not matter. -/
def stackBuffer (size : ℕ) : Sds := List.replicate size (byteOf 0)

theorem isSome_ll2string (dst : Sds) (v : Int64) : (ll2string dst v).isSome := by
  rw [ll2string_eq]
  rfl

/-- The text that `ll2string` leaves in a buffer of the given size. -/
def ll2text (size : ℕ) (v : Int64) : Sds :=
  let r := (ll2string (stackBuffer size) v).get (isSome_ll2string _ v)
  r.1.take r.2

theorem ll2text_eq {size : ℕ} (hsize : 20 < size) (v : Int64) :
    ll2text size v = sdsfromlonglong v := by
  have hlen := length_sdsfromlonglong_le v
  have hroom : (sdsfromlonglong v).length < (stackBuffer size).length := by
    rw [stackBuffer, List.length_replicate]
    omega
  simp only [ll2text, ll2string_eq, if_pos hroom, Option.get_some, List.take_left']

/-- `getDecodedObject`: the number goes through a buffer of 32 bytes. -/
def getDecodedObject : StringObj → Sds
  | .raw s => s
  | .int n => ll2text 32 n

@[simp] theorem getDecodedObject_eq (o : StringObj) : getDecodedObject o = o.text := by
  cases o with
  | raw s => rfl
  | int n => exact ll2text_eq (by omega) n

/-! ### Clients -/

/-- `replstate`, as far as it is asked for: `REPL_STATE_NONE`, `SLAVE_STATE_ONLINE`, or another. -/
inductive ReplState where
  | none
  | online
  | other
  deriving DecidableEq

/-- The fields of a client that say whether it gets replies. -/
structure ClientFlags where
  fd : ℤ
  /-- `CLIENT_LUA` or `CLIENT_MODULE`. -/
  luaOrModule : Bool
  /-- `CLIENT_REPLY_OFF` or `CLIENT_REPLY_SKIP`. -/
  replyOff : Bool
  master : Bool
  masterForceReply : Bool
  replica : Bool
  replicaMessage : Bool
  slave : Bool
  closeAfterReply : Bool
  replstate : ReplState
  replPutOnlineOnAck : Bool
  deriving DecidableEq

/-- The output side of a client. -/
structure OutClient where
  flags : ClientFlags
  /-- `CLIENT_PENDING_WRITE`: it is in `server.clients_pending_write`. -/
  pendingWrite : Bool
  /-- The handler for `AE_WRITABLE` is installed. -/
  writeHandler : Bool
  /-- The first `bufpos` bytes of `buf`. -/
  buf : Sds
  sentlen : ℕ
  /-- The list of chunks. `none` is a node that is filled in later. -/
  reply : List (Option Sds)
  /-- `reply_bytes`. It is unsigned in the source; `OutClient.WF` says it is never below 0. -/
  replyBytes : ℤ
  /-- The bytes that `write` has taken. -/
  sent : Sds
  deriving DecidableEq

/-- `PROTO_REPLY_CHUNK_BYTES`, also the size of `buf`. -/
def protoReplyChunkBytes : ℕ := 16 * 1024

/-- `NET_MAX_WRITES_PER_EVENT`. -/
def netMaxWritesPerEvent : ℕ := 1024 * 64

/-- `OBJ_SHARED_BULKHDR_LEN`. -/
def objSharedBulkhdrLen : ℕ := 32

namespace ClientFlags

/-- Replies can be sent right away. -/
def canReceive (f : ClientFlags) : Bool :=
  f.replstate = .none || (f.replstate = .online && !f.replPutOnlineOnAck)

/-- `prepareClientToWrite` returns `C_OK`. -/
def accepts (f : ClientFlags) : Bool :=
  f.luaOrModule || (!f.replyOff && !(f.master && !f.masterForceReply) &&
    !(f.replica && !f.replicaMessage) && !decide (f.fd ≤ 0))

/-- A client with a socket, ready for replies. -/
def Live (f : ClientFlags) : Prop := f.luaOrModule = false ∧ f.canReceive = true

instance (f : ClientFlags) : Decidable f.Live :=
  inferInstanceAs (Decidable (_ ∧ _))

end ClientFlags

namespace OutClient

/-- `createClient`, for the output side. -/
def create (f : ClientFlags) : OutClient := ⟨f, false, false, [], 0, [], 0, []⟩

/-- `clientHasPendingReplies`. -/
def clientHasPendingReplies (c : OutClient) : Bool :=
  decide (c.buf.length ≠ 0) || decide (c.reply.length ≠ 0)

/-- `prepareClientToWrite`, `none` for `C_ERR`. -/
def prepareClientToWrite (c : OutClient) : Option OutClient :=
  if c.flags.luaOrModule then some c
  else if c.flags.replyOff then none
  else if c.flags.master && !c.flags.masterForceReply then none
  else if c.flags.replica && !c.flags.replicaMessage then none
  else if c.flags.fd ≤ 0 then none
  else if !c.clientHasPendingReplies && !c.pendingWrite && c.flags.canReceive then
    some { c with pendingWrite := true }
  else some c

/-- `_addReplyToBuffer`, `none` for `C_ERR`. -/
def addReplyToBuffer (c : OutClient) (s : Sds) : Option OutClient :=
  if c.flags.closeAfterReply then some c
  else if c.reply.length > 0 then none
  else if s.length > protoReplyChunkBytes - c.buf.length then none
  else some { c with buf := c.buf ++ s }

/-- A new chunk. -/
def pushNode (c : OutClient) (s : Sds) : OutClient :=
  { c with reply := c.reply ++ [some s], replyBytes := c.replyBytes + s.length }

/-- The last chunk, which is `tail`, gets longer. -/
def extendLast (c : OutClient) (tail s : Sds) : OutClient :=
  { c with reply := c.reply.dropLast ++ [some (tail ++ s)], replyBytes := c.replyBytes + s.length }

/-- What the functions that add to the list have in common: they differ in who owns the string. -/
def addToList (c : OutClient) (s : Sds) : OutClient :=
  if c.flags.closeAfterReply then c
  else if c.reply.length = 0 then c.pushNode s
  else
    match c.reply.getLast? with
    | some (some tail) =>
      if tail.length + s.length ≤ protoReplyChunkBytes then c.extendLast tail s else c.pushNode s
    | _ => c.pushNode s

/-- `_addReplyObjectToList`. -/
def addReplyObjectToList (c : OutClient) (s : Sds) : OutClient := c.addToList s

/-- `_addReplySdsToList`. -/
def addReplySdsToList (c : OutClient) (s : Sds) : OutClient := c.addToList s

/-- `_addReplyStringToList`. -/
def addReplyStringToList (c : OutClient) (s : Sds) : OutClient := c.addToList s

/-- `addReply`. -/
def addReply (c : OutClient) (obj : StringObj) : OutClient :=
  match c.prepareClientToWrite with
  | none => c
  | some c =>
    let slow (c : OutClient) : OutClient :=
      (c.addReplyToBuffer (getDecodedObject obj)).getD
        (c.addReplyObjectToList (getDecodedObject obj))
    match obj with
    | .raw _ => slow c
    | .int n =>
      if c.reply.length = 0 ∧ protoReplyChunkBytes - c.buf.length ≥ 32 then
        (c.addReplyToBuffer (ll2text 32 n)).getD (slow c)
      else slow c

/-- `addReplySds`. -/
def addReplySds (c : OutClient) (s : Sds) : OutClient :=
  match c.prepareClientToWrite with
  | none => c
  | some c => (c.addReplyToBuffer s).getD (c.addReplySdsToList s)

/-- `addReplyString`. -/
def addReplyString (c : OutClient) (s : Sds) : OutClient :=
  match c.prepareClientToWrite with
  | none => c
  | some c => (c.addReplyToBuffer s).getD (c.addReplyStringToList s)

/-- `shared.mbulkhdr` and `shared.bulkhdr`. -/
def sharedHeader (pfx : Fin 256) (j : ℕ) : StringObj := .raw (pfx :: (Decimal.ofNat j ++ crlf))

/-- `addReplyLongLongWithPrefix`. -/
def addReplyLongLongWithPrefix (c : OutClient) (ll : Int64) (pfx : Fin 256) : OutClient :=
  if pfx = star ∧ ll < Int64.ofNat objSharedBulkhdrLen ∧ ll ≥ 0 then
    c.addReply (sharedHeader star ll.toInt.toNat)
  else if pfx = dollar ∧ ll < Int64.ofNat objSharedBulkhdrLen ∧ ll ≥ 0 then
    c.addReply (sharedHeader dollar ll.toInt.toNat)
  else c.addReplyString (pfx :: (ll2text 127 ll ++ crlf))

/-- `addReplyLongLong`. -/
def addReplyLongLong (c : OutClient) (ll : Int64) : OutClient :=
  if ll = 0 then c.addReply (.raw (bytes [58, 48, 13, 10]))
  else if ll = 1 then c.addReply (.raw (bytes [58, 49, 13, 10]))
  else c.addReplyLongLongWithPrefix ll colon

/-- `addReplyMultiBulkLen`, of a count. -/
def addReplyMultiBulkLen (c : OutClient) (length : ℕ) : OutClient :=
  if length < objSharedBulkhdrLen then c.addReply (sharedHeader star length)
  else c.addReplyLongLongWithPrefix (Int64.ofNat length) star

/-- The length that `addReplyBulkLen` announces. -/
def bulkLen : StringObj → ℕ
  | .raw s => s.length
  | .int n => radixLength n

/-- `addReplyBulkLen`. -/
def addReplyBulkLen (c : OutClient) (obj : StringObj) : OutClient :=
  if bulkLen obj < objSharedBulkhdrLen then c.addReply (sharedHeader dollar (bulkLen obj))
  else c.addReplyLongLongWithPrefix (Int64.ofNat (bulkLen obj)) dollar

/-- `addReplyBulk`. -/
def addReplyBulk (c : OutClient) (obj : StringObj) : OutClient :=
  ((c.addReplyBulkLen obj).addReply obj).addReply (.raw crlf)

/-- `addReplyErrorLength`. -/
def addReplyErrorLength (c : OutClient) (s : Sds) : OutClient :=
  ((c.addReplyString (bytes [45, 69, 82, 82, 32])).addReplyString s).addReplyString crlf

/-- `addReplyStatusLength`. -/
def addReplyStatusLength (c : OutClient) (s : Sds) : OutClient :=
  ((c.addReplyString (bytes [43])).addReplyString s).addReplyString crlf

/-- `addDeferredMultiBulkLength`: the client and the node, by its place in the list. -/
def addDeferredMultiBulkLength (c : OutClient) : OutClient × Option ℕ :=
  match c.prepareClientToWrite with
  | none => (c, none)
  | some c => ({ c with reply := c.reply ++ [none] }, some c.reply.length)

/-- `setDeferredMultiBulkLength`: fill in a node, and glue the next one to it if it is not itself
to be filled in. -/
def setDeferredMultiBulkLength (c : OutClient) (node : Option ℕ) (length : Int64) : OutClient :=
  match node with
  | none => c
  | some k =>
    let len := lineHeader star length
    let c := { c with replyBytes := c.replyBytes + len.length }
    match c.reply.drop (k + 1) with
    | some next :: rest => { c with reply := c.reply.take k ++ some (len ++ next) :: rest }
    | rest => { c with reply := c.reply.take k ++ some len :: rest }

end OutClient

/-! ### Writing to the socket -/

/-- What a call of `write` can return: a number of bytes, and whether memory is over its limit when
it is back; `EAGAIN`; or another error. -/
inductive WriteResult where
  | wrote (n : ℕ) (overMemory : Bool)
  | again
  | error
  deriving DecidableEq

/-- What is left of a client. -/
inductive WriteOutcome where
  | crashed
  | freed (sent : Sds)
  | alive (c : OutClient)
  deriving DecidableEq

namespace OutClient

/-- The loop drops empty chunks in front before it writes. -/
def skipEmpty (c : OutClient) : OutClient :=
  if c.buf.length = 0 then { c with reply := c.reply.dropWhile (· = some []) } else c

/-- The bytes that `write` is called with: none if the node in front has not been filled in. -/
def front (c : OutClient) : Option Sds :=
  if c.buf.length > 0 then some (c.buf.drop c.sentlen)
  else
    match c.reply with
    | [] => some []
    | none :: _ => none
    | some o :: _ => some (o.drop c.sentlen)

/-- The socket has taken `n` bytes; `none` if the assertion about `reply_bytes` fails. -/
def advance (c : OutClient) (n : ℕ) : Option OutClient :=
  let c' := { c with sentlen := c.sentlen + n, sent := c.sent ++ (c.front.getD []).take n }
  if c.buf.length > 0 then
    if c'.sentlen = c.buf.length then some { c' with buf := [], sentlen := 0 } else some c'
  else
    match c.reply with
    | some o :: rest =>
      if c'.sentlen = o.length then
        if rest.length = 0 ∧ c.replyBytes - o.length ≠ 0 then none
        else some { c' with reply := rest, sentlen := 0, replyBytes := c.replyBytes - o.length }
      else some c'
    | _ => some c'

/-- The head of the loop: the client, and the bytes to write if there are any. -/
def nextChunk (c : OutClient) : Option (OutClient × Option Sds) :=
  let c := c.skipEmpty
  if !c.clientHasPendingReplies then some (c, none) else c.front.map fun s => (c, some s)

/-- The loop of `writeToClient`, with what the calls of `write` return, `EAGAIN` when there is no
more. It says whether the last one was an error. -/
def writeLoop (c : OutClient) (totwritten : ℕ) : List WriteResult → Option (OutClient × Bool)
  | [] => c.nextChunk.map fun r => (r.1, false)
  | w :: ws =>
    match c.nextChunk, w with
    | none, _ => none
    | some (c, none), _ => some (c, false)
    | some (c, some _), .again => some (c, false)
    | some (c, some _), .error => some (c, true)
    | some (c, some s), .wrote n overMemory =>
      let nwritten := min n s.length
      if nwritten = 0 then some (c, false)
      else
        match c.advance nwritten with
        | none => none
        | some c =>
          if totwritten + nwritten > netMaxWritesPerEvent ∧ !overMemory ∧ !c.flags.slave then
            some (c, false)
          else c.writeLoop (totwritten + nwritten) ws

/-- `writeToClient`. -/
def writeToClient (c : OutClient) (handlerInstalled : Bool) (ws : List WriteResult) :
    WriteOutcome :=
  match c.writeLoop 0 ws with
  | none => .crashed
  | some (c, true) => .freed c.sent
  | some (c, false) =>
    if !c.clientHasPendingReplies then
      let c := { c with sentlen := 0, writeHandler := c.writeHandler && !handlerInstalled }
      if c.flags.closeAfterReply then .freed c.sent else .alive c
    else .alive c

/-- `sendReplyToClient`. -/
def sendReplyToClient (c : OutClient) (ws : List WriteResult) : WriteOutcome :=
  c.writeToClient true ws

/-- `handleClientsWithPendingWrites`, for one client. Installing the handler may fail. -/
def handlePendingWrites (c : OutClient) (ws : List WriteResult) (installed : Bool) :
    WriteOutcome :=
  match { c with pendingWrite := false }.writeToClient false ws with
  | .alive c =>
    if c.clientHasPendingReplies then
      if installed then .alive { c with writeHandler := true } else .freed c.sent
    else .alive c
  | o => o

end OutClient

/-! ### Replies -/

/-- What a command adds to the output of a client, by the functions it calls. -/
inductive OutReply where
  | object (o : StringObj)
  | sds (s : Sds)
  | string (s : Sds)
  | longLongWithPrefix (ll : Int64) (pfx : Fin 256)
  | longLong (ll : Int64)
  | multiBulkLen (length : ℕ)
  | bulkLen (o : StringObj)
  | bulk (o : StringObj)
  | error (s : Sds)
  | status (s : Sds)
  | deferred (body : OutReply) (length : Int64)
  | seq (r r' : OutReply)

namespace OutReply

/-- Add a reply. -/
def add : OutReply → OutClient → OutClient
  | .object o, c => c.addReply o
  | .sds s, c => c.addReplySds s
  | .string s, c => c.addReplyString s
  | .longLongWithPrefix ll pfx, c => c.addReplyLongLongWithPrefix ll pfx
  | .longLong ll, c => c.addReplyLongLong ll
  | .multiBulkLen length, c => c.addReplyMultiBulkLen length
  | .bulkLen o, c => c.addReplyBulkLen o
  | .bulk o, c => c.addReplyBulk o
  | .error s, c => c.addReplyErrorLength s
  | .status s, c => c.addReplyStatusLength s
  | .deferred body length, c =>
    (body.add c.addDeferredMultiBulkLength.1).setDeferredMultiBulkLength
      c.addDeferredMultiBulkLength.2 length
  | .seq r r', c => r'.add (r.add c)

/-- The text of a reply, of which the strings are dropped when the client is about to be closed. A
number of elements that was to be filled in is sent even then. -/
def text (closing : Bool) : OutReply → Sds
  | .object o => if closing then [] else o.text
  | .sds s => if closing then [] else s
  | .string s => if closing then [] else s
  | .longLongWithPrefix ll pfx => if closing then [] else lineHeader pfx ll
  | .longLong ll => if closing then [] else lineHeader colon ll
  | .multiBulkLen length => if closing then [] else lineHeader star (Int64.ofNat length)
  | .bulkLen o => if closing then [] else lineHeader dollar (Int64.ofNat o.text.length)
  | .bulk o =>
    if closing then [] else lineHeader dollar (Int64.ofNat o.text.length) ++ o.text ++ crlf
  | .error s => if closing then [] else bytes [45, 69, 82, 82, 32] ++ s ++ crlf
  | .status s => if closing then [] else bytes [43] ++ s ++ crlf
  | .deferred body length => lineHeader star length ++ body.text closing
  | .seq r r' => r.text closing ++ r'.text closing

end OutReply

/-- A connection: its client, and what has been added to its output. -/
structure OutConn where
  client : WriteOutcome
  added : Sds

/-- What happens to the output of a client: a command answers, its flags change, the event loop
serves it before it waits, or finds its socket writable. -/
inductive OutAct where
  | reply (r : OutReply)
  | setFlags (f : ClientFlags)
  | beforeSleep (ws : List WriteResult) (installed : Bool)
  | writable (ws : List WriteResult)

namespace OutConn

/-- A new connection. -/
def accept (f : ClientFlags) : OutConn := ⟨.alive (OutClient.create f), []⟩

/-- One act. Nothing happens to a client that is gone. -/
def step (s : OutConn) (a : OutAct) : OutConn :=
  match s.client, a with
  | .alive c, .reply r =>
    ⟨.alive (r.add c), if c.flags.accepts then s.added ++ r.text c.flags.closeAfterReply
      else s.added⟩
  | .alive c, .setFlags f => { s with client := .alive { c with flags := f } }
  | .alive c, .beforeSleep ws installed =>
    if c.pendingWrite then { s with client := c.handlePendingWrites ws installed } else s
  | .alive c, .writable ws =>
    if c.writeHandler then { s with client := c.sendReplyToClient ws } else s
  | _, _ => s

/-- A run of a connection. -/
def run (s : OutConn) (as : List OutAct) : OutConn := as.foldl step s

end OutConn

end RemoveWin
