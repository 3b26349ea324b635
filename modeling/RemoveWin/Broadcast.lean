import RemoveWin.RwSet.Model

/-!
# Broadcasting accepted updates

`call` of `server.c`, and the ways a command gets there: directly from a client's input buffer,
from the queue of a transaction (`multi.c`), or from a script (`scripting.c`). The prepare phase
of a CRDT update that is accepted leaves the message in `c->rargv` (`CRDT.h`), and `call` hands
whatever it finds there to `replicationBroadcast` once the command has returned. Nothing in
`call` clears it. That is left to `resetClient`, which runs when a request from the input buffer
has been dealt with: not between the commands of a transaction, nor between these and the `EXEC`
that runs them, and never on the client that scripts use.

## What is left open

Datasets, commands and their replies are parameters, and so is what the procedure of a command
does (`Procs`): all that matters here is whether it leaves a message. The tests that
`processCommand` and `luaRedisGenericCommand` make before they call anything are represented by
their outcome. A script is what it looks like from the server: a sequence of calls, each
depending on the replies so far.

## Main results

* `RemoveWin.Redis.sent_eq_built_iff` — every accepted update is broadcast exactly once if and only
  if the run is clean
* `RemoveWin.call_rebroadcasts` — transactions and scripts that are not
-/

namespace RemoveWin

/-! ### Commands -/

/-- What the procedures of data commands do, on datasets `σ`. -/
structure Procs (σ Cmd ρ Msg : Type) where
  /-- For an ordinary client: the dataset and the reply it leaves, and the message in `rargv` if
  the command is a CRDT update whose prepare phase was completed. -/
  run : Cmd → σ → σ × ρ × Option Msg
  /-- For a client that is a replica, whose arguments are a message. -/
  effect : Msg → σ → σ

/-- A script, by its calls. A call of `none` is refused before any command runs, and what comes
next depends on the reply or the error. -/
inductive Script (Cmd ρ : Type) where
  | done
  | call (c : Option Cmd) (k : Option ρ → Script Cmd ρ)

/-- The commands that are queued in a transaction. -/
inductive Queueable (Cmd ρ : Type) where
  | data (c : Cmd)
  | eval (script : Script Cmd ρ)
  | unwatch

/-- The commands of a client. -/
inductive Command (Cmd ρ : Type) where
  | plain (q : Queueable Cmd ρ)
  | multi
  | exec
  | discard
  | watch

/-- The outcome of the tests in `processCommand`: some refusals spoil the transaction. -/
inductive Check where
  | pass
  | refuse
  | refuseFlag

/-! ### The server -/

/-- The fields of `client` that are used here. -/
structure Client (Cmd ρ Msg : Type) where
  /-- `CLIENT_MULTI`. -/
  multi : Bool
  /-- `CLIENT_DIRTY_CAS`. -/
  dirtyCas : Bool
  /-- `CLIENT_DIRTY_EXEC`. -/
  dirtyExec : Bool
  /-- Whether `watched_keys` has any. -/
  watching : Bool
  /-- `mstate.commands`. -/
  commands : List (Queueable Cmd ρ)
  /-- `rargv`, `none` for `NULL`. -/
  rargv : Option Msg

/-- `createClient`. -/
def Client.create {Cmd ρ Msg : Type} : Client Cmd ρ Msg := ⟨false, false, false, false, [], none⟩

/-- Where a data command is run from. -/
inductive Place where
  | direct
  | exec
  | lua
  deriving DecidableEq

/-- The record of a data command that was run. -/
structure Ran (Msg : Type) where
  /-- Where from. -/
  place : Place
  /-- The message, if it was an accepted update. -/
  msg : Option Msg

/-- The clients that `call` is called with: those that are connected, and that of scripts. -/
inductive Who (κ : Type) where
  | client (k : κ)
  | lua

/-- A server in replication mode, with clients `κ`. -/
structure Redis (κ σ Cmd ρ Msg : Type) where
  /-- The dataset. -/
  db : σ
  /-- The clients, none of which is a replica. -/
  clients : κ → Client Cmd ρ Msg
  /-- `server.lua_client->rargv`. -/
  lua : Option Msg
  /-- What `replicationBroadcast` has been handed, oldest first. -/
  sent : List Msg
  /-- The data commands run for clients and scripts, oldest first. -/
  ran : List (Ran Msg)

namespace Redis

variable {κ σ Cmd ρ Msg : Type} [DecidableEq κ]

/-- Change a client. -/
def modify (s : Redis κ σ Cmd ρ Msg) (k : κ) (f : Client Cmd ρ Msg → Client Cmd ρ Msg) :
    Redis κ σ Cmd ρ Msg :=
  { s with clients := Function.update s.clients k (f (s.clients k)) }

/-- `c->rargv`. -/
def rargv (s : Redis κ σ Cmd ρ Msg) : Who κ → Option Msg
  | .client k => (s.clients k).rargv
  | .lua => s.lua

/-- `RVCT_BROADCAST`. -/
def setRargv (s : Redis κ σ Cmd ρ Msg) (w : Who κ) (m : Msg) : Redis κ σ Cmd ρ Msg :=
  match w with
  | .client k => s.modify k fun c => { c with rargv := some m }
  | .lua => { s with lua := some m }

/-- What `call` does after the command. -/
def broadcast (s : Redis κ σ Cmd ρ Msg) (w : Who κ) : Redis κ σ Cmd ρ Msg :=
  { s with sent := s.sent ++ (s.rargv w).toList }

/-- `call`, for a client that is not a replica. -/
def call (w : Who κ) (proc : Redis κ σ Cmd ρ Msg → Redis κ σ Cmd ρ Msg)
    (s : Redis κ σ Cmd ρ Msg) : Redis κ σ Cmd ρ Msg :=
  (proc s).broadcast w

/-- `call`, for a client that is a replica: `rargv` is `argv` while the command runs and `NULL`
afterwards, and nothing is broadcast. -/
def callReplica (P : Procs σ Cmd ρ Msg) (m : Msg) (s : Redis κ σ Cmd ρ Msg) :
    Redis κ σ Cmd ρ Msg :=
  { s with db := P.effect m s.db }

/-- A data command has been run and left the dataset `db`. -/
def record (s : Redis κ σ Cmd ρ Msg) (db : σ) (x : Ran Msg) : Redis κ σ Cmd ρ Msg :=
  { s with db := db, ran := s.ran ++ [x] }

/-- The procedure of a data command, called with client `w`. -/
def dataCommand (P : Procs σ Cmd ρ Msg) (w : Who κ) (place : Place) (c : Cmd)
    (s : Redis κ σ Cmd ρ Msg) : Redis κ σ Cmd ρ Msg :=
  let (db, _, msg) := P.run c s.db
  let s := s.record db ⟨place, msg⟩
  match msg with
  | some m => s.setRargv w m
  | none => s

/-! ### Scripts -/

/-- `luaRedisGenericCommand`, with the reply it gives to the script. -/
def luaRedisGenericCommand (P : Procs σ Cmd ρ Msg) (c : Option Cmd) (s : Redis κ σ Cmd ρ Msg) :
    Redis κ σ Cmd ρ Msg × Option ρ :=
  match c with
  | none => (s, none)
  | some c => (call .lua (dataCommand P .lua .lua c) s, some (P.run c s.db).2.1)

/-- `evalGenericCommand`. -/
def evalGenericCommand (P : Procs σ Cmd ρ Msg) :
    Script Cmd ρ → Redis κ σ Cmd ρ Msg → Redis κ σ Cmd ρ Msg
  | .done, s => s
  | .call c k, s =>
    let (s', reply) := luaRedisGenericCommand P c s
    evalGenericCommand P (k reply) s'

/-! ### Transactions -/

/-- `flagTransaction`. -/
def flagTransaction (k : κ) (s : Redis κ σ Cmd ρ Msg) : Redis κ σ Cmd ρ Msg :=
  s.modify k fun c => if c.multi then { c with dirtyExec := true } else c

/-- `queueMultiCommand`. -/
def queueMultiCommand (k : κ) (q : Queueable Cmd ρ) (s : Redis κ σ Cmd ρ Msg) :
    Redis κ σ Cmd ρ Msg :=
  s.modify k fun c => { c with commands := c.commands ++ [q] }

/-- `unwatchAllKeys`. -/
def unwatchAllKeys (k : κ) (s : Redis κ σ Cmd ρ Msg) : Redis κ σ Cmd ρ Msg :=
  s.modify k fun c => { c with watching := false }

/-- `discardTransaction`. -/
def discardTransaction (k : κ) (s : Redis κ σ Cmd ρ Msg) : Redis κ σ Cmd ρ Msg :=
  unwatchAllKeys k <| s.modify k fun c =>
    { c with multi := false, dirtyCas := false, dirtyExec := false, commands := [] }

/-- `multiCommand`. -/
def multiCommand (k : κ) (s : Redis κ σ Cmd ρ Msg) : Redis κ σ Cmd ρ Msg :=
  if (s.clients k).multi then s else s.modify k fun c => { c with multi := true }

/-- `discardCommand`. -/
def discardCommand (k : κ) (s : Redis κ σ Cmd ρ Msg) : Redis κ σ Cmd ρ Msg :=
  if (s.clients k).multi then discardTransaction k s else s

/-- `watchCommand`. -/
def watchCommand (k : κ) (s : Redis κ σ Cmd ρ Msg) : Redis κ σ Cmd ρ Msg :=
  if (s.clients k).multi then s else s.modify k fun c => { c with watching := true }

/-- `unwatchCommand`. -/
def unwatchCommand (k : κ) (s : Redis κ σ Cmd ρ Msg) : Redis κ σ Cmd ρ Msg :=
  (unwatchAllKeys k s).modify k fun c => { c with dirtyCas := false }

/-- The procedure of a command that can be queued. -/
def proc (P : Procs σ Cmd ρ Msg) (k : κ) (place : Place) :
    Queueable Cmd ρ → Redis κ σ Cmd ρ Msg → Redis κ σ Cmd ρ Msg
  | .data c => dataCommand P (.client k) place c
  | .eval script => evalGenericCommand P script
  | .unwatch => unwatchCommand k

/-- `execCommand`. -/
def execCommand (P : Procs σ Cmd ρ Msg) (k : κ) (s : Redis κ σ Cmd ρ Msg) :
    Redis κ σ Cmd ρ Msg :=
  let c := s.clients k
  if ¬ c.multi then s
  else if c.dirtyCas ∨ c.dirtyExec then discardTransaction k s
  else
    discardTransaction k <| c.commands.foldl
      (fun s q => call (.client k) (proc P k .exec q) s) (unwatchAllKeys k s)

/-! ### Requests -/

/-- `processCommand`. -/
def processCommand (P : Procs σ Cmd ρ Msg) (k : κ) (check : Check) (cmd : Command Cmd ρ)
    (s : Redis κ σ Cmd ρ Msg) : Redis κ σ Cmd ρ Msg :=
  match check with
  | .refuse => s
  | .refuseFlag => flagTransaction k s
  | .pass =>
    match cmd with
    | .plain q =>
      if (s.clients k).multi then queueMultiCommand k q s
      else call (.client k) (proc P k .direct q) s
    | .multi => call (.client k) (multiCommand k) s
    | .exec => call (.client k) (execCommand P k) s
    | .discard => call (.client k) (discardCommand k) s
    | .watch => call (.client k) (watchCommand k) s

/-- `resetClient`, for what `freeClientArgv` does to `rargv`. -/
def resetClient (k : κ) (s : Redis κ σ Cmd ρ Msg) : Redis κ σ Cmd ρ Msg :=
  s.modify k fun c => { c with rargv := none }

/-- What can happen to a server: a client's request is taken from its input buffer, a replica's
message arrives, a key that a client watches is touched, a client connects. -/
inductive Input (κ Cmd ρ Msg : Type) where
  | request (k : κ) (check : Check) (cmd : Command Cmd ρ)
  | message (m : Msg)
  | touch (k : κ)
  | connect (k : κ)

/-- One input. For a request this is a turn of the loop of `processInputBuffer`. -/
def step (P : Procs σ Cmd ρ Msg) (s : Redis κ σ Cmd ρ Msg) :
    Input κ Cmd ρ Msg → Redis κ σ Cmd ρ Msg
  | .request k check cmd => resetClient k (processCommand P k check cmd s)
  | .message m => callReplica P m s
  | .touch k => s.modify k fun c => if c.watching then { c with dirtyCas := true } else c
  | .connect k => s.modify k fun _ => .create

/-- A server that starts with dataset `db`. -/
def start (db : σ) : Redis κ σ Cmd ρ Msg := ⟨db, fun _ => .create, none, [], []⟩

/-- A whole run. -/
def run (P : Procs σ Cmd ρ Msg) (db : σ) (inputs : List (Input κ Cmd ρ Msg)) :
    Redis κ σ Cmd ρ Msg :=
  inputs.foldl (step P) (start db)

end Redis

/-! ### What should be sent -/

section

variable {Msg : Type}

/-- The messages built by accepted updates, in order. -/
def built (ran : List (Ran Msg)) : List Msg := ran.filterMap Ran.msg

/-- **The clean runs**: a transaction runs no accepted update, and after an accepted update that
was made by a script, all commands run by scripts are accepted updates. -/
def Clean (ran : List (Ran Msg)) : Prop :=
  (∀ x ∈ ran, x.place = .exec → x.msg = none) ∧
    ran.Pairwise fun x y => x.place = .lua → y.place = .lua → y.msg = none → x.msg = none

theorem built_concat (l : List (Ran Msg)) (x : Ran Msg) :
    built (l ++ [x]) = built l ++ x.msg.toList := by
  cases hx : x.msg <;> simp [built, hx]

theorem clean_concat {l : List (Ran Msg)} {x : Ran Msg} :
    Clean (l ++ [x]) ↔ Clean l ∧ (x.place = .exec → x.msg = none) ∧
      (x.place = .lua → x.msg = none → ∀ y ∈ l, y.place = .lua → y.msg = none) := by
  simp only [Clean, List.pairwise_append, List.mem_append, List.mem_singleton,
    List.pairwise_cons, List.not_mem_nil, false_imp_iff, implies_true, List.Pairwise.nil, and_true,
    forall_eq, true_and]
  constructor
  · rintro ⟨hexec, hlua, hlast⟩
    exact ⟨⟨fun y hy => hexec y (.inl hy), hlua⟩, hexec x (.inr rfl),
      fun hx hm y hy hyl => hlast y hy hyl hx hm⟩
  · rintro ⟨⟨hexec, hlua⟩, hx, hlast⟩
    refine ⟨?_, hlua, fun y hy hyl hxl hm => hlast hxl hm y hy hyl⟩
    rintro y (hy | rfl)
    · exact hexec y hy
    · exact hx

end

/-! ### Bookkeeping -/

namespace Redis

variable {κ σ Cmd ρ Msg : Type} {P : Procs σ Cmd ρ Msg} {s : Redis κ σ Cmd ρ Msg} {k : κ}
  {b : Bool}

/-- **What has been sent, against what has been built.** With `stale` there is a message in
`rargv` that will be sent again. -/
structure Books (stale : Bool) (s : Redis κ σ Cmd ρ Msg) : Prop where
  lua : s.lua = none ↔ ∀ x ∈ s.ran, x.place = .lua → x.msg = none
  /-- As long as the run is clean, nothing is stale and everything has been sent once. -/
  once : Clean s.ran → stale = false ∧ s.sent = built s.ran
  /-- Otherwise more has been sent than built, or will be. -/
  more : ¬ Clean s.ran → (built s.ran).length < s.sent.length + stale.toNat

theorem Books.length_le (h : Books b s) : (built s.ran).length ≤ s.sent.length := by
  by_cases hc : Clean s.ran
  · rw [(h.once hc).2]
  · have := h.more hc
    have := b.toNat_le
    omega

theorem Books.congr {s' : Redis κ σ Cmd ρ Msg} (h : Books b s) (hlua : s'.lua = s.lua)
    (hran : s'.ran = s.ran) (hsent : s'.sent = s.sent) : Books b s' := by
  obtain ⟨h₁, h₂, h₃⟩ := h
  exact ⟨by rwa [hlua, hran], by rwa [hran, hsent], by rwa [hran, hsent]⟩

variable [DecidableEq κ]

/-! ### Single operations -/

@[simp] theorem clients_modify_self (s : Redis κ σ Cmd ρ Msg) (k : κ)
    (f : Client Cmd ρ Msg → Client Cmd ρ Msg) : (s.modify k f).clients k = f (s.clients k) :=
  Function.update_self ..

theorem clients_modify_of_ne {j : κ} (h : j ≠ k) (f : Client Cmd ρ Msg → Client Cmd ρ Msg) :
    (s.modify k f).clients j = s.clients j := Function.update_of_ne h ..

theorem clients_setRargv_of_ne {j : κ} (h : j ≠ k) (m : Msg) :
    (s.setRargv (.client k) m).clients j = s.clients j := by
  rw [setRargv, clients_modify_of_ne h]

theorem dataCommand_of_none {w : Who κ} {place : Place} {c : Cmd}
    (h : (P.run c s.db).2.2 = none) :
    dataCommand P w place c s = s.record (P.run c s.db).1 ⟨place, none⟩ := by
  simp only [dataCommand, h]

theorem dataCommand_of_some {w : Who κ} {place : Place} {c : Cmd} {m : Msg}
    (h : (P.run c s.db).2.2 = some m) :
    dataCommand P w place c s = (s.record (P.run c s.db).1 ⟨place, some m⟩).setRargv w m := by
  simp only [dataCommand, h]

/-! ### Scripts -/

/-- A call from a script keeps the books: if it builds no message and an earlier one did, that
one is sent again. -/
theorem Books.luaCall (h : Books b s) (c : Cmd) :
    Books b (call .lua (dataCommand P .lua .lua c) s) := by
  cases hm : (P.run c s.db).2.2 with
  | some m =>
    have hclean : Clean (s.ran ++ [⟨.lua, some m⟩]) ↔ Clean s.ran := by
      simp [clean_concat]
    rw [call, dataCommand_of_some hm]
    refine ⟨iff_of_false (fun hn => by cases hn) fun hall => ?_, fun hc => ?_, fun hc => ?_⟩
    · cases hall ⟨.lua, some m⟩ (by simp [broadcast, setRargv, record]) rfl
    · obtain ⟨hb, hsent⟩ := h.once (hclean.mp hc)
      exact ⟨hb, by simp [broadcast, setRargv, record, rargv, built_concat, hsent]⟩
    · have hlt := h.more (hc ∘ hclean.mpr)
      simp only [broadcast, setRargv, record, rargv, built_concat, List.length_append,
        Option.toList_some, List.length_singleton]
      omega
  | none =>
    rw [call, dataCommand_of_none hm]
    cases hl : s.lua with
    | none =>
      have hall := h.lua.mp hl
      have hclean : Clean (s.ran ++ [⟨.lua, none⟩]) ↔ Clean s.ran := by
        rw [clean_concat]
        exact and_iff_left ⟨fun _ => rfl, fun _ _ => hall⟩
      refine ⟨iff_of_true hl ?_, fun hc => ?_, fun hc => ?_⟩
      · intro x hx hp
        simp only [broadcast, record, List.mem_append, List.mem_singleton] at hx
        rcases hx with hx | rfl
        · exact hall x hx hp
        · rfl
      · simpa [broadcast, record, rargv, built_concat, hl] using h.once (hclean.mp hc)
      · simpa [broadcast, record, rargv, built_concat, hl] using h.more (hc ∘ hclean.mpr)
    | some m =>
      have hall : ¬ ∀ x ∈ s.ran, x.place = .lua → x.msg = none := fun hall => by
        rw [h.lua.mpr hall] at hl
        cases hl
      refine ⟨iff_of_false (fun hn => ?_) fun hall' => ?_, fun hc => ?_, fun _ => ?_⟩
      · rw [show s.lua = none from hn] at hl
        cases hl
      · exact hall fun x hx => hall' x (by simp [broadcast, record, hx])
      · exact absurd ((clean_concat.mp hc).2.2 rfl rfl) hall
      · have hle := h.length_le
        simp only [broadcast, record, rargv, hl, built_concat, List.length_append,
          Option.toList_none, List.length_nil, Option.toList_some, List.length_singleton]
        omega

theorem clients_luaCall (c : Cmd) :
    (call .lua (dataCommand P .lua .lua c) s).clients = s.clients := by
  cases hm : (P.run c s.db).2.2 with
  | some m => rw [call, dataCommand_of_some hm]; rfl
  | none => rw [call, dataCommand_of_none hm]; rfl

/-- **A script** keeps the books and touches no client but its own. -/
theorem Books.evalGenericCommand (script : Script Cmd ρ) (h : Books b s) :
    Books b (evalGenericCommand P script s) ∧
      (evalGenericCommand P script s).clients = s.clients := by
  induction script generalizing s with
  | done => exact ⟨h, rfl⟩
  | call c cont ih =>
    cases c with
    | none => exact ih _ h
    | some c =>
      obtain ⟨hbooks, hclients⟩ := ih (some (P.run c s.db).2.1) (h.luaCall (P := P) c)
      exact ⟨hbooks, hclients.trans (clients_luaCall c)⟩

/-! ### Transactions -/

omit [DecidableEq κ] in
theorem broadcast_of_none (h : (s.clients k).rargv = none) : s.broadcast (.client k) = s := by
  rw [broadcast, rargv, h, Option.toList_none, List.append_nil]

/-- The state within a transaction of client `k`: nobody else has anything to broadcast, and the
books are kept with what `k` has. -/
structure Inside (k : κ) (s : Redis κ σ Cmd ρ Msg) : Prop where
  idle : ∀ j, j ≠ k → (s.clients j).rargv = none
  /-- The books. -/
  books : Books (s.clients k).rargv.isSome s

omit [DecidableEq κ] in
/-- After a command that builds nothing, what is stale is sent once more and stays stale. -/
theorem Inside.again (h : Inside k s) : Inside k (s.broadcast (.client k)) := by
  obtain ⟨hi, h⟩ := h
  cases hr : (s.clients k).rargv with
  | none =>
    rw [broadcast_of_none hr]
    exact ⟨hi, h⟩
  | some m =>
    refine ⟨hi, h.lua, fun hc => h.once hc |>.imp_right fun hsent => ?_, fun hc => ?_⟩
    · have hstale := (h.once hc).1
      rw [hr] at hstale
      cases hstale
    · have hlt := h.more hc
      simp only [broadcast, rargv, hr, Option.toList_some, List.length_append,
        List.length_singleton] at hlt ⊢
      omega

omit [DecidableEq κ] in
/-- What is stale at the end of a transaction is sent once more, by the `EXEC`. -/
theorem Inside.flush (h : Inside k s) : Books false (s.broadcast (.client k)) := by
  obtain ⟨-, h⟩ := h
  cases hr : (s.clients k).rargv with
  | none =>
    rw [hr] at h
    rwa [broadcast_of_none hr]
  | some m =>
    rw [hr] at h
    refine ⟨h.lua, fun hc => ?_, fun hc => ?_⟩
    · cases (h.once hc).1
    · have hlt := h.more hc
      rw [Option.isSome_some, Bool.toNat_true] at hlt
      simpa [broadcast, rargv, hr] using hlt

/-- Changing the client is of no consequence if its `rargv` stays. -/
theorem Inside.modify {f : Client Cmd ρ Msg → Client Cmd ρ Msg} (hf : ∀ c, (f c).rargv = c.rargv)
    (h : Inside k s) : Inside k (s.modify k f) := by
  refine ⟨fun j hj => ?_, ?_⟩
  · rw [clients_modify_of_ne hj, h.idle j hj]
  · rw [clients_modify_self, hf]
    exact h.books.congr rfl rfl rfl

theorem Inside.unwatchAllKeys (h : Inside k s) : Inside k (unwatchAllKeys k s) :=
  h.modify fun _ => rfl

theorem Inside.unwatchCommand (h : Inside k s) : Inside k (unwatchCommand k s) := by
  rw [Redis.unwatchCommand]
  exact h.unwatchAllKeys.modify fun _ => rfl

theorem Inside.discardTransaction (h : Inside k s) : Inside k (discardTransaction k s) :=
  Inside.unwatchAllKeys (h.modify fun _ => rfl)

omit [DecidableEq κ] in
/-- Commands that are not run by scripts do not count for the client of scripts. -/
theorem forall_lua_concat {l : List (Ran Msg)} {x : Ran Msg} (hx : x.place ≠ .lua) :
    (∀ y ∈ l ++ [x], y.place = .lua → y.msg = none) ↔ ∀ y ∈ l, y.place = .lua → y.msg = none := by
  simp [or_imp, forall_and, hx]

/-- A data command in a transaction: a message it builds is stale from then on. -/
theorem Inside.execData (h : Inside k s) (c : Cmd) :
    Inside k (call (.client k) (dataCommand P (.client k) .exec c) s) := by
  obtain ⟨hi, h⟩ := h
  rw [call]
  cases hm : (P.run c s.db).2.2 with
  | some m =>
    rw [dataCommand_of_some hm]
    refine ⟨fun j hj => ?_, ?_, fun hc => ?_, fun _ => ?_⟩
    · rw [← hi j hj]
      exact congrArg Client.rargv (clients_setRargv_of_ne (s := s.record _ _) hj m)
    · exact h.lua.trans (forall_lua_concat (x := ⟨.exec, some m⟩) (by simp)).symm
    · cases (clean_concat.mp hc).2.1 rfl
    · have hle := h.length_le
      simp only [broadcast, setRargv, record, rargv, Redis.modify, Function.update_self,
        built_concat, List.length_append, Option.toList_some, List.length_singleton,
        Option.isSome_some, Bool.toNat_true]
      omega
  | none =>
    rw [dataCommand_of_none hm]
    have hclean : Clean (s.ran ++ [⟨.exec, none⟩]) ↔ Clean s.ran := by
      simp [clean_concat]
    refine Inside.again (s := s.record _ _) ⟨hi, ?_, fun hc => ?_, fun hc => ?_⟩
    · exact h.lua.trans (forall_lua_concat (x := ⟨.exec, none⟩) (by simp)).symm
    · simpa [record, built_concat] using h.once (hclean.mp hc)
    · simpa [record, built_concat] using h.more (hc ∘ hclean.mpr)

/-- **One command of a transaction.** -/
theorem Inside.execCall (h : Inside k s) (q : Queueable Cmd ρ) :
    Inside k (call (.client k) (proc P k .exec q) s) := by
  cases q with
  | data c => exact h.execData c
  | eval script =>
    obtain ⟨hbooks, hclients⟩ := h.books.evalGenericCommand (P := P) script
    refine Inside.again (s := evalGenericCommand P script s) ⟨?_, ?_⟩
    · rw [hclients]
      exact h.idle
    · rwa [hclients]
  | unwatch => exact Inside.again h.unwatchCommand

/-- **The loop of `EXEC`.** -/
theorem Inside.execLoop (qs : List (Queueable Cmd ρ)) (h : Inside k s) :
    Inside k (qs.foldl (fun s q => call (.client k) (proc P k .exec q) s) s) := by
  induction qs generalizing s with
  | nil => exact h
  | cons q qs ih => exact ih (h.execCall q)

theorem Inside.execCommand (h : Inside k s) : Inside k (execCommand P k s) := by
  simp only [Redis.execCommand]
  split
  · exact h
  · split
    · exact h.discardTransaction
    · exact (h.unwatchAllKeys.execLoop _).discardTransaction

/-! ### Requests -/

/-- The state between requests: nobody has anything to broadcast. -/
structure Settled (s : Redis κ σ Cmd ρ Msg) : Prop where
  idle : ∀ k, (s.clients k).rargv = none
  /-- The books. -/
  books : Books false s

omit [DecidableEq κ] in
theorem Settled.inside (h : Settled s) (k : κ) : Inside k s :=
  ⟨fun j _ => h.idle j, by rw [h.idle k]; exact h.books⟩

/-- `resetClient` settles what `call` leaves. -/
theorem settled_resetClient (hi : ∀ j, j ≠ k → (s.clients j).rargv = none) (h : Books false s) :
    Settled (resetClient k s) := by
  refine ⟨fun j => ?_, h.congr rfl rfl rfl⟩
  by_cases hj : j = k
  · rw [hj, resetClient, clients_modify_self]
  · rw [resetClient, clients_modify_of_ne hj, hi j hj]

/-- A procedure that leaves the server as within a transaction is followed by a broadcast and a
reset. -/
theorem Inside.settled (h : Inside k s) : Settled (resetClient k (s.broadcast (.client k))) :=
  settled_resetClient h.idle h.flush

theorem Settled.directData (h : Settled s) (k : κ) (c : Cmd) :
    Settled (resetClient k (call (.client k) (dataCommand P (.client k) .direct c) s)) := by
  have hbooks := h.books
  rw [call]
  cases hm : (P.run c s.db).2.2 with
  | some m =>
    have hclean : Clean (s.ran ++ [⟨.direct, some m⟩]) ↔ Clean s.ran := by
      simp [clean_concat]
    rw [dataCommand_of_some hm]
    refine settled_resetClient (fun j hj => ?_) ⟨?_, fun hc => ?_, fun hc => ?_⟩
    · rw [← h.idle j]
      exact congrArg Client.rargv (clients_setRargv_of_ne (s := s.record _ _) hj m)
    · exact hbooks.lua.trans (forall_lua_concat (x := ⟨.direct, some m⟩) (by simp)).symm
    · have hsent := (hbooks.once (hclean.mp hc)).2
      simp [broadcast, setRargv, record, rargv, Redis.modify, built_concat, hsent]
    · have hlt := hbooks.more (hc ∘ hclean.mpr)
      simp only [broadcast, setRargv, record, rargv, Redis.modify, Function.update_self,
        built_concat, List.length_append, Option.toList_some, List.length_singleton]
      omega
  | none =>
    have hclean : Clean (s.ran ++ [⟨.direct, none⟩]) ↔ Clean s.ran := by
      simp [clean_concat]
    rw [dataCommand_of_none hm]
    have hset : Settled (s.record (P.run c s.db).1 ⟨.direct, none⟩) := by
      refine ⟨h.idle, ?_, fun hc => ?_, fun hc => ?_⟩
      · exact hbooks.lua.trans (forall_lua_concat (x := ⟨.direct, none⟩) (by simp)).symm
      · simpa [record, built_concat] using hbooks.once (hclean.mp hc)
      · simpa [record, built_concat] using hbooks.more (hc ∘ hclean.mpr)
    exact (hset.inside k).settled

/-- **One request.** -/
theorem Settled.request (h : Settled s) (k : κ) (check : Check) (cmd : Command Cmd ρ) :
    Settled (resetClient k (processCommand P k check cmd s)) := by
  have hin := h.inside k
  -- requests that do not get as far as `call`
  have hquiet : ∀ {f : Client Cmd ρ Msg → Client Cmd ρ Msg}, (∀ c, (f c).rargv = c.rargv) →
      Settled (resetClient k (s.modify k f)) := by
    intro f hf
    exact settled_resetClient (hin.modify hf).idle (h.books.congr rfl rfl rfl)
  cases check with
  | refuse => exact settled_resetClient hin.idle h.books
  | refuseFlag =>
    simp only [processCommand, flagTransaction]
    refine hquiet fun c => ?_
    split <;> rfl
  | pass =>
    cases cmd with
    | plain q =>
      simp only [processCommand]
      split
      · exact hquiet fun _ => rfl
      · cases q with
        | data c => exact h.directData k c
        | eval script =>
          obtain ⟨hbooks, hclients⟩ := h.books.evalGenericCommand (P := P) script
          refine Inside.settled (s := evalGenericCommand P script s)
            (Settled.inside ⟨fun j => ?_, hbooks⟩ k)
          rw [hclients, h.idle j]
        | unwatch => exact Inside.settled hin.unwatchCommand
    | multi =>
      refine Inside.settled (s := multiCommand k s) ?_
      rw [multiCommand]
      split
      · exact hin
      · exact hin.modify fun _ => rfl
    | exec => exact Inside.settled hin.execCommand
    | discard =>
      refine Inside.settled (s := discardCommand k s) ?_
      rw [discardCommand]
      split
      · exact hin.discardTransaction
      · exact hin
    | watch =>
      refine Inside.settled (s := watchCommand k s) ?_
      rw [watchCommand]
      split
      · exact hin
      · exact hin.modify fun _ => rfl

theorem Settled.modify (h : Settled s) (k : κ) {f : Client Cmd ρ Msg → Client Cmd ρ Msg}
    (hf : (f (s.clients k)).rargv = none) : Settled (s.modify k f) := by
  refine ⟨fun j => ?_, h.books.congr rfl rfl rfl⟩
  by_cases hj : j = k
  · rw [hj, clients_modify_self, hf]
  · rw [clients_modify_of_ne hj, h.idle j]

theorem Settled.step (h : Settled s) (i : Input κ Cmd ρ Msg) : Settled (step P s i) := by
  cases i with
  | request k check cmd => exact h.request k check cmd
  | message m => exact ⟨h.idle, h.books.congr rfl rfl rfl⟩
  | touch k =>
    refine h.modify k ?_
    split <;> exact h.idle k
  | connect k => exact h.modify k (f := fun _ => .create) rfl

/-- **Between requests everything is settled.** -/
theorem settled_run (P : Procs σ Cmd ρ Msg) (db : σ) (inputs : List (Input κ Cmd ρ Msg)) :
    Settled (run P db inputs) := by
  have hstart : Settled (start db : Redis κ σ Cmd ρ Msg) := by
    refine ⟨fun _ => rfl, iff_of_true rfl (by simp [start]), fun _ => ⟨rfl, rfl⟩, fun hc => ?_⟩
    exact absurd ⟨by simp [start], .nil⟩ hc
  rw [run]
  generalize start db = s at hstart ⊢
  induction inputs generalizing s with
  | nil => exact hstart
  | cons i inputs ih => exact ih _ (hstart.step i)

/-- **Broadcasts.** What a server hands to `replicationBroadcast` is exactly the messages that
accepted updates built, each once and in order, if and only if no transaction ran an accepted
update and every command that a script ran after an accepted update of a script was an accepted
update as well. -/
theorem sent_eq_built_iff (P : Procs σ Cmd ρ Msg) (db : σ) (inputs : List (Input κ Cmd ρ Msg)) :
    (run P db inputs).sent = built (run P db inputs).ran ↔ Clean (run P db inputs).ran := by
  have h := (settled_run P db inputs).books
  refine ⟨fun heq => ?_, fun hc => (h.once hc).2⟩
  by_contra hc
  have hlt := h.more hc
  rw [heq] at hlt
  exact lt_irrefl _ hlt

/-! ### The dataset -/

/-- **Properties of the dataset and the record**, from what data commands and messages do. -/
theorem run_invariant {Q : σ → List (Ran Msg) → Prop} {inputs : List (Input κ Cmd ρ Msg)}
    {db : σ} (h0 : Q db [])
    (hdata : ∀ place c db ran, Q db ran →
      Q (P.run c db).1 (ran ++ [⟨place, (P.run c db).2.2⟩]))
    (hmsg : ∀ m db ran, .message m ∈ inputs → Q db ran → Q (P.effect m db) ran) :
    Q (run P db inputs).db (run P db inputs).ran := by
  have hcmd : ∀ (w : Who κ) place c (s : Redis κ σ Cmd ρ Msg), Q s.db s.ran →
      Q (dataCommand P w place c s).db (dataCommand P w place c s).ran := by
    intro w place c s h
    have hnext := hdata place c s.db s.ran h
    cases hm : (P.run c s.db).2.2 with
    | some m =>
      rw [hm] at hnext
      rw [dataCommand_of_some hm]
      cases w <;> exact hnext
    | none =>
      rw [hm] at hnext
      rwa [dataCommand_of_none hm]
  have heval : ∀ (script : Script Cmd ρ) (s : Redis κ σ Cmd ρ Msg), Q s.db s.ran →
      Q (evalGenericCommand P script s).db (evalGenericCommand P script s).ran := by
    intro script
    induction script with
    | done => exact fun s h => h
    | call c cont ih =>
      intro s h
      cases c with
      | none => exact ih _ _ h
      | some c => exact ih _ _ (hcmd .lua .lua c s h)
  have hproc : ∀ k place (q : Queueable Cmd ρ) (s : Redis κ σ Cmd ρ Msg), Q s.db s.ran →
      Q (proc P k place q s).db (proc P k place q s).ran := by
    intro k place q s h
    cases q with
    | data c => exact hcmd (.client k) place c s h
    | eval script => exact heval script s h
    | unwatch => exact h
  have hloop : ∀ k (qs : List (Queueable Cmd ρ)) (s : Redis κ σ Cmd ρ Msg), Q s.db s.ran →
      Q (qs.foldl (fun s q => call (.client k) (proc P k .exec q) s) s).db
        (qs.foldl (fun s q => call (.client k) (proc P k .exec q) s) s).ran := by
    intro k qs
    induction qs with
    | nil => exact fun s h => h
    | cons q qs ih => exact fun s h => ih _ (hproc k .exec q s h)
  have hstep : ∀ i ∈ inputs, ∀ s : Redis κ σ Cmd ρ Msg, Q s.db s.ran →
      Q (Redis.step P s i).db (Redis.step P s i).ran := by
    intro i hi s h
    cases i with
    | request k check cmd =>
      cases check with
      | refuse => exact h
      | refuseFlag => exact h
      | pass =>
        cases cmd with
        | plain q =>
          simp only [Redis.step, processCommand]
          split
          · exact h
          · exact hproc k .direct q s h
        | multi =>
          simp only [Redis.step, processCommand, call, multiCommand]
          split <;> exact h
        | exec =>
          simp only [Redis.step, processCommand, call, execCommand]
          split
          · exact h
          · split
            · exact h
            · exact hloop k _ _ h
        | discard =>
          simp only [Redis.step, processCommand, call, discardCommand]
          split <;> exact h
        | watch =>
          simp only [Redis.step, processCommand, call, watchCommand]
          split <;> exact h
    | message m => exact hmsg m s.db s.ran hi h
    | touch k => exact h
    | connect k => exact h
  have hrun : ∀ (l : List (Input κ Cmd ρ Msg)) (s : Redis κ σ Cmd ρ Msg), (∀ i ∈ l, i ∈ inputs) →
      Q s.db s.ran → Q (l.foldl (Redis.step P) s).db (l.foldl (Redis.step P) s).ran := by
    intro l
    induction l with
    | nil => exact fun s _ h => h
    | cons i l ih =>
      intro s hl h
      exact ih _ (fun j hj => hl j (by simp [hj])) (hstep i (hl i (by simp)) s h)
  exact hrun inputs (start db) (fun _ hi => hi) h0

end Redis

/-! ### CRDT commands -/

/-- The procedures written with `CRDT_BEGIN`, `CRDT_PREPARE`, `CRDT_EFFECT` and `CRDT_END`: the
prepare phase may return early, else its message is left in `rargv` and the effect follows. A
prepare phase that does not return leaves everything as it is here. -/
def Procs.crdt {σ Cmd Msg : Type} (prepare : Cmd → σ → Option (Prepared σ Msg))
    (effect : Msg → σ → σ) : Procs σ Cmd (List Reply) Msg where
  run c db :=
    match prepare c db with
    | none => (db, [], none)
    | some ⟨db, replies, none⟩ => (db, replies, none)
    | some ⟨db, replies, some m⟩ => (effect m db, replies, some m)
  effect := effect

/-- The RWF-Set commands of a server. -/
def rwsProcs (srv : Server) : Procs RwDb RwCmd (List Reply) RwMsg :=
  .crdt (rwsPrepare srv) (rwsEffect srv)

section

open Replicated

/-- **What clients do to the dataset is a run of the replicated object**, in which every accepted
update is one event. So in a clean run the server broadcasts the log of that run, as the results
about replicas assume. -/
theorem rwSet_of_run {κ : Type} [DecidableEq κ] {N : ℕ} (iter : Fin N → Iteration) (r : Fin N)
    (inputs : List (Redis.Input κ RwCmd (List Reply) RwMsg)) (hin : ∀ m, .message m ∉ inputs) :
    ∃ g, Reachable (rwSet iter) anyOrder g ∧
      g.state r = (Redis.run (rwsProcs (.of iter r)) .empty inputs).db ∧
      g.log.map Event.msg = built (Redis.run (rwsProcs (.of iter r)) .empty inputs).ran := by
  refine Redis.run_invariant (Q := fun db ran => ∃ g, Reachable (rwSet iter) anyOrder g ∧
    g.state r = db ∧ g.log.map Event.msg = built ran) ⟨_, .refl, rfl, rfl⟩ ?_
    fun m db ran hm => absurd hm (hin m)
  rintro place c db ran ⟨g, hg, rfl, hlog⟩
  have hprep : (rwSet iter).prepare r c (g.state r) =
      (rwsPrepare (.of iter r) c (g.state r)).map fun p => (p.state, p.msg) := rfl
  cases hp : rwsPrepare (.of iter r) c (g.state r) with
  | none =>
    have hrun : (rwsProcs (.of iter r)).run c (g.state r) = (g.state r, [], none) := by
      simp only [rwsProcs, Procs.crdt, hp]
    rw [hrun, built_concat]
    exact ⟨g, hg, rfl, by simpa using hlog⟩
  | some p =>
    obtain ⟨db, replies, o⟩ := p
    rw [hp] at hprep
    cases o with
    | none =>
      have hrun : (rwsProcs (.of iter r)).run c (g.state r) = (db, replies, none) := by
        simp only [rwsProcs, Procs.crdt, hp]
      have hstep : (rwSet iter).step g (.client r c) = some (g.setState r db) := by
        simp only [OpBased.step, hprep, Option.map_some]
      rw [hrun, built_concat]
      exact ⟨_, hg.tail trivial hstep, by simp, by simpa using hlog⟩
    | some m =>
      have hrun : (rwsProcs (.of iter r)).run c (g.state r) =
          (rwsEffect (.of iter r) m db, replies, some m) := by
        simp only [rwsProcs, Procs.crdt, hp]
      have hstep : (rwSet iter).step g (.client r c) = some ((g.announce (g.event r m)).apply r
          (g.event r m) ((rwSet iter).effect r m db)) := by
        simp only [OpBased.step, hprep, Option.map_some]
      rw [hrun, built_concat]
      refine ⟨_, hg.tail trivial hstep, ?_, ?_⟩
      · rw [Net.apply_state_self]
        rfl
      · simp [hlog, Net.event]

end

/-- **Transactions and scripts send messages again.** A client queues one add: the transaction
sends its message, and `EXEC` sends it once more. A script adds a member and then calls a command
that is refused: the message of the add is sent again. -/
theorem call_rebroadcasts :
    let P := rwsProcs (.of (inOrder 2) 0)
    let transaction : List (Redis.Input Unit RwCmd (List Reply) RwMsg) :=
      [.request () .pass .multi, .request () .pass (.plain (.data (.add [115] [[120]]))),
        .request () .pass .exec]
    let script : List (Redis.Input Unit RwCmd (List Reply) RwMsg) :=
      [.request () .pass (.plain (.eval (.call (some (.add [115] [[120]])) fun _ =>
        .call (some (.rem [116] [[121]])) fun _ => .done)))]
    (Redis.run P .empty transaction).sent ≠ built (Redis.run P .empty transaction).ran ∧
      (Redis.run P .empty script).sent ≠ built (Redis.run P .empty script).ran := by
  intro P transaction script
  have htransaction : (Redis.run P .empty transaction).sent.length = 2 ∧
      (built (Redis.run P .empty transaction).ran).length = 1 := by decide
  have hscript : (Redis.run P .empty script).sent.length = 2 ∧
      (built (Redis.run P .empty script).ran).length = 1 := by decide
  refine ⟨fun heq => ?_, fun heq => ?_⟩
  · rw [heq, htransaction.2] at htransaction
    exact absurd htransaction.1 (by decide)
  · rw [heq, hscript.2] at hscript
    exact absurd hscript.1 (by decide)

end RemoveWin
