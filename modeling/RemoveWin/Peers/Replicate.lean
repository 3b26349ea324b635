import RemoveWin.Peers.Model
import RemoveWin.TextCodec

/-!
# What `REPLICATE` leaves behind

`replicateCommand` with its arguments as texts and with its replies. `Peers.Model` takes the numbers
and the clients for granted; here they come out of parsing and connecting, either of which may fail
at any argument.

A number that does not parse is answered with an error, and the command goes on with whatever the
variable held. Count and id are assigned before the first connection is tried, and every connection
puts its link on the list before the next one is tried. Where connecting fails the command answers
and returns, and what has been done stays. With an odd number of arguments for addresses the last
port is read from behind the array.
-/

namespace RemoveWin

/-! ### The command -/

/-- The replies of `REPLICATE`. -/
inductive ReplicateReply where
  | ok
  | wrongArity
  | clusterMode
  | invalidSize
  | invalidId
  | invalidPort
  | connecting
  deriving DecidableEq

/-- How a call of `connectWithReplica` and of `createClient` behind it end: without a connection,
with a client, or with a connection that the event loop has no room for. -/
inductive Attempt (κ : Type) where
  | refused
  | connected (k : κ)
  | unwatched
  deriving DecidableEq

/-- What the command depends on besides its arguments: whether the server is part of a cluster, what
is in the variables before they are assigned, and how the attempts to connect end. -/
structure ReplicateEnv (κ : Type) where
  /-- `server.cluster_enabled`. -/
  clusterEnabled : Bool
  /-- The variable `size`. -/
  size : Int64
  /-- The variable `id`. -/
  id : Int64
  /-- The variable `port`, round by round. -/
  port : ℕ → Int64
  /-- The attempts, round by round. -/
  connect : ℕ → Sds → Int32 → Attempt κ

/-- `getLongFromObjectOrReply`: what the variable holds afterwards, and the replies. -/
def getLongFromObjectOrReply (old : Int64) (text : Sds) (msg : ReplicateReply) :
    Int64 × List ReplicateReply :=
  match string2ll text with
  | some value => (value, [])
  | none => (old, [msg])

theorem tolower_lt {n : ℕ} (h : n ≤ 90) : n + 32 < 256 := by omega

/-- `tolower`. -/
def tolower (b : Fin 256) : Fin 256 :=
  if h : 65 ≤ b.val ∧ b.val ≤ 90 then ⟨b.val + 32, tolower_lt h.2⟩ else b

/-- The test `!strcasecmp(s, t)` for a text in small letters. -/
def EqNoCase (s t : Sds) : Prop := (sdsnew s).map tolower = t

instance (s t : Sds) : Decidable (EqNoCase s t) :=
  inferInstanceAs (Decidable ((sdsnew s).map tolower = t))

/-- `"replica"`. -/
def replicaText : Sds := bytes [114, 101, 112, 108, 105, 99, 97]

/-- `"handshake"`. -/
def handshakeText : Sds := bytes [104, 97, 110, 100, 115, 104, 97, 107, 101]

section

variable {κ Msg : Type} [DecidableEq κ] (env : ReplicateEnv κ)

/-- The end of a round: a client for the new connection, on the list of replicas. -/
def P2p.linkPeer (s : P2p κ Msg) (k : κ) : P2p κ Msg :=
  ((s.createClient k).setReplica k).addReplica k

/-- The loop of `replicateCommand` with the reply behind it, from round `n` on. -/
def replicateLoop : ℕ → List Sds → P2p κ Msg → Option (P2p κ Msg × List ReplicateReply)
  | _, [], s => some (s, [.ok])
  | _, [_], _ => none
  | n, ip :: text :: rest, s =>
    let (port, errors) := getLongFromObjectOrReply (env.port n) text .invalidPort
    match env.connect n (sdsnew ip) port.toInt32 with
    | .refused => some (s, errors ++ [.connecting])
    | .unwatched => none
    | .connected k =>
      (replicateLoop (n + 1) rest (s.linkPeer k)).map fun p => (p.1, errors ++ p.2)

/-- `replicateCommand`, sent by client `c`. -/
def replicateCommand (c : κ) (a₁ a₂ : Sds) (rest : List Sds) (s : P2p κ Msg) :
    Option (P2p κ Msg × List ReplicateReply) :=
  if env.clusterEnabled then some (s, [.clusterMode])
  else if EqNoCase a₁ replicaText ∧ EqNoCase a₂ handshakeText then
    some ((s.setReplica c).addReplica c, [])
  else
    let (size, errors₁) := getLongFromObjectOrReply env.size a₁ .invalidSize
    let (id, errors₂) := getLongFromObjectOrReply env.id a₂ .invalidId
    (replicateLoop env 0 rest
      { s with p2pCount := size.toInt32.toInt, p2pId := id.toInt32.toInt }).map fun p =>
        (p.1, errors₁ ++ errors₂ ++ p.2)

/-- The command behind the test of its arity in `processCommand`. -/
def processReplicate (c : κ) (args : List Sds) (s : P2p κ Msg) :
    Option (P2p κ Msg × List ReplicateReply) :=
  match args with
  | a₁ :: a₂ :: rest => replicateCommand env c a₁ a₂ rest s
  | _ => some (s, [.wrongArity])

end

/-! ### Atomicity -/

/-- The addresses, if all of them have a port that parses. -/
def parseAddresses : List Sds → Option (List (Sds × Int64))
  | [] => some []
  | [_] => none
  | ip :: text :: rest =>
    (string2ll text).bind fun port => (parseAddresses rest).map ((ip, port) :: ·)

section

variable {κ Msg : Type} (env : ReplicateEnv κ)

/-- The clients for all addresses, if all of them can be connected to. -/
def connectAll : ℕ → List (Sds × Int64) → Option (List κ)
  | _, [] => some []
  | n, (ip, port) :: peers =>
    match env.connect n (sdsnew ip) port.toInt32 with
    | .connected k => (connectAll (n + 1) peers).map (k :: ·)
    | _ => none

/-- Everything parses, everything connects, and the server has the configuration and a link for
every address. -/
def Replicates : List Sds → P2p κ Msg → P2p κ Msg → Prop
  | a₁ :: a₂ :: rest, s, s' =>
    ∃ size id peers ks, string2ll a₁ = some size ∧ string2ll a₂ = some id ∧
      parseAddresses rest = some peers ∧ connectAll env 0 peers = some ks ∧
      s'.p2pCount = size.toInt ∧ s'.p2pId = id.toInt ∧ s'.replicas = s.replicas ++ ks
  | _, _, _ => False

/-- All of it and `OK`, or one error and nothing. -/
def Atomic (args : List Sds) (s : P2p κ Msg)
    (out : Option (P2p κ Msg × List ReplicateReply)) : Prop :=
  ∃ s' replies, out = some (s', replies) ∧
    (Replicates env args s s' ∧ replies = [.ok] ∨
      (∃ e, e ≠ .ok ∧ replies = [e]) ∧ s'.p2pCount = s.p2pCount ∧ s'.p2pId = s.p2pId ∧
        s'.replicas = s.replicas)

/-- The form with which a peer introduces itself. -/
def IsHandshake : List Sds → Prop
  | a₁ :: a₂ :: _ => EqNoCase a₁ replicaText ∧ EqNoCase a₂ handshakeText
  | _ => False

instance decidableIsHandshake : (args : List Sds) → Decidable (IsHandshake args)
  | a₁ :: a₂ :: _ =>
    inferInstanceAs (Decidable (EqNoCase a₁ replicaText ∧ EqNoCase a₂ handshakeText))
  | [] => isFalse id
  | [_] => isFalse id

/-- Round `n` is made with a port that parses, and is refused. -/
def FirstRefused (n : ℕ) : List Sds → Prop
  | ip :: text :: _ => ∃ port, string2ll text = some port ∧
      env.connect n (sdsnew ip) port.toInt32 = .refused
  | _ => False

/-- The value fits into an `int`. -/
def FitsInt (v : Int64) : Prop := v.toInt32.toInt = v.toInt

/-- Nothing of the command is left half done: it is not executed at all, or its numbers parse, and
either they fit and everything connects, or they are the ones the server has and the first attempt
is refused. -/
def ReplicateWhole : List Sds → P2p κ Msg → Prop
  | a₁ :: a₂ :: rest, s =>
    env.clusterEnabled = true ∨
      ∃ size id, string2ll a₁ = some size ∧ string2ll a₂ = some id ∧
        (FitsInt size ∧ FitsInt id ∧ ((parseAddresses rest).bind (connectAll env 0)).isSome ∨
          size.toInt32.toInt = s.p2pCount ∧ id.toInt32.toInt = s.p2pId ∧ FirstRefused env 0 rest)
  | _, _ => True

end

/-! ### The loop -/

section

variable {κ Msg : Type} [DecidableEq κ] {env : ReplicateEnv κ} {n : ℕ} {rest : List Sds}
  {s s' : P2p κ Msg} {replies : List ReplicateReply} {ks : List κ}

/-- Several rounds. -/
def P2p.linkPeers (s : P2p κ Msg) (ks : List κ) : P2p κ Msg := ks.foldl P2p.linkPeer s

@[simp] theorem P2p.replicas_linkPeers : (s.linkPeers ks).replicas = s.replicas ++ ks := by
  induction ks generalizing s with
  | nil => exact (List.append_nil _).symm
  | cons k ks ih =>
    rw [P2p.linkPeers, List.foldl_cons, ← P2p.linkPeers, ih]
    exact List.append_assoc s.replicas [k] ks

@[simp] theorem P2p.p2pCount_linkPeers : (s.linkPeers ks).p2pCount = s.p2pCount := by
  induction ks generalizing s with
  | nil => rfl
  | cons k ks ih => exact ih

@[simp] theorem P2p.p2pId_linkPeers : (s.linkPeers ks).p2pId = s.p2pId := by
  induction ks generalizing s with
  | nil => rfl
  | cons k ks ih => exact ih

theorem getLongFromObjectOrReply_of_some {old v : Int64} {text : Sds} {msg : ReplicateReply}
    (h : string2ll text = some v) : getLongFromObjectOrReply old text msg = (v, []) := by
  rw [getLongFromObjectOrReply, h]

theorem getLongFromObjectOrReply_cases {old v : Int64} {text : Sds} {msg : ReplicateReply}
    {errors : List ReplicateReply} (h : getLongFromObjectOrReply old text msg = (v, errors)) :
    string2ll text = some v ∧ errors = [] ∨ errors = [msg] := by
  rw [getLongFromObjectOrReply] at h
  cases hparse : string2ll text with
  | none =>
    rw [hparse] at h
    exact .inr (Prod.mk.inj h).2.symm
  | some value =>
    rw [hparse] at h
    obtain ⟨rfl, rfl⟩ := Prod.mk.inj h
    exact .inl ⟨rfl, rfl⟩

/-- How the loop can end: with all links and `OK`, at the first attempt with nothing done, or with
more than that to show, be it replies or links. -/
theorem replicateLoop_cases (h : replicateLoop env n rest s = some (s', replies)) :
    (∃ peers ks, parseAddresses rest = some peers ∧ connectAll env n peers = some ks ∧
        s' = s.linkPeers ks ∧ replies = [.ok]) ∨
      FirstRefused env n rest ∧ s' = s ∧ replies = [.connecting] ∨
      2 ≤ replies.length ∨ ∃ ks, ks ≠ [] ∧ s' = s.linkPeers ks ∧ replies = [.connecting] := by
  induction n, rest, s using replicateLoop.induct env generalizing s' replies with
  | case1 n s =>
    obtain ⟨rfl, rfl⟩ := Prod.mk.inj (Option.some.inj h)
    exact .inl ⟨[], [], rfl, rfl, rfl, rfl⟩
  | case2 n ip s => cases h
  | case3 n ip text rest s port errors hget hconn =>
    simp only [replicateLoop, hget, hconn] at h
    obtain ⟨rfl, rfl⟩ := Prod.mk.inj (Option.some.inj h)
    rcases getLongFromObjectOrReply_cases hget with ⟨hparse, rfl⟩ | rfl
    · exact .inr (.inl ⟨⟨port, hparse, hconn⟩, rfl, rfl⟩)
    · exact .inr (.inr (.inl (by simp)))
  | case4 n ip text rest s port errors hget hconn =>
    simp only [replicateLoop, hget, hconn] at h
    cases h
  | case5 n ip text rest s port errors hget k hconn ih =>
    simp only [replicateLoop, hget, hconn] at h
    obtain ⟨⟨s₁, replies₁⟩, hrest, heq⟩ := Option.map_eq_some_iff.mp h
    obtain ⟨rfl, rfl⟩ := Prod.mk.inj heq
    have ih := ih hrest
    rcases getLongFromObjectOrReply_cases hget with ⟨hparse, rfl⟩ | rfl
    · obtain ⟨peers, ks, hpeers, hks, hs, hok⟩ | ⟨-, hs, hrefused⟩ | hlen | ⟨ks, -, hs, hrefused⟩ :=
        ih
      · refine .inl ⟨(ip, port) :: peers, k :: ks, ?_, ?_, hs, hok⟩
        · rw [parseAddresses, hparse, Option.bind_some, hpeers, Option.map_some]
        · simp only [connectAll, hconn, hks, Option.map_some]
      · exact .inr (.inr (.inr ⟨[k], List.cons_ne_nil k [], hs, hrefused⟩))
      · exact .inr (.inr (.inl hlen))
      · exact .inr (.inr (.inr ⟨k :: ks, List.cons_ne_nil k ks, hs, hrefused⟩))
    · -- the error about the port comes on top of what the rest of the loop replies
      have hpos : 1 ≤ replies₁.length := by
        obtain ⟨_, _, -, -, -, rfl⟩ | ⟨-, -, rfl⟩ | hlen | ⟨_, -, -, rfl⟩ := ih
        · exact le_rfl
        · exact le_rfl
        · omega
        · exact le_rfl
      refine .inr (.inr (.inl ?_))
      show 2 ≤ replies₁.length + 1
      omega

theorem length_pos_of_replicateLoop (h : replicateLoop env n rest s = some (s', replies)) :
    0 < replies.length := by
  obtain ⟨_, _, -, -, -, rfl⟩ | ⟨-, -, rfl⟩ | hlen | ⟨_, -, -, rfl⟩ := replicateLoop_cases h
  · exact Nat.one_pos
  · exact Nat.one_pos
  · omega
  · exact Nat.one_pos

theorem replicateLoop_of_connectAll {peers : List (Sds × Int64)}
    (hpeers : parseAddresses rest = some peers) (hks : connectAll env n peers = some ks) :
    replicateLoop env n rest s = some (s.linkPeers ks, [.ok]) := by
  induction rest using parseAddresses.induct generalizing n s peers ks with
  | case1 =>
    cases hpeers
    cases hks
    rfl
  | case2 ip => cases hpeers
  | case3 ip text rest ih =>
    obtain ⟨port, hparse, hpeers⟩ := Option.bind_eq_some_iff.mp hpeers
    obtain ⟨peers, hrest, rfl⟩ := Option.map_eq_some_iff.mp hpeers
    rw [connectAll] at hks
    cases hconn : env.connect n (sdsnew ip) port.toInt32 with
    | refused =>
      rw [hconn] at hks
      cases hks
    | unwatched =>
      rw [hconn] at hks
      cases hks
    | connected k =>
      rw [hconn] at hks
      obtain ⟨ks, hrestks, rfl⟩ := Option.map_eq_some_iff.mp hks
      rw [replicateLoop, getLongFromObjectOrReply_of_some hparse]
      simp only [hconn, ih hrest hrestks]
      rfl

theorem replicateLoop_of_firstRefused (h : FirstRefused env n rest) :
    replicateLoop env n rest s = some (s, [.connecting]) := by
  rcases rest with _ | ⟨ip, _ | ⟨text, rest⟩⟩
  · cases h
  · cases h
  · obtain ⟨port, hparse, hconn⟩ := h
    rw [replicateLoop, getLongFromObjectOrReply_of_some hparse]
    simp only [hconn, List.nil_append]

/-! ### The command as a whole -/

/-- The links that the rounds from `n` on ask for, up to the first that fails. -/
def attemptedLinks (env : ReplicateEnv κ) : ℕ → List Sds → List (Option κ)
  | n, ip :: text :: rest =>
    let port := (getLongFromObjectOrReply (env.port n) text .invalidPort).1
    match env.connect n (sdsnew ip) port.toInt32 with
    | .connected k => some k :: attemptedLinks env (n + 1) rest
    | _ => [none]
  | _, _ => []

/-- The state after the loop is the one of `P2p.connectPeers`, which knows links only. -/
theorem state_replicateLoop (h : replicateLoop env n rest s = some (s', replies))
    {s₁ : P2p κ Msg} (hs₁ : s.connectPeers (attemptedLinks env n rest) = some s₁) : s₁ = s' := by
  induction n, rest, s using replicateLoop.induct env generalizing s' replies with
  | case1 n s =>
    obtain ⟨rfl, rfl⟩ := Prod.mk.inj (Option.some.inj h)
    exact (Option.some.inj hs₁).symm
  | case2 n ip s => cases h
  | case3 n ip text rest s port errors hget hconn =>
    simp only [replicateLoop, hget, hconn] at h
    simp only [attemptedLinks, hget, hconn] at hs₁
    obtain ⟨rfl, rfl⟩ := Prod.mk.inj (Option.some.inj h)
    exact (Option.some.inj hs₁).symm
  | case4 n ip text rest s port errors hget hconn =>
    simp only [replicateLoop, hget, hconn] at h
    cases h
  | case5 n ip text rest s port errors hget k hconn ih =>
    simp only [replicateLoop, hget, hconn] at h
    simp only [attemptedLinks, hget, hconn, P2p.connectPeers] at hs₁
    obtain ⟨⟨s₂, replies₂⟩, hrest, heq⟩ := Option.map_eq_some_iff.mp h
    obtain ⟨rfl, -⟩ := Prod.mk.inj heq
    split at hs₁
    · cases hs₁
    · exact ih hrest hs₁

variable {args : List Sds}

theorem processReplicate_eq {c : κ} {a₁ a₂ : Sds} (hcluster : ¬ env.clusterEnabled = true)
    (hform : ¬ IsHandshake (a₁ :: a₂ :: rest)) {size id : Int64}
    {errors₁ errors₂ : List ReplicateReply}
    (hsize : getLongFromObjectOrReply env.size a₁ .invalidSize = (size, errors₁))
    (hid : getLongFromObjectOrReply env.id a₂ .invalidId = (id, errors₂)) :
    processReplicate env c (a₁ :: a₂ :: rest) s =
      (replicateLoop env 0 rest
        { s with p2pCount := size.toInt32.toInt, p2pId := id.toInt32.toInt }).map fun p =>
          (p.1, errors₁ ++ errors₂ ++ p.2) := by
  have hform : ¬ (EqNoCase a₁ replicaText ∧ EqNoCase a₂ handshakeText) := hform
  rw [processReplicate, replicateCommand, if_neg hcluster, if_neg hform, hsize, hid]

omit [DecidableEq κ] in
theorem atomic_of_error {out : Option (P2p κ Msg × List ReplicateReply)} {e : ReplicateReply}
    (h : out = some (s, [e])) (he : e ≠ .ok) : Atomic env args s out :=
  ⟨s, [e], h, .inr ⟨⟨e, he, rfl⟩, rfl, rfl, rfl⟩⟩

theorem parse_of_length_eq_one {old₁ old₂ size id : Int64} {a₁ a₂ : Sds}
    {errors₁ errors₂ : List ReplicateReply}
    (hsize : getLongFromObjectOrReply old₁ a₁ .invalidSize = (size, errors₁))
    (hid : getLongFromObjectOrReply old₂ a₂ .invalidId = (id, errors₂))
    (hpos : 0 < replies.length) (hlen : (errors₁ ++ errors₂ ++ replies).length = 1) :
    string2ll a₁ = some size ∧ string2ll a₂ = some id ∧ errors₁ = [] ∧ errors₂ = [] := by
  rw [List.length_append, List.length_append] at hlen
  rcases getLongFromObjectOrReply_cases hsize with ⟨h₁, rfl⟩ | rfl
  · rcases getLongFromObjectOrReply_cases hid with ⟨h₂, rfl⟩ | rfl
    · exact ⟨h₁, h₂, rfl, rfl⟩
    · simp only [List.length_nil, List.length_singleton] at hlen
      omega
  · rw [List.length_singleton] at hlen
    omega

section

variable {c : κ} {a₁ a₂ : Sds} (hcluster : ¬ env.clusterEnabled = true)
  (hform : ¬ IsHandshake (a₁ :: a₂ :: rest))

include hcluster hform

theorem replicateWhole_of_atomic
    (h : Atomic env (a₁ :: a₂ :: rest) s (processReplicate env c (a₁ :: a₂ :: rest) s)) :
    ReplicateWhole env (a₁ :: a₂ :: rest) s := by
  rcases hsize : getLongFromObjectOrReply env.size a₁ .invalidSize with ⟨size, errors₁⟩
  rcases hid : getLongFromObjectOrReply env.id a₂ .invalidId with ⟨id, errors₂⟩
  rw [processReplicate_eq hcluster hform hsize hid] at h
  obtain ⟨s', replies, hout, hatomic⟩ := h
  obtain ⟨⟨s₁, replies₁⟩, hloop, heq⟩ := Option.map_eq_some_iff.mp hout
  obtain ⟨rfl, rfl⟩ := Prod.mk.inj heq
  have hlen : (errors₁ ++ errors₂ ++ replies₁).length = 1 := by
    rcases hatomic with ⟨-, hok⟩ | ⟨⟨e, -, herr⟩, -⟩
    · exact congrArg List.length hok
    · exact congrArg List.length herr
  obtain ⟨h₁, h₂, rfl, rfl⟩ :=
    parse_of_length_eq_one hsize hid (length_pos_of_replicateLoop hloop) hlen
  refine .inr ⟨size, id, h₁, h₂, ?_⟩
  obtain ⟨peers, ks, hpeers, hks, rfl, rfl⟩ | ⟨hfirst, rfl, rfl⟩ | htwo | ⟨ks, hks, rfl, rfl⟩ :=
    replicateLoop_cases hloop
  · rcases hatomic with
      ⟨⟨size', id', _, _, h₁', h₂', -, -, hcount, hid', -⟩, -⟩ | ⟨⟨e, he, herr⟩, -⟩
    · obtain rfl := Option.some.inj (h₁.symm.trans h₁')
      obtain rfl := Option.some.inj (h₂.symm.trans h₂')
      rw [P2p.p2pCount_linkPeers] at hcount
      rw [P2p.p2pId_linkPeers] at hid'
      refine .inl ⟨hcount, hid', ?_⟩
      rw [hpeers, Option.bind_some, hks]
      rfl
    · exact absurd (List.cons.inj herr).1.symm he
  · rcases hatomic with ⟨-, hok⟩ | ⟨-, hcount, hid', -⟩
    · cases hok
    · exact .inr ⟨hcount, hid', hfirst⟩
  · rw [List.nil_append, List.nil_append] at hlen
    omega
  · rcases hatomic with ⟨-, hok⟩ | ⟨-, -, -, hreplicas⟩
    · cases hok
    · rw [P2p.replicas_linkPeers] at hreplicas
      exact absurd (List.append_right_eq_self.mp hreplicas) hks

theorem atomic_of_replicateWhole (h : ReplicateWhole env (a₁ :: a₂ :: rest) s) :
    Atomic env (a₁ :: a₂ :: rest) s (processReplicate env c (a₁ :: a₂ :: rest) s) := by
  obtain hc | ⟨size, id, h₁, h₂, h⟩ := h
  · exact absurd hc hcluster
  rw [processReplicate_eq hcluster hform (getLongFromObjectOrReply_of_some h₁)
    (getLongFromObjectOrReply_of_some h₂)]
  rcases h with ⟨hfit₁, hfit₂, hall⟩ | ⟨hcount, hid, hfirst⟩
  · obtain ⟨ks, hks⟩ := Option.isSome_iff_exists.mp hall
    obtain ⟨peers, hpeers, hks⟩ := Option.bind_eq_some_iff.mp hks
    rw [replicateLoop_of_connectAll hpeers hks]
    refine ⟨_, _, rfl, .inl ⟨⟨_, _, peers, ks, h₁, h₂, hpeers, hks, ?_, ?_, ?_⟩, rfl⟩⟩
    · rw [P2p.p2pCount_linkPeers]
      exact hfit₁
    · rw [P2p.p2pId_linkPeers]
      exact hfit₂
    · rw [P2p.replicas_linkPeers]
  · rw [replicateLoop_of_firstRefused hfirst]
    exact ⟨_, _, rfl, .inr ⟨⟨.connecting, by decide, rfl⟩, hcount, hid, rfl⟩⟩

end

/-- **When `REPLICATE` is atomic.** It leaves either all of what it was asked for and one `OK`, or
one error and the server as it was, exactly if the server is in cluster mode or arguments are
missing, or its numbers parse, and either they fit into an `int` and every port parses and every
connection is made, or they are the ones the server has and the first connection is refused. -/
theorem replicate_atomic_iff (env : ReplicateEnv κ) (c : κ) (args : List Sds) (s : P2p κ Msg)
    (hform : ¬ IsHandshake args) :
    Atomic env args s (processReplicate env c args s) ↔ ReplicateWhole env args s := by
  rcases args with _ | ⟨a₁, _ | ⟨a₂, rest⟩⟩
  · exact iff_of_true (atomic_of_error rfl (by decide)) trivial
  · exact iff_of_true (atomic_of_error rfl (by decide)) trivial
  · by_cases hcluster : env.clusterEnabled = true
    · refine iff_of_true (atomic_of_error ?_ (e := .clusterMode) (by decide)) (.inl hcluster)
      rw [processReplicate, replicateCommand, if_pos hcluster]
    · exact ⟨replicateWhole_of_atomic hcluster hform, atomic_of_replicateWhole hcluster hform⟩

end

/-- The first connection of a command is made and the second is refused. -/
def secondRefused : ReplicateEnv ℕ where
  clusterEnabled := false
  size := 0
  id := 0
  port _ := 0
  connect n _ _ := if n = 0 then .connected 7 else .refused

/-- `REPLICATE 2 0 h 1` to a server that is started: one connection, and it is made. -/
theorem replicate_atomic_one_peer :
    Atomic secondRefused [[50], [48], [104], [49]] (P2p.start : P2p ℕ Unit)
      (processReplicate secondRefused 0 [[50], [48], [104], [49]] P2p.start) := by
  refine (replicate_atomic_iff secondRefused 0 _ _ (by decide)).mpr
    (.inr ⟨2, 0, by decide, by decide, .inl ⟨?_, ?_, ?_⟩⟩)
  · show (2 : Int64).toInt32.toInt = (2 : Int64).toInt
    decide
  · show (0 : Int64).toInt32.toInt = (0 : Int64).toInt
    decide
  · decide

/-- `REPLICATE x 0` answers with an error and with `OK`. `REPLICATE 3 0 h 1 h 1` answers with one
error, and one link is left. -/
theorem replicate_not_atomic :
    ¬ Atomic secondRefused [[120], [48]] (P2p.start : P2p ℕ Unit)
      (processReplicate secondRefused 0 [[120], [48]] P2p.start) ∧
    ¬ Atomic secondRefused [[51], [48], [104], [49], [104], [49]] (P2p.start : P2p ℕ Unit)
      (processReplicate secondRefused 0 [[51], [48], [104], [49], [104], [49]] P2p.start) := by
  constructor
  · rintro ⟨s', replies, hout, hatomic⟩
    obtain rfl : [.invalidSize, .ok] = replies := congrArg Prod.snd (Option.some.inj hout)
    rcases hatomic with ⟨-, hok⟩ | ⟨⟨e, -, herr⟩, -⟩
    · cases hok
    · cases herr
  · rintro ⟨s', replies, hout, hatomic⟩
    obtain rfl : [.connecting] = replies := congrArg Prod.snd (Option.some.inj hout)
    have hlinks : [7] = s'.replicas := congrArg (fun p => p.1.replicas) (Option.some.inj hout)
    rcases hatomic with ⟨-, hok⟩ | ⟨-, -, -, hreplicas⟩
    · cases hok
    · rw [← hlinks] at hreplicas
      cases hreplicas

end RemoveWin
