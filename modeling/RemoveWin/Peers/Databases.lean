import RemoveWin.Peers.Links

/-!
# Which database a peer is in

`server.p2p_seldb` is the database of the last broadcast, for all links. A peer that joins is in
database 0 whatever `p2p_seldb` is, and a broadcast in the database of the last one is not preceded
by a `SELECT`. So peers follow the server if they join before the first broadcast or while the last
one was in database 0, and a peer that joins at another time executes what is broadcast next in that
database in database 0.

## Main results

* `RemoveWin.Reader.foldl_read_frames` — what a peer makes of a broadcast
* `RemoveWin.P2p.Follows.step` — one act
* `RemoveWin.P2p.peers_follow` — whole runs
-/

namespace RemoveWin

open Trace

namespace Reader

variable {Msg : Type} (db d n : ℕ) (m : Msg) (ex : List (ℕ × Msg))

theorem foldl_read_select (q : List (Wire Msg)) :
    (List.replicate n [.multi, .select d]).flatten.foldl read (⟨db, some q, ex⟩ : Reader Msg) =
      ⟨db, some (q ++ List.replicate n (.select d)), ex⟩ := by
  induction n generalizing q with
  | zero => simp
  | succ n ih =>
    rw [List.replicate_succ, List.flatten_cons, List.foldl_append]
    show List.foldl read (⟨db, some (q ++ [.select d]), ex⟩ : Reader Msg) _ = _
    rw [ih, List.replicate_succ, List.append_assoc, List.singleton_append]

theorem foldl_execute_select :
    (List.replicate (n + 1) (.select d)).foldl execute (⟨db, none, ex⟩ : Reader Msg) =
      ⟨d, none, ex⟩ := by
  induction n generalizing db with
  | zero => rfl
  | succ n ih =>
    rw [List.replicate_succ, List.foldl_cons]
    exact ih d

theorem foldl_read_replicate (ws : List (Wire Msg))
    (hws : ∀ ex, ws.foldl read (⟨db, none, ex⟩ : Reader Msg) = ⟨db, none, ex ++ [(db, m)]⟩) :
    (List.replicate n ws).flatten.foldl read (⟨db, none, ex⟩ : Reader Msg) =
      ⟨db, none, ex ++ List.replicate n (db, m)⟩ := by
  induction n generalizing ex with
  | zero => simp
  | succ n ih =>
    rw [List.replicate_succ, List.flatten_cons, List.foldl_append, hws, ih, List.replicate_succ,
      List.append_assoc, List.singleton_append]

/-- Messages in a transaction that selects the database first. An `EXEC` that comes again is an
error. -/
theorem foldl_read_transaction :
    ((List.replicate (n + 1) [Wire.multi, .select d]).flatten ++
      (List.replicate (n + 1) [Wire.cmd m, .exec]).flatten).foldl read ⟨db, none, ex⟩ =
      ⟨d, none, ex ++ List.replicate (n + 1) (d, m)⟩ := by
  have hopen : (List.replicate (n + 1) [Wire.multi, .select d]).flatten.foldl read
      (⟨db, none, ex⟩ : Reader Msg) = ⟨db, some (List.replicate (n + 1) (.select d)), ex⟩ := by
    rw [List.replicate_succ, List.flatten_cons, List.foldl_append]
    exact foldl_read_select db d n ex [.select d]
  have hfirst : [Wire.cmd m, .exec].foldl read
      ⟨db, some (List.replicate (n + 1) (.select d)), ex⟩ = ⟨d, none, ex ++ [(d, m)]⟩ := by
    show List.foldl execute ⟨db, none, ex⟩ (List.replicate (n + 1) (.select d) ++ [.cmd m]) = _
    rw [List.foldl_append, foldl_execute_select]
    rfl
  have hrest := foldl_read_replicate d n m (ex ++ [(d, m)]) [.cmd m, .exec] fun _ => rfl
  rw [List.foldl_append, hopen, List.replicate_succ (a := [Wire.cmd m, .exec]), List.flatten_cons,
    List.foldl_append, hfirst, hrest, List.replicate_succ, List.append_assoc,
    List.singleton_append]

end Reader

namespace P2p

variable {κ Msg : Type} [DecidableEq κ]

open Reader

omit [DecidableEq κ] in
/-- What a peer makes of a broadcast: it executes the message once for each time it is on the list,
in the database of the broadcast if that is sent along or the peer was in it already. -/
theorem foldl_read_frames (s : P2p κ Msg) (d n : ℕ) (m : Msg) {r : Reader Msg}
    (hq : r.queue = none) (hdb : s.p2pSeldb = d → n = 0 ∨ r.db = d) :
    (s.frames d m n).foldl read r =
      ⟨if n = 0 then r.db else d, none, r.executed ++ List.replicate n (d, m)⟩ := by
  obtain ⟨db, queue, ex⟩ := r
  obtain rfl : queue = none := hq
  rw [frames]
  split
  · cases n with
    | zero => simp
    | succ n => exact foldl_read_transaction db d n m ex
  · next hsel =>
    rw [foldl_read_replicate db n m ex [.cmd m] fun _ => rfl]
    rcases hdb (not_ne_iff.mp hsel) with rfl | rfl
    · simp
    · simp

/-- **The peers follow the server.** -/
structure Follows (s : P2p κ Msg) : Prop where
  seldb : s.p2pSeldb = -1 ∨ 0 ≤ s.p2pSeldb
  live : ∀ k ∈ s.replicas, (s.clients k).isSome
  outside : ∀ k ∉ s.replicas, s.wire k = [] ∧ s.due k = []
  queue : ∀ k, (readAll (s.wire k)).queue = none
  db : ∀ k ∈ s.replicas, s.p2pSeldb = -1 ∨ (readAll (s.wire k)).db = s.p2pSeldb
  executed : ∀ k, (readAll (s.wire k)).executed = s.due k

/-- Peers join while the database of the last broadcast is 0, if there is one, and stay. -/
def JoinsEarly (s : P2p κ Msg) : P2pAct κ Msg → Prop
  | .close k => k ∉ s.replicas
  | .request k .handshake => k ∈ s.replicas ∨ s.p2pSeldb ≤ 0
  | .request k (.repltest .none) => k ∈ s.replicas ∨ s.p2pSeldb ≤ 0
  | .request _ (.replicate _ _ peers) => (∀ k, peers.head? ≠ some (some k)) ∨ s.p2pSeldb ≤ 0
  | _ => True

omit [DecidableEq κ] in
theorem follows_start : Follows (start : P2p κ Msg) where
  seldb := .inl rfl
  live k hk := by cases hk
  outside _ _ := ⟨rfl, rfl⟩
  queue _ := rfl
  db k hk := by cases hk
  executed _ := rfl

namespace Follows

variable {s s' : P2p κ Msg}

omit [DecidableEq κ] in
theorem congr (h : Follows s) (hsel : s'.p2pSeldb = s.p2pSeldb) (hr : s'.replicas = s.replicas)
    (hw : s'.wire = s.wire) (hd : s'.due = s.due)
    (hc : ∀ k ∈ s.replicas, (s.clients k).isSome → (s'.clients k).isSome) : Follows s' where
  seldb := hsel ▸ h.seldb
  live k hk := hc k (hr ▸ hk) (h.live k (hr ▸ hk))
  outside k hk := by
    rw [hw, hd]
    exact h.outside k (hr ▸ hk)
  queue k := hw ▸ h.queue k
  db k hk := by
    rw [hsel, hw]
    exact h.db k (hr ▸ hk)
  executed k := by
    rw [hw, hd]
    exact h.executed k

theorem modifyClient (h : Follows s) (k : κ) (f : PeerClient → PeerClient) :
    Follows (s.modifyClient k f) :=
  h.congr rfl rfl rfl rfl fun j _ hj => (isSome_modifyClient s k j f).trans hj

theorem createClient (h : Follows s) {k : κ} (hk : ¬ (s.clients k).isSome) :
    Follows (s.createClient k) := by
  have hno : k ∉ s.replicas := fun hmem => hk (h.live k hmem)
  have hwire : (s.createClient k).wire = s.wire := by
    show Function.update s.wire k [] = s.wire
    rw [← (h.outside k hno).1, Function.update_eq_self]
  have hdue : (s.createClient k).due = s.due := by
    show Function.update s.due k [] = s.due
    rw [← (h.outside k hno).2, Function.update_eq_self]
  refine h.congr rfl rfl hwire hdue fun j hj hlive => ?_
  have hjk : j ≠ k := fun hjk => hno (hjk ▸ hj)
  show (Function.update s.clients k _ j).isSome
  rwa [Function.update_of_ne hjk]

theorem addReplica (h : Follows s) {k : κ} (hk : (s.clients k).isSome)
    (hearly : k ∈ s.replicas ∨ s.p2pSeldb ≤ 0) : Follows (s.addReplica k) where
  seldb := h.seldb
  live j hj := by
    rcases List.mem_append.mp hj with hj | hj
    · exact h.live j hj
    · exact (List.mem_singleton.mp hj).symm ▸ hk
  outside j hj := h.outside j fun hmem => hj (List.mem_append_left _ hmem)
  queue := h.queue
  db j hj := by
    by_cases hmem : j ∈ s.replicas
    · exact h.db j hmem
    · -- it has read nothing, so it is in database 0
      have hjk : j = k := by
        rcases List.mem_append.mp hj with hj | hj
        · exact absurd hj hmem
        · exact List.mem_singleton.mp hj
      have hle := hearly.resolve_left (hjk ▸ hmem)
      have hzero : (readAll (s.wire j)).db = 0 := by rw [(h.outside j hmem).1]; rfl
      show s.p2pSeldb = -1 ∨ ((readAll (s.wire j)).db : ℤ) = s.p2pSeldb
      rw [hzero]
      have := h.seldb
      omega
  executed := h.executed

theorem replicationBroadcast (h : Follows s) (d : ℕ) (m : Msg) :
    Follows (s.replicationBroadcast d m) := by
  obtain ⟨seldb, wire, due, heq, hsel, hwire⟩ := s.replicationBroadcast_spec d m
  have hread : ∀ k, readAll (wire k) =
      ⟨if s.replicas.count k = 0 then (readAll (s.wire k)).db else d, none,
        due k⟩ := by
    intro k
    rw [(hwire k).1, (hwire k).2, ← h.executed k, readAll, List.foldl_append]
    refine s.foldl_read_frames d _ m (h.queue k) fun hd => ?_
    by_cases hk : k ∈ s.replicas
    · rcases h.db k hk with hneg | hdb
      · omega
      · exact .inr (by exact_mod_cast hdb.trans hd)
    · exact .inl (List.count_eq_zero.mpr hk)
  rw [heq]
  refine ⟨?_, h.live, fun k hk => ?_, fun k => ?_, fun k hk => ?_, fun k => ?_⟩
  · show seldb = -1 ∨ 0 ≤ seldb
    rw [hsel]
    split
    · exact h.seldb
    · exact .inr (Int.natCast_nonneg d)
  · show wire k = [] ∧ due k = []
    rw [(hwire k).1, (hwire k).2, (h.outside k hk).1, (h.outside k hk).2,
      List.count_eq_zero.mpr hk]
    simp [frames]
  · show (readAll (wire k)).queue = none
    rw [hread]
  · show seldb = -1 ∨ ((readAll (wire k)).db : ℤ) = seldb
    have hlen : s.replicas.length ≠ 0 := (List.length_pos_of_mem hk).ne'
    rw [hread, hsel, if_neg hlen, if_neg (List.count_pos_iff.mpr hk).ne']
    exact .inr rfl
  · show (readAll (wire k)).executed = due k
    rw [hread]

/-- The connections of `REPLICATE`. -/
theorem connectPeers {peers : List (Option κ)} (h : Follows s)
    (hearly : (∀ k, peers.head? ≠ some (some k)) ∨ s.p2pSeldb ≤ 0)
    (hc : s.connectPeers peers = some s') : Follows s' := by
  induction peers generalizing s with
  | nil => exact Option.some.inj hc ▸ h
  | cons o peers ih =>
    cases o with
    | none => exact Option.some.inj hc ▸ h
    | some k =>
      have hle : s.p2pSeldb ≤ 0 := hearly.resolve_left fun hno => hno k rfl
      rw [P2p.connectPeers] at hc
      split at hc
      · cases hc
      · next hdead =>
        have hlive : (((s.createClient k).setReplica k).clients k).isSome :=
          (isSome_modifyClient ..).trans (by simp [P2p.createClient])
        have hnext : Follows (((s.createClient k).setReplica k).addReplica k) :=
          ((h.createClient hdead).modifyClient k _).addReplica hlive (.inr hle)
        exact ih hnext (.inr hle) hc

/-- **One act keeps the peers following if they join early.** -/
theorem step {dbnum : ℕ} {a : P2pAct κ Msg} (h : Follows s) (hearly : s.JoinsEarly a)
    (hs : s.step dbnum a = some s') : Follows s' := by
  cases a with
  | connect k =>
    rw [P2p.step] at hs
    split at hs
    · cases hs
    · next hdead => exact Option.some.inj hs ▸ h.createClient hdead
  | close k =>
    rw [P2p.step] at hs
    split at hs
    · cases hs
      refine h.congr rfl rfl rfl rfl fun j hj hlive => ?_
      have hjk : j ≠ k := fun hjk => hearly (hjk ▸ hj)
      show (Function.update s.clients k none j).isSome
      rwa [Function.update_of_ne hjk]
    · cases hs
  | request k cmd =>
    rw [P2p.step] at hs
    split at hs
    · cases hs
    · next c hk =>
      have hflag : Follows (s.setReplica k) := h.modifyClient k _
      have hlive : ((s.setReplica k).clients k).isSome :=
        (isSome_modifyClient ..).trans (by simp [hk])
      cases cmd with
      | select id =>
        cases hs
        rw [selectCommand]
        split
        · exact h
        · exact h.modifyClient k _
      | repltest args =>
        cases hs
        cases args with
        | none => exact hflag.addReplica hlive hearly
        | config size id => exact hflag.congr rfl rfl rfl rfl fun _ _ hj => hj
        | other => exact hflag
      | handshake =>
        cases hs
        exact hflag.addReplica hlive hearly
      | replicate size id peers =>
        have h₁ : Follows { s with p2pCount := size, p2pId := id } :=
          h.congr rfl rfl rfl rfl fun _ _ hj => hj
        exact h₁.connectPeers hearly hs
      | update m =>
        cases m with
        | none => exact Option.some.inj hs ▸ h
        | some m =>
          cases hs
          split
          · exact h.replicationBroadcast c.db m
          · exact h

/-- A peer that joins late executes the next broadcast in the same database in database 0. -/
theorem late (h : Follows s) {k : κ} (hk : k ∉ s.replicas) {d : ℕ} (hsel : s.p2pSeldb = d)
    (m : Msg) :
    (readAll (((s.addReplica k).replicationBroadcast d m).wire k)).executed = [(0, m)] ∧
      ((s.addReplica k).replicationBroadcast d m).due k = [(d, m)] := by
  obtain ⟨seldb, wire, due, heq, -, hwire⟩ := (s.addReplica k).replicationBroadcast_spec d m
  have hcount : (s.addReplica k).replicas.count k = 1 := by
    show (s.replicas ++ [k]).count k = 1
    rw [List.count_append, List.count_eq_zero.mpr hk, List.count_singleton_self]
  have hw : wire k = [.cmd m] := by
    have hnone : (s.addReplica k).wire k = [] := (h.outside k hk).1
    have hsame : ¬ (s.addReplica k).p2pSeldb ≠ d := not_not.mpr hsel
    rw [(hwire k).1, hcount, hnone, frames, if_neg hsame]
    rfl
  have hd : due k = [(d, m)] := by
    have hnone : (s.addReplica k).due k = [] := (h.outside k hk).2
    rw [(hwire k).2, hcount, hnone]
    rfl
  rw [heq]
  refine ⟨?_, hd⟩
  show (readAll (wire k)).executed = [(0, m)]
  rw [hw]
  rfl

end Follows

/-- **When peers follow.** Throughout a run in which peers join early, every peer has executed what
was broadcast to it in the database it was executed in here. After any such run that ends with a
broadcast outside of database 0, a peer that joins executes the next broadcast in that database in
database 0. -/
theorem peers_follow (dbnum : ℕ) (as : List (P2pAct κ Msg))
    (h : Every (step dbnum) start JoinsEarly as) :
    Throughout (step dbnum) start (fun s => ∀ k, (readAll (s.wire k)).executed = s.due k) as ∧
      ∀ s, run (step dbnum) start as = some s → ∀ k ∉ s.replicas, ∀ d : ℕ, 0 < d →
        s.p2pSeldb = d → ∀ m,
          (readAll (((s.addReplica k).replicationBroadcast d m).wire k)).executed = [(0, m)] ∧
            ((s.addReplica k).replicationBroadcast d m).due k = [(d, m)] := by
  have hall := throughout_of_every follows_start (fun hP hc hs => Follows.step hP hc hs) h
  exact ⟨fun as' s hpre hs => (hall as' s hpre hs).executed, fun s hs k hk d _ hsel m =>
    (hall as s List.prefix_rfl hs).late hk hsel m⟩

/-- A peer joins, the server broadcasts in database 0, and then another peer joins. -/
theorem peers_follow_two_peers :
    Throughout (step 16) (start : P2p ℕ Unit)
      (fun s => ∀ k, (readAll (s.wire k)).executed = s.due k)
      [.connect 0, .connect 1, .request 1 .handshake, .request 0 (.update (some ())), .connect 2,
        .request 2 .handshake, .request 0 (.update (some ()))] := by
  refine (peers_follow 16 _ ?_).1
  refine .cons trivial fun s₁ h₁ => .cons trivial fun s₂ h₂ => .cons (.inr ?_) fun s₃ h₃ =>
    .cons trivial fun s₄ h₄ => .cons trivial fun s₅ h₅ => .cons (.inr ?_) fun s₆ h₆ =>
    .cons trivial fun _ _ => every_nil
  · cases h₁
    cases h₂
    decide
  · cases h₁
    cases h₂
    cases h₃
    cases h₄
    cases h₅
    decide

/-- A peer joins, a client selects database 1 and issues an update, another peer joins, and the
client issues another update. The second peer executes it in database 0. -/
theorem peers_lost :
    ∃ s, run (step 16) (start : P2p ℕ Unit)
        [.connect 0, .connect 1, .request 1 .handshake, .request 0 (.select 1),
          .request 0 (.update (some ())), .connect 2, .request 2 .handshake,
          .request 0 (.update (some ()))] = some s ∧
      s.due 2 = [(1, ())] ∧ (readAll (s.wire 2)).executed = [(0, ())] :=
  ⟨_, rfl, by decide, by decide⟩

end P2p

end RemoveWin
