import RemoveWin.Peers.Model

/-!
# Which links are on the list

`freeClient` takes a client off every list it may be on but that of the replicas, and nothing keeps
a client from putting itself on that list again. So the list holds live clients, each once, as long
as no client on it is freed and none on it joins again, and not for a moment longer.

## Main results

* `RemoveWin.P2p.replicationBroadcast_spec` — what a broadcast does
* `RemoveWin.P2p.live_step_iff` — one act
* `RemoveWin.P2p.replicas_live_iff` — whole runs
-/

namespace RemoveWin

open Trace

namespace P2p

variable {κ Msg : Type} [DecidableEq κ]

/-! ### What a broadcast writes -/

section

variable (s : P2p κ Msg) (l : List κ) (ws : List (Wire Msg)) (x : ℕ × Msg)

/-- The first loop of a broadcast. A client that is on the list twice is written to twice. -/
theorem foldl_send : ∃ wire, l.foldl (fun s k => s.send k ws) s = { s with wire := wire } ∧
    ∀ k, wire k = s.wire k ++ (List.replicate (l.count k) ws).flatten := by
  induction l generalizing s with
  | nil => exact ⟨s.wire, rfl, by simp⟩
  | cons j l ih =>
    obtain ⟨wire, heq, hwire⟩ := ih (s.send j ws)
    refine ⟨wire, heq, fun k => ?_⟩
    rw [hwire]
    by_cases h : j = k
    · subst h
      simp [send, List.replicate_succ]
    · simp [send, h, Function.update_of_ne (Ne.symm h)]

theorem foldl_send_owe : ∃ wire due,
    l.foldl (fun s k => (s.send k ws).owe k x) s = { s with wire := wire, due := due } ∧
      ∀ k, wire k = s.wire k ++ (List.replicate (l.count k) ws).flatten ∧
        due k = s.due k ++ List.replicate (l.count k) x := by
  induction l generalizing s with
  | nil => exact ⟨s.wire, s.due, rfl, by simp⟩
  | cons j l ih =>
    obtain ⟨wire, due, heq, hboth⟩ := ih ((s.send j ws).owe j x)
    refine ⟨wire, due, heq, fun k => ?_⟩
    rw [(hboth k).1, (hboth k).2]
    by_cases h : j = k
    · subst h
      simp [send, owe, List.replicate_succ]
    · simp [send, owe, h, Function.update_of_ne (Ne.symm h)]

end

/-- What a broadcast writes to a client that is on the list `n` times. -/
def frames (s : P2p κ Msg) (dictid : ℕ) (m : Msg) (n : ℕ) : List (Wire Msg) :=
  if s.p2pSeldb ≠ dictid then
    (List.replicate n [.multi, .select dictid]).flatten ++
      (List.replicate n [.cmd m, .exec]).flatten
  else (List.replicate n [.cmd m]).flatten

/-- **What a broadcast does.** -/
theorem replicationBroadcast_spec (s : P2p κ Msg) (dictid : ℕ) (m : Msg) :
    ∃ seldb wire due,
      s.replicationBroadcast dictid m =
          { s with p2pSeldb := seldb, wire := wire, due := due } ∧
        (seldb = if s.replicas.length = 0 then s.p2pSeldb else dictid) ∧
        ∀ k, wire k = s.wire k ++ s.frames dictid m (s.replicas.count k) ∧
          due k = s.due k ++ List.replicate (s.replicas.count k) (dictid, m) := by
  rw [replicationBroadcast]
  split
  · next hnil =>
    refine ⟨s.p2pSeldb, s.wire, s.due, rfl, rfl, fun k => ?_⟩
    simp [List.eq_nil_of_length_eq_zero hnil, frames]
  · split
    · next hsel =>
      obtain ⟨w₁, h₁, hw₁⟩ := s.foldl_send s.replicas [.multi, .select dictid]
      rw [h₁]
      obtain ⟨w₂, d₂, h₂, hboth⟩ := foldl_send_owe { s with wire := w₁, p2pSeldb := dictid }
        s.replicas [.cmd m, .exec] (dictid, m)
      refine ⟨dictid, w₂, d₂, h₂, rfl, fun k => ⟨?_, (hboth k).2⟩⟩
      rw [(hboth k).1, frames, if_pos hsel, ← List.append_assoc, ← hw₁ k]
    · next hsel =>
      obtain ⟨w₂, d₂, h₂, hboth⟩ := foldl_send_owe { s with p2pSeldb := dictid } s.replicas
        [.cmd m] (dictid, m)
      refine ⟨dictid, w₂, d₂, h₂, rfl, fun k => ⟨?_, (hboth k).2⟩⟩
      rw [(hboth k).1, frames, if_neg hsel]

/-! ### Live links -/

/-- The list of replicas holds live clients, each once. -/
structure Live (s : P2p κ Msg) : Prop where
  /-- No client is listed twice. -/
  nodup : s.replicas.Nodup
  live : ∀ k ∈ s.replicas, (s.clients k).isSome

/-- Connections that are on the list are not closed, and do not put themselves on it again. -/
def Careful (s : P2p κ Msg) : P2pAct κ Msg → Prop
  | .close k => k ∉ s.replicas
  | .request k .handshake => k ∉ s.replicas
  | .request k (.repltest .none) => k ∉ s.replicas
  | _ => True

theorem isSome_modifyClient (s : P2p κ Msg) (k j : κ) (f : PeerClient → PeerClient) :
    ((s.modifyClient k f).clients j).isSome = (s.clients j).isSome := by
  by_cases h : j = k
  · subst h
    simp [modifyClient]
  · simp [modifyClient, Function.update_of_ne h]

omit [DecidableEq κ] in
theorem Live.congr {s s' : P2p κ Msg} (h : Live s) (hr : s'.replicas = s.replicas)
    (hc : ∀ k, (s'.clients k).isSome = (s.clients k).isSome) : Live s' :=
  ⟨hr ▸ h.nodup, fun k hk => (hc k).trans (h.live k (hr ▸ hk))⟩

theorem Live.createClient {s : P2p κ Msg} (h : Live s) (k : κ) : Live (s.createClient k) := by
  refine ⟨h.nodup, fun j hj => ?_⟩
  by_cases hjk : j = k
  · subst hjk
    simp [P2p.createClient]
  · simpa [P2p.createClient, Function.update_of_ne hjk] using h.live j hj

omit [DecidableEq κ] in
theorem live_addReplica_iff {s : P2p κ Msg} (h : Live s) {k : κ} (hk : (s.clients k).isSome) :
    Live (s.addReplica k) ↔ k ∉ s.replicas := by
  constructor
  · intro h' hmem
    have hnodup : (s.replicas ++ [k]).Nodup := h'.nodup
    exact (List.nodup_append.mp hnodup).2.2 k hmem k (by simp) rfl
  · intro hno
    refine ⟨?_, fun j hj => ?_⟩
    · refine List.nodup_append.mpr ⟨h.nodup, by simp, ?_⟩
      rintro a ha b hb rfl
      exact hno (List.mem_singleton.mp hb ▸ ha)
    · rcases List.mem_append.mp hj with hj | hj
      · exact h.live j hj
      · exact (List.mem_singleton.mp hj).symm ▸ hk

theorem live_freeClient_iff {s : P2p κ Msg} (h : Live s) (k : κ) :
    Live (s.freeClient k) ↔ k ∉ s.replicas := by
  constructor
  · intro h' hmem
    simpa [freeClient] using h'.live k hmem
  · intro hno
    refine ⟨h.nodup, fun j hj => ?_⟩
    have hjk : j ≠ k := fun hjk => hno (hjk ▸ hj)
    simpa [freeClient, Function.update_of_ne hjk] using h.live j hj

/-- The connections of `REPLICATE` are new, so they are not on the list. -/
theorem Live.connectPeers {s s' : P2p κ Msg} {peers : List (Option κ)} (h : Live s)
    (hc : s.connectPeers peers = some s') : Live s' := by
  induction peers generalizing s with
  | nil => exact Option.some.inj hc ▸ h
  | cons o peers ih =>
    cases o with
    | none => exact Option.some.inj hc ▸ h
    | some k =>
      rw [P2p.connectPeers] at hc
      split at hc
      · cases hc
      · next hdead =>
        refine ih ?_ hc
        have hno : k ∉ s.replicas := fun hk => hdead (h.live k hk)
        have hlive : Live ((s.createClient k).setReplica k) :=
          (h.createClient k).congr rfl (isSome_modifyClient _ _ · _)
        refine (live_addReplica_iff hlive ?_).mpr hno
        rw [setReplica, isSome_modifyClient]
        simp [P2p.createClient]

/-- **One act keeps the links live exactly if it is careful.** -/
theorem live_step_iff {dbnum : ℕ} {s s' : P2p κ Msg} {a : P2pAct κ Msg} (h : Live s)
    (hs : s.step dbnum a = some s') : Live s' ↔ s.Careful a := by
  cases a with
  | connect k =>
    rw [step] at hs
    split at hs
    · cases hs
    · exact iff_of_true (Option.some.inj hs ▸ h.createClient k) trivial
  | close k =>
    rw [step] at hs
    split at hs
    · cases hs
      exact live_freeClient_iff h k
    · cases hs
  | request k cmd =>
    rw [step] at hs
    split at hs
    · cases hs
    · next c hk =>
      have hlive : (s.clients k).isSome := by simp [hk]
      have hflag : Live (s.setReplica k) := h.congr rfl fun j => isSome_modifyClient s k j _
      have hjoin : Live ((s.setReplica k).addReplica k) ↔ k ∉ s.replicas :=
        live_addReplica_iff hflag ((isSome_modifyClient ..).trans hlive)
      cases cmd with
      | select id =>
        cases hs
        refine iff_of_true ?_ trivial
        rw [selectCommand]
        split
        · exact h
        · exact h.congr rfl fun j => isSome_modifyClient s k j _
      | repltest args =>
        cases hs
        cases args with
        | none => exact hjoin
        | config size id => exact iff_of_true (hflag.congr rfl fun _ => rfl) trivial
        | other => exact iff_of_true hflag trivial
      | handshake =>
        cases hs
        exact hjoin
      | replicate size id peers =>
        have h₁ : Live { s with p2pCount := size, p2pId := id } := h.congr rfl fun _ => rfl
        exact iff_of_true (h₁.connectPeers hs) trivial
      | update m =>
        refine iff_of_true ?_ trivial
        cases m with
        | none => exact Option.some.inj hs ▸ h
        | some m =>
          cases hs
          split
          · obtain ⟨seldb, wire, due, heq, -⟩ := s.replicationBroadcast_spec c.db m
            rw [heq]
            exact h.congr rfl fun _ => rfl
          · exact h

theorem Live.wire_broadcast {s : P2p κ Msg} (h : Live s) (dictid : ℕ) (m : Msg) (k : κ) :
    (s.replicationBroadcast dictid m).wire k =
      s.wire k ++ if k ∈ s.replicas then s.frames dictid m 1 else [] := by
  obtain ⟨seldb, wire, due, heq, -, hwire⟩ := s.replicationBroadcast_spec dictid m
  have hcount := h.nodup.count (a := k)
  rw [heq]
  show wire k = _
  rw [(hwire k).1, hcount]
  split
  · rfl
  · simp [frames]

/-- **When the list of replicas holds live clients, each once**, and so every broadcast is written
to live clients, once to each: throughout a run, exactly if its acts are careful. -/
theorem replicas_live_iff {dbnum : ℕ} {as : List (P2pAct κ Msg)} {s' : P2p κ Msg}
    (hrun : run (step dbnum) start as = some s') :
    Throughout (step dbnum) start (fun s => Live s ∧ ∀ dictid m k,
        (s.replicationBroadcast dictid m).wire k =
          s.wire k ++ if k ∈ s.replicas then s.frames dictid m 1 else []) as ↔
      Every (step dbnum) start Careful as := by
  refine throughout_iff_every ?_ ?_ hrun
  · have hlive : Live (start : P2p κ Msg) := ⟨List.nodup_nil, fun k hk => by cases hk⟩
    exact ⟨hlive, hlive.wire_broadcast⟩
  · intro s a s' hP hs
    rw [← live_step_iff hP.1 hs]
    exact ⟨And.left, fun h => ⟨h, h.wire_broadcast⟩⟩

/-- Two peers, one of which connects and one of which is connected to. -/
theorem replicas_live_two_peers :
    Throughout (step 16) (start : P2p ℕ Unit) (fun s => Live s ∧ ∀ dictid m k,
        (s.replicationBroadcast dictid m).wire k =
          s.wire k ++ if k ∈ s.replicas then s.frames dictid m 1 else [])
      [.connect 0, .connect 1, .request 1 .handshake, .request 0 (.replicate 3 0 [some 2]),
        .request 0 (.update (some ()))] := by
  refine (replicas_live_iff rfl).mpr ?_
  refine .cons trivial fun s₁ h₁ => .cons trivial fun s₂ h₂ => .cons ?_ fun s₃ h₃ =>
    .cons trivial fun s₄ h₄ => .cons trivial fun _ _ => every_nil
  cases h₁
  cases h₂
  show (1 : ℕ) ∉ []
  decide

/-- A peer that has joined disconnects and stays on the list, so the next broadcast is written to a
client that has been freed. A peer that joins twice is on the list twice, and the next broadcast is
written to it twice. -/
theorem replicas_stale :
    (∃ s, run (step 16) (start : P2p ℕ Unit) [.connect 0, .request 0 .handshake, .close 0] =
        some s ∧ 0 ∈ s.replicas ∧ s.clients 0 = none ∧
        (s.replicationBroadcast 0 ()).wire 0 ≠ s.wire 0) ∧
      ∃ s, run (step 16) (start : P2p ℕ Unit)
          [.connect 0, .request 0 .handshake, .request 0 .handshake] = some s ∧
        ¬ s.replicas.Nodup ∧
        (Reader.readAll ((s.replicationBroadcast 0 ()).wire 0)).executed = [(0, ()), (0, ())] :=
  ⟨⟨_, rfl, by decide, rfl, by decide⟩, ⟨_, rfl, by decide, by decide⟩⟩

end P2p

end RemoveWin
