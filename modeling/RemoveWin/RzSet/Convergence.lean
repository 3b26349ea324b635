import RemoveWin.RzSet.Model

/-!
# Convergence of the remove-win priority queue

What a replica keeps for an element is determined by the set of messages about it that it has
applied, in whatever order they came. The header is the join register it is in every remove-win
container. The score follows it: whenever a clock moves the header on, both parts are cleared,
and nothing applied before can be stamped with the new clock; whatever is stamped with exactly
the present clock has been counted.

An increment is only issued where the element exists, so an add with the same clock is in its
history. Once everything has been delivered an element is therefore in the sorted set exactly
when its header says that it exists, which until then is not so.

## Main results

* `RemoveWin.RzOk.receive` — one message keeps the invariant
* `RemoveWin.rzOk_of_reachable` — the invariant of every replica of every run
* `RemoveWin.rzSet_convergence` — the state of a replica as a function of the messages applied
-/

namespace RemoveWin

open Replicated JoinRegister

/-! ### One element -/

/-- Whether a message claims the element for its origin. -/
def RzMsg.isAdd (m : RzMsg) : Bool :=
  match m.op with
  | .add _ => true
  | _ => false

/-- What a message adds to the acquired part. -/
def RzMsg.increment (m : RzMsg) : ℚ :=
  match m.op with
  | .incrby v => v
  | _ => 0

/-- What `removeFunc` leaves of an element. -/
def Rze.clear (e : Rze) (t : VC) : Rze :=
  if removeCheck e.header t then ⟨rehRmvFunc e.header t, 0, 0⟩ else e

/-- What an effect leaves of an element. -/
def Rze.receive (e : Rze) (m : RzMsg) : Rze :=
  let e := e.clear m.clock
  match m.op with
  | .add v =>
    if insertCheck e.header m.clock then
      { e with header := { e.header with pid := m.clock.id }, innate := v }
    else e
  | .incrby v =>
    if updateCheck e.header m.clock then { e with acquired := e.acquired + v } else e
  | .rem => e

/-- What `removeFunc` leaves of the score of an element in the sorted set. -/
def Rze.clearScore (e : Rze) (t : VC) (score : Option ℚ) : Option ℚ :=
  if removeCheck e.header t then none else score

/-- What an effect leaves of the score of an element in the sorted set. -/
def Rze.receiveScore (e : Rze) (m : RzMsg) (score : Option ℚ) : Option ℚ :=
  match m.op with
  | .add _ =>
    if insertCheck (e.clear m.clock).header m.clock then some (e.receive m).score
    else e.clearScore m.clock score
  | .incrby _ =>
    if updateCheck (e.clear m.clock).header m.clock then some (e.receive m).score
    else e.clearScore m.clock score
  | .rem => e.clearScore m.clock score

theorem Rze.header_clear (e : Rze) (t : VC) : (e.clear t).header = e.header.rmv t := by
  rw [Rze.clear, Reh.rmv]
  split <;> rfl

theorem Rze.header_receive (e : Rze) (m : RzMsg) :
    (e.receive m).header = e.header.receive m.isAdd m.clock := by
  rcases m with ⟨_ | _ | _, key, element, t⟩
  · simp only [Rze.receive, RzMsg.isAdd, Reh.receive, if_true, Reh.ins, ← Rze.header_clear]
    split <;> rfl
  · simp only [Rze.receive, RzMsg.isAdd, Reh.receive, ← Rze.header_clear]
    split <;> rfl
  · simp [Rze.receive, RzMsg.isAdd, Reh.receive, Rze.header_clear]

/-- The messages about one element, as the register of its header sees them. -/
def rzReceived (M : List RzMsg) : Set (Entry (ℕ → ℤ) ℤ) :=
  {en | ∃ m ∈ M, en = m.clock.toEntry m.isAdd}

/-- A message is stamped with the clock of an element. -/
def RzMsg.At (m : RzMsg) (e : Rze) : Prop := m.clock.vector = e.header.current.vector

instance (m : RzMsg) (e : Rze) : Decidable (m.At e) :=
  inferInstanceAs (Decidable (m.clock.vector = e.header.current.vector))

/-- The score of an element and its place in the sorted set, after the messages `M` about it. -/
structure RzScored (M : List RzMsg) (e : Rze) (score : Option ℚ) : Prop where
  innate : (e.header.pid = -1 ∧ e.innate = 0) ∨
    ∃ m ∈ M, m.op = .add e.innate ∧ m.At e ∧ m.clock.id = e.header.pid
  /-- The acquired part is the sum of the increments with the present clock. -/
  acquired : e.acquired = (M.map fun m => if m.At e then m.increment else 0).sum
  /-- The element is in the sorted set if something was added or increased at the present
  clock. -/
  score : score = if ∃ m ∈ M, m.op ≠ .rem ∧ m.At e then some e.score else none

/-- What a replica keeps for an element after the messages `M` about it, in whatever order. -/
structure RzOk (srv : Server) (M : List RzMsg) (e : Rze) (score : Option ℚ) : Prop
    extends RzScored M e score where
  /-- The clock has the size the server is configured with. -/
  size : e.header.current.size = srv.p2pCount
  keeper : e.header.current.id = srv.p2pId
  /-- The header summarises the messages. -/
  summary : Summary 0 (-1) (rzReceived M) e.header.register
  sizes : ∀ m ∈ M, m.clock.size = srv.p2pCount

variable {srv : Server} {M : List RzMsg} {e : Rze} {score : Option ℚ}

theorem rzOk_new (srv : Server) : RzOk srv [] (rzeNew srv) none where
  innate := .inl ⟨rfl, rfl⟩
  acquired := rfl
  score := by simp
  size := by simp [rzeNew, rehInit]
  keeper := by simp [rzeNew, rehInit]
  summary := by
    have hnone : rzReceived [] = ∅ := by
      ext en
      simp [rzReceived]
    rw [hnone, rzeNew, Reh.register_rehInit]
    exact summary_empty _ _
  sizes := by simp

theorem RzOk.at_iff (h : RzOk srv M e score) {m : RzMsg} (hm : m.clock.size = srv.p2pCount) :
    m.At e ↔ m.clock.entry = e.header.current.entry := by
  constructor
  · intro hat
    funext i
    rw [VC.entry, VC.entry, show m.clock.vector = _ from hat]
  · intro heq
    exact VC.vector_eq_of_entry_eq (hm.trans h.size.symm) heq

/-- Clearing: if the clock moves, nothing received so far is stamped with where it moves to. -/
theorem RzOk.not_at_clear (h : RzOk srv M e score) {t : VC} (ht : t.size = srv.p2pCount)
    (hrem : removeCheck e.header t = true) : ∀ m ∈ M, ¬ m.At (e.clear t) := by
  intro m hm hat
  have hs : t.size = e.header.current.size := ht.trans h.size.symm
  have hnle : ¬ t.entry ≤ e.header.register.current := (removeCheck_iff hs).mp hrem
  refine h.summary.stamp_ne_sup hnle ⟨m, hm, rfl⟩ ?_
  have hcur : (e.clear t).header.register.current = e.header.register.current ⊔ t.entry := by
    rw [Rze.header_clear, Reh.register_rmv hs, Register.clear_current]
  rw [← hcur]
  show m.clock.entry = (e.clear t).header.current.entry
  funext i
  rw [VC.entry, VC.entry, show m.clock.vector = _ from hat]

theorem RzOk.clear (h : RzOk srv M e score) {t : VC} (ht : t.size = srv.p2pCount) :
    RzScored M (e.clear t) (e.clearScore t score) := by
  by_cases hrem : removeCheck e.header t = true
  · have hnot := h.not_at_clear ht hrem
    have hclear : e.clear t = ⟨rehRmvFunc e.header t, 0, 0⟩ := if_pos hrem
    refine ⟨.inl ⟨by rw [hclear]; rfl, by rw [hclear]⟩, ?_, ?_⟩
    · rw [List.map_congr_left (g := fun _ => 0) fun m hm => if_neg (hnot m hm), hclear]
      simp
    · rw [Rze.clearScore, if_pos hrem, if_neg]
      rintro ⟨m, hm, -, hat⟩
      exact hnot m hm hat
  · rw [Rze.clear, Rze.clearScore, if_neg hrem, if_neg hrem]
    exact h.toRzScored

theorem RzScored.apply {m : RzMsg} {e : Rze} {score : Option ℚ} (h : RzScored M e score)
    {e' : Rze} {score' : Option ℚ} (hcur : e'.header.current = e.header.current)
    (hinnate : (e'.header.pid = e.header.pid ∧ e'.innate = e.innate) ∨
      (m.op = .add e'.innate ∧ m.At e ∧ m.clock.id = e'.header.pid))
    (hacq : e'.acquired = e.acquired + if m.At e then m.increment else 0)
    (hscore : score' = if m.op ≠ .rem ∧ m.At e then some e'.score else score)
    (hkeep : ¬ (m.op ≠ .rem ∧ m.At e) → e'.score = e.score) :
    RzScored (M ++ [m]) e' score' := by
  have hat : ∀ m' : RzMsg, m'.At e' ↔ m'.At e := fun m' => by rw [RzMsg.At, RzMsg.At, hcur]
  refine ⟨?_, ?_, ?_⟩
  · rcases hinnate with ⟨hpid, hinn⟩ | ⟨hop, hm, hid⟩
    · rw [hpid, hinn]
      refine h.innate.imp id ?_
      rintro ⟨m', hm', hop, hat', hid⟩
      exact ⟨m', List.mem_append_left _ hm', hop, (hat m').mpr hat', hid⟩
    · exact .inr ⟨m, by simp, hop, (hat m).mpr hm, hid⟩
  · simp only [hat, List.map_append, List.sum_append, List.map_cons, List.map_nil, List.sum_cons,
      List.sum_nil, add_zero]
    rw [hacq, h.acquired]
  · rw [hscore]
    by_cases hm : m.op ≠ .rem ∧ m.At e
    · rw [if_pos hm, if_pos ⟨m, by simp, hm.1, (hat m).mpr hm.2⟩]
    · rw [if_neg hm, h.score, hkeep hm]
      refine if_congr ?_ rfl rfl
      constructor
      · rintro ⟨m', hm', hop, hat'⟩
        exact ⟨m', List.mem_append_left _ hm', hop, (hat m').mpr hat'⟩
      · rintro ⟨m', hm', hop, hat'⟩
        rcases List.mem_append.mp hm' with hm' | hm'
        · exact ⟨m', hm', hop, (hat m').mp hat'⟩
        · obtain rfl := List.eq_of_mem_singleton hm'
          exact absurd ⟨hop, (hat m').mp hat'⟩ hm

theorem RzScored.score_of_exists (h : RzScored M e score) (hex : e.header.Exists) :
    score = some e.score := by
  rcases h.innate with ⟨hpid, -⟩ | ⟨m, hm, hop, hat, -⟩
  · rw [Reh.Exists, hpid] at hex
    exact absurd hex (by decide)
  · rw [h.score, if_pos ⟨m, hm, by rw [hop]; simp, hat⟩]

theorem RzOk.scored_receive (h : RzOk srv M e score) {m : RzMsg}
    (ht : m.clock.size = srv.p2pCount) (hid : 0 ≤ m.clock.id) :
    RzScored (M ++ [m]) (e.receive m) (e.receiveScore m score) := by
  have hclear := h.clear ht
  have hs : m.clock.size = (e.clear m.clock).header.current.size := by
    rw [Rze.header_clear, Reh.size_rmv, h.size, ht]
  have hat : m.At (e.clear m.clock) ↔ m.clock.entry = (e.clear m.clock).header.current.entry := by
    refine ⟨fun hat => ?_, VC.vector_eq_of_entry_eq hs⟩
    funext i
    rw [VC.entry, VC.entry, show m.clock.vector = _ from hat]
  rcases m with ⟨v | v | _, key, element, t⟩
  · -- an add, which may lose against the present owner
    rw [Rze.receive, Rze.receiveScore, Rze.receive]
    by_cases hins : insertCheck (e.clear t).header t = true
    · obtain ⟨heq, -⟩ := (insertCheck_iff hs).mp hins
      have hm := hat.mpr heq
      simp only [if_pos hins]
      refine hclear.apply rfl (.inr ⟨rfl, hm, rfl⟩) ?_ ?_ ?_
      · rw [if_pos hm]
        exact (add_zero _).symm
      · rw [if_pos ⟨by simp, hm⟩]
      · exact fun hn => absurd ⟨by simp, hm⟩ hn
    · simp only [if_neg hins]
      refine hclear.apply rfl (.inl ⟨rfl, rfl⟩) ?_ ?_ fun _ => rfl
      · simp [RzMsg.increment]
      · split
        · next hm =>
          have hge : ¬ (e.clear t).header.pid < t.id := fun hlt =>
            hins ((insertCheck_iff hs).mpr ⟨hat.mp hm.2, hlt⟩)
          exact hclear.score_of_exists (hid.trans (not_lt.mp hge))
        · rfl
  · rw [Rze.receive, Rze.receiveScore, Rze.receive]
    by_cases hup : updateCheck (e.clear t).header t = true
    · have hm := hat.mpr ((updateCheck_iff hs).mp hup)
      simp only [if_pos hup]
      refine hclear.apply rfl (.inl ⟨rfl, rfl⟩) ?_ ?_ ?_
      · rw [if_pos hm]
        rfl
      · rw [if_pos ⟨by simp, hm⟩]
      · exact fun hn => absurd ⟨by simp, hm⟩ hn
    · have hm := fun hm => hup ((updateCheck_iff hs).mpr (hat.mp hm))
      simp only [if_neg hup]
      refine hclear.apply rfl (.inl ⟨rfl, rfl⟩) ?_ ?_ fun _ => rfl
      · rw [if_neg hm, add_zero]
      · rw [if_neg fun hc => hm hc.2]
  · refine hclear.apply rfl (.inl ⟨rfl, rfl⟩) ?_ ?_ fun _ => rfl
    · simp [RzMsg.increment]
      rfl
    · simp [Rze.receiveScore]

theorem rzReceived_concat (M : List RzMsg) (m : RzMsg) :
    rzReceived (M ++ [m]) = insert (m.clock.toEntry m.isAdd) (rzReceived M) := by
  ext en
  simp only [rzReceived, Set.mem_ofPred_eq, List.mem_append, List.mem_singleton,
    Set.mem_insert_iff]
  constructor
  · rintro ⟨m', hm' | rfl, rfl⟩
    · exact .inr ⟨m', hm', rfl⟩
    · exact .inl rfl
  · rintro (rfl | ⟨m', hm', rfl⟩)
    · exact ⟨m, .inr rfl, rfl⟩
    · exact ⟨m', .inl hm', rfl⟩

/-- **One message keeps the invariant**, whatever came before it. -/
theorem RzOk.receive (h : RzOk srv M e score) {m : RzMsg} (ht : m.clock.size = srv.p2pCount)
    (hid : 0 ≤ m.clock.id) : RzOk srv (M ++ [m]) (e.receive m) (e.receiveScore m score) where
  toRzScored := h.scored_receive ht hid
  size := by rw [Rze.header_receive, Reh.size_receive, h.size]
  keeper := by rw [Rze.header_receive, Reh.id_receive, h.keeper]
  summary := by
    rw [Rze.header_receive, rzReceived_concat, Reh.register_receive (ht.trans h.size.symm)]
    exact h.summary.receive _ (lt_of_lt_of_le (by decide) hid)
  sizes m' hm' := by
    rcases List.mem_append.mp hm' with hm' | hm'
    · exact h.sizes m' hm'
    · obtain rfl := List.eq_of_mem_singleton hm'
      exact ht

/-! ### The effect -/

/-- What is kept for an element, as `rzeHTGet` returns it. -/
abbrev Db.rze (db : RzDb) (srv : Server) (s x : Sds) : Rze := db.elem (rzeNew srv) s x

/-- A message is about an element. -/
def RzMsg.On (m : RzMsg) (s x : Sds) : Prop := m.key = s ∧ m.element = x

instance (m : RzMsg) (s x : Sds) : Decidable (m.On s x) :=
  inferInstanceAs (Decidable (m.key = s ∧ m.element = x))

section

variable {db : RzDb} {m : RzMsg} {s x : Sds}

theorem removeFunc_fst (db : RzDb) (e : Rze) (t : VC) (s x : Sds) :
    (removeFunc db e t s x).1 = e.clear t := by
  rw [removeFunc, Rze.clear]
  split <;> rfl

theorem elem_removeFunc (db : RzDb) (e : Rze) (t : VC) (s x : Sds) (srv : Server) :
    (removeFunc db e t s x).2.rze srv = db.rze srv := by
  rw [removeFunc]
  split <;> rfl

theorem onlyZsets_removeFunc (h : db.keys.OnlyZsets) (e : Rze) (t : VC) (s x : Sds) :
    (removeFunc db e t s x).2.keys.OnlyZsets := by
  rw [removeFunc]
  split
  · exact Db.onlyZsets_zdel h
  · exact h

theorem score_removeFunc_self (h : db.keys.OnlyZsets) (e : Rze) (t : VC) :
    (removeFunc db e t s x).2.keys.score s x = e.clearScore t (db.keys.score s x) := by
  rw [removeFunc, Rze.clearScore]
  split
  · exact Db.score_zdel_self h
  · rfl

theorem score_removeFunc_of_ne (h : db.keys.OnlyZsets) (e : Rze) (t : VC) {s' x' : Sds}
    (hne : (s', x') ≠ (s, x)) :
    (removeFunc db e t s x).2.keys.score s' x' = db.keys.score s' x' := by
  rw [removeFunc]
  split
  · exact Db.score_zdel_of_ne h hne
  · rfl

/-- The database when the metadata of the element is up to date and the sorted set has only seen
`removeFunc`. -/
def rzCleared (srv : Server) (m : RzMsg) (db : RzDb) : RzDb :=
  (removeFunc (rzeHTGet srv db m.key m.element).2 (db.rze srv m.key m.element) m.clock m.key
    m.element).2.setElem m.key m.element ((db.rze srv m.key m.element).receive m)

/-- The effect writes the score of the element, or leaves the sorted set at that. -/
theorem rzEffect_cases (srv : Server) (m : RzMsg) (db : RzDb) :
    (rzEffect srv m db = rzCleared srv m db ∧
      ∀ score, (db.rze srv m.key m.element).receiveScore m score =
        (db.rze srv m.key m.element).clearScore m.clock score) ∨
    (rzEffect srv m db = (rzCleared srv m db).zadd m.key
        ((db.rze srv m.key m.element).receive m).score m.element ∧
      ∀ score, (db.rze srv m.key m.element).receiveScore m score =
        some ((db.rze srv m.key m.element).receive m).score) := by
  rcases m with ⟨v | v | _, key, element, t⟩
  · simp only [rzEffect, rzCleared, rzeHTGet, Db.get_eq, Db.put_eq, Db.update_zadd,
      Db.htGet_fst, removeFunc_fst, Rze.receive, Rze.receiveScore]
    split
    · exact .inr ⟨rfl, fun _ => rfl⟩
    · exact .inl ⟨rfl, fun _ => rfl⟩
  · simp only [rzEffect, rzCleared, rzeHTGet, Db.get_eq, Db.put_eq, Db.update_zadd,
      Db.htGet_fst, removeFunc_fst, Rze.receive, Rze.receiveScore]
    split
    · exact .inr ⟨rfl, fun _ => rfl⟩
    · exact .inl ⟨rfl, fun _ => rfl⟩
  · refine .inl ⟨?_, fun _ => rfl⟩
    simp only [rzEffect, rzCleared, rzeHTGet, Db.get_eq, Db.put_eq, Db.htGet_fst, removeFunc_fst,
      Rze.receive]

theorem keys_rzeHTGet (srv : Server) (db : RzDb) (s x : Sds) :
    (rzeHTGet srv db s x).2.keys = db.keys := Db.keys_htGet ..

theorem onlyZsets_rzCleared (h : db.keys.OnlyZsets) : (rzCleared srv m db).keys.OnlyZsets := by
  rw [rzCleared, Db.keys_setElem]
  refine onlyZsets_removeFunc ?_ _ _ _ _
  rwa [keys_rzeHTGet]

theorem onlyZsets_rzEffect (h : db.keys.OnlyZsets) : (rzEffect srv m db).keys.OnlyZsets := by
  rcases rzEffect_cases srv m db with ⟨heff, -⟩ | ⟨heff, -⟩
  · rw [heff]
    exact onlyZsets_rzCleared h
  · rw [heff]
    exact Db.onlyZsets_zadd (onlyZsets_rzCleared h)

theorem ne_of_not_on (hne : ¬ m.On s x) : (s, x) ≠ (m.key, m.element) := by
  intro heq
  obtain ⟨rfl, rfl⟩ := Prod.mk.inj heq
  exact hne ⟨rfl, rfl⟩

theorem rze_rzEffect_self (srv : Server) (m : RzMsg) (db : RzDb) :
    (rzEffect srv m db).rze srv m.key m.element = (db.rze srv m.key m.element).receive m := by
  rcases rzEffect_cases srv m db with ⟨heff, -⟩ | ⟨heff, -⟩
  · rw [heff]
    exact Db.elem_setElem_self ..
  · rw [heff]
    exact Db.elem_setElem_self ..

theorem rze_rzEffect_of_ne (srv : Server) (db : RzDb) (hne : ¬ m.On s x) :
    (rzEffect srv m db).rze srv s x = db.rze srv s x := by
  have hcl : (rzCleared srv m db).rze srv s x = db.rze srv s x := by
    rw [rzCleared, Db.rze, Db.elem_setElem_of_ne _ _ _ (ne_of_not_on hne)]
    show Db.rze (removeFunc _ _ _ _ _).2 srv s x = _
    rw [elem_removeFunc]
    exact congrFun (congrFun (Db.elem_htGet ..) s) x
  rcases rzEffect_cases srv m db with ⟨heff, -⟩ | ⟨heff, -⟩
  · rw [heff, hcl]
  · rw [heff]
    exact hcl

theorem score_rzEffect_self (h : db.keys.OnlyZsets) :
    (rzEffect srv m db).keys.score m.key m.element =
      (db.rze srv m.key m.element).receiveScore m (db.keys.score m.key m.element) := by
  rcases rzEffect_cases srv m db with ⟨heff, hscore⟩ | ⟨heff, hscore⟩
  · rw [heff, hscore, rzCleared, Db.keys_setElem, score_removeFunc_self, keys_rzeHTGet]
    rwa [keys_rzeHTGet]
  · rw [heff, hscore]
    exact Db.score_zadd_self (onlyZsets_rzCleared h)

theorem score_rzEffect_of_ne (h : db.keys.OnlyZsets) (hne : ¬ m.On s x) :
    (rzEffect srv m db).keys.score s x = db.keys.score s x := by
  have hcl : (rzCleared srv m db).keys.score s x = db.keys.score s x := by
    rw [rzCleared, Db.keys_setElem, score_removeFunc_of_ne _ _ _ (ne_of_not_on hne), keys_rzeHTGet]
    rwa [keys_rzeHTGet]
  rcases rzEffect_cases srv m db with ⟨heff, -⟩ | ⟨heff, -⟩
  · rw [heff, hcl]
  · rw [heff, Db.score_zadd_of_ne (onlyZsets_rzCleared h) (ne_of_not_on hne), hcl]

end

/-! ### The prepare phase -/

/-- The clock a message carries: a remove counts one more. -/
def rzStamp (op : RzOp) (h : Reh) : VC := if op = .rem then nowVC h.current else h.current

/-- What every prepare phase guarantees. -/
structure RzPrepared (srv : Server) (db : RzDb) (p : ZPrepared RzDb RzMsg) : Prop where
  keys : p.state.keys = db.keys
  rze : p.state.rze srv = db.rze srv
  clock : ∀ m ∈ p.msg, m.clock = rzStamp m.op (db.rze srv m.key m.element).header
  /-- Adds are for elements that do not exist, everything else for those that do. -/
  isAdd : ∀ m ∈ p.msg, m.isAdd = true ↔ ¬ (db.rze srv m.key m.element).header.Exists

theorem RzPrepared.refused (srv : Server) (db : RzDb) (reply : ZReply) :
    RzPrepared srv db ⟨db, reply, none⟩ := ⟨rfl, rfl, by simp, by simp⟩

theorem rzPrepare_spec (srv : Server) (c : RzCmd) (db : RzDb) :
    RzPrepared srv db (rzPrepare srv c db) := by
  cases c with
  | add key element value more =>
    simp only [rzPrepare, rzaddPrepare]
    split
    · exact .refused ..
    · exact .refused ..
    · have hkeys : (rzeHTGet srv db key element).2.keys = db.keys := keys_rzeHTGet ..
      have hrze : (rzeHTGet srv db key element).2.rze srv = db.rze srv := Db.elem_htGet ..
      have hfst : (rzeHTGet srv db key element).1 = db.rze srv key element := Db.htGet_fst ..
      split
      · exact ⟨hkeys, hrze, by simp, by simp⟩
      · next hex =>
        rw [hfst] at hex ⊢
        exact ⟨hkeys, hrze, by simp [rzStamp], by simpa [RzMsg.isAdd] using hex⟩
  | incrby key element value more =>
    simp only [rzPrepare, rzincrbyPrepare, Db.find_eq]
    split
    · exact .refused ..
    · exact .refused ..
    · cases he : db.elems key element with
      | none => exact .refused ..
      | some e =>
        have hrze : db.rze srv key element = e := by rw [Db.rze, Db.elem, he, Option.getD_some]
        dsimp only
        split
        · next hex =>
          exact ⟨rfl, rfl, by simp [rzStamp, hrze], by simpa [RzMsg.isAdd, hrze] using hex⟩
        · exact .refused ..
  | rem key element more =>
    simp only [rzPrepare, rzremPrepare, Db.find_eq]
    split
    · exact .refused ..
    · cases he : db.elems key element with
      | none => exact .refused ..
      | some e =>
        have hrze : db.rze srv key element = e := by rw [Db.rze, Db.elem, he, Option.getD_some]
        dsimp only
        split
        · next hex =>
          exact ⟨rfl, rfl, by simp [rzStamp, hrze], by simpa [RzMsg.isAdd, hrze] using hex⟩
        · exact .refused ..

/-! ### Runs -/

section

variable {N : ℕ} {iter : Fin N → Iteration} {C : Cond (Fin N) RzDb RzCmd RzMsg}
  {g g' : Net (Fin N) RzDb RzMsg}

/-- The messages of a list of events that are about one element. -/
def messagesOn (A : List (Event (Fin N) RzMsg)) (s x : Sds) : List RzMsg :=
  (A.map Event.msg).filter fun m => m.On s x

theorem mem_messagesOn {A : List (Event (Fin N) RzMsg)} {s x : Sds} {m : RzMsg} :
    m ∈ messagesOn A s x ↔ m.On s x ∧ ∃ d ∈ A, d.msg = m := by
  simp [messagesOn, and_comm]

/-- The database of a replica that has applied the events `A`, in whatever order. -/
structure RzDbOk (srv : Server) (A : List (Event (Fin N) RzMsg)) (db : RzDb) : Prop where
  /-- The visible keys hold sorted sets. -/
  onlyZsets : db.keys.OnlyZsets
  element : ∀ s x, RzOk srv (messagesOn A s x) (db.rze srv s x) (db.keys.score s x)

theorem rzDbOk_empty (srv : Server) : RzDbOk (N := N) srv [] .empty where
  onlyZsets _ := by simp [ZDb.empty]
  element s x := rzOk_new srv

theorem RzDbOk.congr {A : List (Event (Fin N) RzMsg)} {db db' : RzDb} (h : RzDbOk srv A db)
    (hk : db'.keys = db.keys) (he : db'.rze srv = db.rze srv) : RzDbOk srv A db' where
  onlyZsets := hk ▸ h.onlyZsets
  element s x := by
    rw [hk, he]
    exact h.element s x

theorem RzDbOk.effect {A : List (Event (Fin N) RzMsg)} {db : RzDb} (h : RzDbOk srv A db)
    {d : Event (Fin N) RzMsg} (ht : d.msg.clock.size = srv.p2pCount) (hid : 0 ≤ d.msg.clock.id) :
    RzDbOk srv (A ++ [d]) (rzEffect srv d.msg db) where
  onlyZsets := onlyZsets_rzEffect h.onlyZsets
  element s x := by
    by_cases hon : d.msg.On s x
    · obtain ⟨rfl, rfl⟩ := hon
      rw [rze_rzEffect_self, score_rzEffect_self h.onlyZsets]
      have hcons : messagesOn (A ++ [d]) d.msg.key d.msg.element =
          messagesOn A d.msg.key d.msg.element ++ [d.msg] := by
        simp [messagesOn, RzMsg.On]
      rw [hcons]
      exact (h.element _ _).receive ht hid
    · rw [rze_rzEffect_of_ne srv db hon, score_rzEffect_of_ne h.onlyZsets hon]
      have hsame : messagesOn (A ++ [d]) s x = messagesOn A s x := by
        simp [messagesOn, hon]
      rw [hsame]
      exact h.element s x

/-- How a message was issued: with the clock of what its origin kept for the element after the
history of the message, and, if it is an add, because the element did not exist there. -/
def RzIssued (iter : Fin N → Iteration) (d : Event (Fin N) RzMsg) : Prop :=
  ∃ e score, RzOk (.of iter d.origin) (messagesOn d.deps d.msg.key d.msg.element) e score ∧
    d.msg.clock = rzStamp d.msg.op e.header ∧ (d.msg.isAdd = true ↔ ¬ e.header.Exists)

theorem RzIssued.size {d : Event (Fin N) RzMsg} (h : RzIssued iter d) : d.msg.clock.size = N := by
  obtain ⟨e, score, hok, hclock, -⟩ := h
  rw [hclock, rzStamp]
  split
  · exact (size_nowVC _).trans hok.size
  · exact hok.size

theorem RzIssued.id {d : Event (Fin N) RzMsg} (h : RzIssued iter d) :
    d.msg.clock.id = d.origin.val := by
  obtain ⟨e, score, hok, hclock, -⟩ := h
  rw [hclock, rzStamp]
  split
  · exact (id_nowVC _).trans hok.keeper
  · exact hok.keeper

/-- **The invariant of every run.** -/
theorem rzOk_of_reachable (hg : Reachable (rzSet iter) C g) :
    (∀ d ∈ g.log, RzIssued iter d) ∧ ∀ r, RzDbOk (.of iter r) (g.applied r) (g.state r) := by
  refine hg.joint_invariant (I := fun r A db => RzDbOk (.of iter r) A db) (J := RzIssued iter)
    ?_ ?_ ?_ ?_ ?_
  · exact fun r => rzDbOk_empty _
  · simp [OpBased.start]
  · intro g g' r c db' o _ _ hp ih
    obtain ⟨rfl, rfl⟩ := Prod.mk.inj (Option.some.inj hp)
    have hspec := rzPrepare_spec (.of iter r) c (g.state r)
    exact ih.congr hspec.keys hspec.rze
  · intro g g' r c db' m _ _ hok _ _ hp
    obtain ⟨rfl, hm⟩ := Prod.mk.inj (Option.some.inj hp)
    have hspec := rzPrepare_spec (.of iter r) c (g.state r)
    exact ⟨_, _, hok.element _ _, hspec.clock m hm, hspec.isAdd m hm⟩
  · intro g' r d A db _ hJ hd _ ih
    refine ih.effect (hJ d hd).size ?_
    rw [(hJ d hd).id]
    exact Int.natCast_nonneg _

/-- An origin adds an element at most once with one clock: it exists there until the clock moves
on. -/
theorem rzAdd_unique (hg : Reachable (rzSet iter) C g) {d d' : Event (Fin N) RzMsg}
    (hd : d ∈ g.log) (hd' : d' ∈ g.log) (horigin : d.origin = d'.origin) {s x : Sds}
    (hon : d.msg.On s x) (hon' : d'.msg.On s x) (hadd : d.msg.isAdd = true)
    (hadd' : d'.msg.isAdd = true) (hclock : d.msg.clock.vector = d'.msg.clock.vector) :
    d = d' := by
  obtain ⟨hissued, -⟩ := rzOk_of_reachable hg
  -- if the earlier one is in the history of the later, the element existed at its origin
  have hnot : ∀ {d d' : Event (Fin N) RzMsg}, d ∈ g.log → d' ∈ g.log → d.msg.On s x →
      d'.msg.On s x → d.msg.isAdd = true → d'.msg.isAdd = true →
      d.msg.clock.vector = d'.msg.clock.vector → d ∉ d'.deps := by
    intro d d' hd hd' hon hon' hadd hadd' hclock hdeps
    obtain ⟨e, score, hok, hstamp, hex⟩ := hissued d' hd'
    rw [hon'.1, hon'.2] at hok
    have hmem : d.msg ∈ messagesOn d'.deps s x := mem_messagesOn.mpr ⟨hon, d, hdeps, rfl⟩
    have hcur : d'.msg.clock = e.header.current := by
      rw [hstamp, rzStamp, if_neg]
      intro hop
      simp [RzMsg.isAdd, hop] at hadd'
    refine hex.mp hadd' ?_
    rw [Reh.exists_iff_owner, hok.summary.nobody_lt_iff]
    · refine ⟨_, ⟨d.msg, hmem, rfl⟩, hadd, ?_⟩
      exact (hok.at_iff (hissued d hd).size).mp (hclock.trans (by rw [hcur]))
    · rintro _ ⟨m, hm, rfl⟩
      obtain ⟨-, d₀, hd₀, rfl⟩ := mem_messagesOn.mp hm
      have hid := (hissued d₀ ((Reachable.wellFormed hg).deps_mem hd' hd₀).1).id
      show (-1 : ℤ) < d₀.msg.clock.id
      omega
  rcases (Reachable.wellFormed hg).eq_or_mem_deps hd hd' horigin with heq | hdeps | hdeps
  · exact heq
  · exact absurd hdeps (hnot hd hd' hon hon' hadd hadd' hclock)
  · exact absurd hdeps (hnot hd' hd hon' hon hadd' hadd hclock.symm)

/-- What a replica that has applied the events `A` keeps for an element, and where it stands in the
sorted set. -/
structure RzElement (A : List (Event (Fin N) RzMsg)) (s x : Sds) (e : Rze) (score : Option ℚ) :
    Prop where
  /-- The clock is the join of the timestamps of the messages on the element. -/
  current : IsLUB (insert 0 {c | ∃ d ∈ A, d.msg.On s x ∧ d.msg.clock.entry = c})
    e.header.current.entry
  /-- The owner is the largest origin of an add stamped with it, `-1` if there is none. -/
  pid : IsGreatest (insert (-1) {p : ℤ | ∃ d ∈ A, d.msg.On s x ∧ d.msg.isAdd = true ∧
    d.msg.At e ∧ d.origin.val = p}) e.header.pid
  /-- The innate part is the value of that add, zero if there is none. -/
  innate : (e.header.pid = -1 → e.innate = 0) ∧ ∀ d ∈ A, ∀ v, d.msg.On s x → d.msg.op = .add v →
    d.msg.At e → d.origin.val = e.header.pid → e.innate = v
  /-- The acquired part is the sum of the increments stamped with the clock. -/
  acquired : e.acquired =
    ((A.filter fun d => d.msg.On s x ∧ d.msg.At e).map fun d => d.msg.increment).sum
  /-- The element is in the sorted set if an add or an increment is stamped with the clock, and
  its score is the sum of the parts. -/
  score : score = if ∃ d ∈ A, d.msg.On s x ∧ d.msg.op ≠ .rem ∧ d.msg.At e then
    some (e.innate + e.acquired) else none

theorem sum_messagesOn (A : List (Event (Fin N) RzMsg)) (s x : Sds) (e : Rze) :
    ((messagesOn A s x).map fun m => if m.At e then m.increment else 0).sum =
      ((A.filter fun d => d.msg.On s x ∧ d.msg.At e).map fun d => d.msg.increment).sum := by
  induction A with
  | nil => rfl
  | cons d A ih =>
    have hcons : messagesOn (d :: A) s x =
        if d.msg.On s x then d.msg :: messagesOn A s x else messagesOn A s x := by
      simp [messagesOn, List.filter_cons]
    rw [hcons, List.filter_cons]
    by_cases hon : d.msg.On s x
    · by_cases hat : d.msg.At e <;> simp [hon, hat, ih]
    · simp [hon, ih]

theorem rzElement_of_reachable (hg : Reachable (rzSet iter) C g) (r : Fin N) (s x : Sds) :
    RzElement (g.applied r) s x ((g.state r).rze (.of iter r) s x)
      ((g.state r).keys.score s x) := by
  obtain ⟨hissued, hdb⟩ := rzOk_of_reachable hg
  have w := Reachable.wellFormed hg
  have hok := (hdb r).element s x
  set e := (g.state r).rze (.of iter r) s x
  have hat : ∀ d ∈ g.applied r, (d.msg.At e ↔ d.msg.clock.entry = e.header.current.entry) :=
    fun d hd => hok.at_iff (hissued d (w.applied_mem hd)).size
  refine ⟨?_, ?_, ⟨?_, ?_⟩, ?_, ?_⟩
  · have hset : {c | ∃ d ∈ g.applied r, d.msg.On s x ∧ d.msg.clock.entry = c} =
        Entry.stamp '' rzReceived (messagesOn (g.applied r) s x) := by
      ext c
      constructor
      · rintro ⟨d, hd, hon, rfl⟩
        exact ⟨_, ⟨d.msg, mem_messagesOn.mpr ⟨hon, d, hd, rfl⟩, rfl⟩, rfl⟩
      · rintro ⟨_, ⟨m, hm, rfl⟩, rfl⟩
        obtain ⟨hon, d, hd, rfl⟩ := mem_messagesOn.mp hm
        exact ⟨d, hd, hon, rfl⟩
    rw [hset]
    exact hok.summary.current
  · have hset : {p : ℤ | ∃ d ∈ g.applied r, d.msg.On s x ∧ d.msg.isAdd = true ∧ d.msg.At e ∧
        d.origin.val = p} = {p | ∃ en ∈ rzReceived (messagesOn (g.applied r) s x), en.claims ∧
          en.stamp = e.header.register.current ∧ en.author = p} := by
      ext p
      constructor
      · rintro ⟨d, hd, hon, hadd, hm, rfl⟩
        refine ⟨_, ⟨d.msg, mem_messagesOn.mpr ⟨hon, d, hd, rfl⟩, rfl⟩, hadd, (hat d hd).mp hm, ?_⟩
        exact (hissued d (w.applied_mem hd)).id
      · rintro ⟨_, ⟨m, hm, rfl⟩, hadd, hst, rfl⟩
        obtain ⟨hon, d, hd, rfl⟩ := mem_messagesOn.mp hm
        refine ⟨d, hd, hon, hadd, (hat d hd).mpr hst, ?_⟩
        exact (hissued d (w.applied_mem hd)).id.symm
    rw [hset]
    exact hok.summary.owner
  · intro hpid
    rcases hok.innate with ⟨-, hinn⟩ | ⟨m, hm, -, -, hid⟩
    · exact hinn
    · obtain ⟨-, d, hd, rfl⟩ := mem_messagesOn.mp hm
      rw [hpid, (hissued d (w.applied_mem hd)).id] at hid
      omega
  · intro d hd v hon hop hm horigin
    rcases hok.innate with ⟨hpid, -⟩ | ⟨m, hm', hop', hat', hid⟩
    · rw [hpid] at horigin
      omega
    · obtain ⟨hon', d', hd', rfl⟩ := mem_messagesOn.mp hm'
      rw [(hissued d' (w.applied_mem hd')).id, ← horigin] at hid
      -- both are the one add of the owner with this clock
      obtain rfl : d = d' := rzAdd_unique hg (w.applied_mem hd) (w.applied_mem hd')
        (Fin.ext (Int.ofNat.inj hid).symm) hon hon' (by rw [RzMsg.isAdd, hop])
        (by rw [RzMsg.isAdd, hop']) (hm.trans hat'.symm)
      rw [hop] at hop'
      exact (RzOp.add.inj hop').symm
  · rw [hok.acquired, sum_messagesOn]
  · rw [hok.score]
    refine if_congr ?_ rfl rfl
    constructor
    · rintro ⟨m, hm, hop, hm'⟩
      obtain ⟨hon, d, hd, rfl⟩ := mem_messagesOn.mp hm
      exact ⟨d, hd, hon, hop, hm'⟩
    · rintro ⟨d, hd, hon, hop, hm⟩
      exact ⟨d.msg, mem_messagesOn.mpr ⟨hon, d, hd, rfl⟩, hop, hm⟩

theorem RzElement.eq_of_same {A A' : List (Event (Fin N) RzMsg)} {s x : Sds} {e e' : Rze}
    {score score' : Option ℚ} (h : RzElement A s x e score) (h' : RzElement A' s x e' score')
    (hsize : e.header.current.size = e'.header.current.size) (hA : A.Perm A') :
    e.header.current.vector = e'.header.current.vector ∧ e.header.pid = e'.header.pid ∧
      e.innate = e'.innate ∧ e.acquired = e'.acquired ∧ score = score' := by
  have hmem : ∀ d, d ∈ A ↔ d ∈ A' := fun d => hA.mem_iff
  have hcur : e.header.current.vector = e'.header.current.vector := by
    refine VC.vector_eq_of_entry_eq hsize (h.current.unique ?_)
    simp only [hmem]
    exact h'.current
  have hat : ∀ m : RzMsg, m.At e ↔ m.At e' := fun m => by rw [RzMsg.At, RzMsg.At, hcur]
  have hpid : e.header.pid = e'.header.pid := by
    refine h.pid.unique ?_
    simp only [hmem, hat]
    exact h'.pid
  have hinnate : e.innate = e'.innate := by
    rcases h.pid.1 with hnone | ⟨d, hd, hon, hadd, hm, horigin⟩
    · rw [h.innate.1 hnone, h'.innate.1 (hpid ▸ hnone)]
    · obtain ⟨v, hop⟩ : ∃ v, d.msg.op = .add v := by
        rcases hop : d.msg.op with v | v | _
        · exact ⟨v, rfl⟩
        · simp [RzMsg.isAdd, hop] at hadd
        · simp [RzMsg.isAdd, hop] at hadd
      rw [h.innate.2 d hd v hon hop hm horigin,
        h'.innate.2 d ((hmem d).mp hd) v hon hop ((hat _).mp hm) (horigin.trans hpid)]
  have hacq : e.acquired = e'.acquired := by
    rw [h.acquired, h'.acquired]
    simp only [hat]
    exact ((hA.filter _).map _).sum_eq
  refine ⟨hcur, hpid, hinnate, hacq, ?_⟩
  rw [h.score, h'.score, hinnate, hacq]
  simp only [hmem, hat]

/-- **The remove-win priority queue converges in any delivery order.** The state of a replica is a
function of the set of messages applied: what it keeps for each element is what `RzElement` says.
So replicas that have applied the same messages agree on every element, and once everything has
been delivered an element is in the sorted set exactly when it has an owner. -/
theorem rzSet_convergence (hg : Reachable (rzSet iter) anyOrder g)
    (hg' : Reachable (rzSet iter) anyOrder g') :
    (∀ r s x, RzElement (g.applied r) s x ((g.state r).rze (.of iter r) s x)
      ((g.state r).keys.score s x)) ∧
    (∀ r r', (∀ d, d ∈ g.applied r ↔ d ∈ g'.applied r') → ∀ s x,
      let e := (g.state r).rze (.of iter r) s x
      let e' := (g'.state r').rze (.of iter r') s x
      e.header.current.vector = e'.header.current.vector ∧ e.header.pid = e'.header.pid ∧
        e.innate = e'.innate ∧ e.acquired = e'.acquired ∧
        (g.state r).keys.score s x = (g'.state r').keys.score s x) ∧
    (Delivered g → ∀ r s x, ((g.state r).keys.score s x).isSome ↔
      0 ≤ ((g.state r).rze (.of iter r) s x).header.pid) := by
  refine ⟨rzElement_of_reachable hg, ?_, ?_⟩
  · intro r r' happ s x
    have hperm : (g.applied r).Perm (g'.applied r') :=
      (List.perm_ext_iff_of_nodup ((Reachable.wellFormed hg).applied_nodup r).of_map
        ((Reachable.wellFormed hg').applied_nodup r').of_map).mpr happ
    have hsize := (((rzOk_of_reachable hg).2 r).element s x).size
    have hsize' := (((rzOk_of_reachable hg').2 r').element s x).size
    exact (rzElement_of_reachable hg r s x).eq_of_same (rzElement_of_reachable hg' r' s x)
      (hsize.trans hsize'.symm) hperm
  · intro hdel r s x
    obtain ⟨hissued, hdb⟩ := rzOk_of_reachable hg
    have w := Reachable.wellFormed hg
    have hok := (hdb r).element s x
    have helem := rzElement_of_reachable hg r s x
    constructor
    · intro hsome
      rw [helem.score] at hsome
      split at hsome
      · next hex =>
        obtain ⟨d, hd, hon, hop, hm⟩ := hex
        -- an add with this clock: the message itself, or one in the history of the increment
        obtain ⟨d', hd', hon', hadd', hm'⟩ : ∃ d' ∈ g.log, d'.msg.On s x ∧ d'.msg.isAdd = true ∧
            d'.msg.clock.vector = d.msg.clock.vector := by
          by_cases hadd : d.msg.isAdd = true
          · exact ⟨d, w.applied_mem hd, hon, hadd, rfl⟩
          · obtain ⟨e₀, score₀, hok₀, hstamp, hex₀⟩ := hissued d (w.applied_mem hd)
            rw [rzStamp, if_neg hop] at hstamp
            rw [hon.1, hon.2] at hok₀
            have hexists : e₀.header.Exists := by
              by_contra hne
              exact hadd (hex₀.mpr hne)
            rcases hok₀.innate with ⟨hpid, -⟩ | ⟨m, hm₀, hop₀, hat₀, -⟩
            · rw [Reh.Exists, hpid] at hexists
              exact absurd hexists (by decide)
            · obtain ⟨hon₀, d₀, hd₀, rfl⟩ := mem_messagesOn.mp hm₀
              have hlog₀ := (w.deps_mem (w.applied_mem hd) hd₀).1
              refine ⟨d₀, hlog₀, hon₀, by rw [RzMsg.isAdd, hop₀], ?_⟩
              rw [hstamp]
              exact hat₀
        have hle := helem.pid.2 (Set.mem_insert_of_mem _
          ⟨d', hdel r d' hd', hon', hadd', hm'.trans hm, rfl⟩)
        omega
      · simp at hsome
    · intro hpid
      rw [hok.score_of_exists hpid]
      rfl

end

end RemoveWin
