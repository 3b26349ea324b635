import RemoveWin.SetStores

/-!
# How the set commands answer

The fifteen handlers of the RWF-, OR- and PN-Set reply in three places: where they refuse, in the
functions that compute a scratch set, and at the end of the prepare phase. The functions that
compute a scratch set reply when a source has the wrong type and return, and the handler goes on
with what they left. So an answer of a store command is what the scratch set replied, and one more
reply.

Whether the destination is there and is a set is tested by some handlers and not by others. If it
is absent, the store commands of the RWF-Set return without a reply, and those of the OR-Set and
the PN-Set follow a `NULL` pointer unless they only add. Its type is tested by `RWFSADD` and by the
three commands that remove given members.

## Main results

* `RemoveWin.StoreOp.rw_replies`, `or_replies`, `pn_replies` — the answers of the store commands
* `RemoveWin.type_errors_iff` — which commands meet a value of another type with a clean error
* `RemoveWin.answers_once_iff` — when a command on sets answers once
-/

namespace RemoveWin

/-! ### What is asked of an answer -/

/-- The destination of a store command is there. -/
def SetCmd.HasDestination (ks : Keys) : SetCmd → Prop
  | .unionstore dst _ _ => ks dst ≠ none
  | .diffstore dst _ _ => ks dst ≠ none
  | .interstore dst _ _ => ks dst ≠ none
  | _ => True

/-- The destination of a store command that removes is there. -/
def SetCmd.HasDestinationToCut (ks : Keys) : SetCmd → Prop
  | .diffstore dst _ _ => ks dst ≠ none
  | .interstore dst _ _ => ks dst ≠ none
  | _ => True

/-- The command adds given members. -/
def SetCmd.IsAdd : SetCmd → Prop
  | .add _ _ => True
  | _ => False

/-- The command removes given members. -/
def SetCmd.IsRem : SetCmd → Prop
  | .rem _ _ => True
  | _ => False

section

variable {σ Msg : Type}

/-- **A clean type error.** The handler completes, with `WRONGTYPE` as its one reply; it broadcasts
nothing and changes no key. -/
def CleanError (keys : σ → Keys) (s : σ) (o : Option (Prepared σ Msg)) : Prop :=
  ∃ p, o = some p ∧ p.replies = [.wrongtypeerr] ∧ p.msg = none ∧ keys p.state = keys s

/-- The handler completes, with one reply. -/
def AnswersOnce (o : Option (Prepared σ Msg)) : Prop := ∃ p x, o = some p ∧ p.replies = [x]

/-- The handler completes, with one reply after `replies`, which is not `WRONGTYPE`. -/
def AnswersAfter (replies : List Reply) (p : Prepared σ Msg) : Prop :=
  ∃ x, x ≠ .wrongtypeerr ∧ p.replies = replies ++ [x]

theorem AnswersAfter.ne_wrongtypeerr {replies : List Reply} {p : Prepared σ Msg}
    (h : AnswersAfter replies p) : p.replies ≠ [.wrongtypeerr] := by
  obtain ⟨x, hx, hreplies⟩ := h
  rw [hreplies]
  intro heq
  have hlast := congrArg List.getLast? heq
  rw [List.getLast?_concat] at hlast
  exact hx (Option.some.inj hlast)

theorem answersOnce_iff_isSome {o : Option (Prepared σ Msg)}
    (h : ∀ p, o = some p → AnswersAfter [] p) : AnswersOnce o ↔ o.isSome := by
  constructor
  · rintro ⟨p, x, rfl, -⟩
    rfl
  · intro hsome
    obtain ⟨p, hp⟩ := Option.isSome_iff_exists.mp hsome
    obtain ⟨x, -, hx⟩ := h p hp
    exact ⟨p, x, hp, hx⟩

end

/-! ### The scratch set -/

/-- The replies sent while the scratch set is computed; none if that does not come to an end. -/
def StoreOp.scratchReplies (srv : Server) (ks : Keys) (src : Sds) (srcs : List Sds) :
    StoreOp → List Reply
  | union => (sunionResult srv ks (src :: srcs) .empty).2
  | inter => (sinterResult srv ks src srcs .empty).2
  | diff => ((sdiffResult srv ks src srcs .empty).map Prod.snd).getD []

/-- The keys of a list are absent or hold sets. -/
def Keys.SetsAt (ks : Keys) (keys : List Sds) : Prop :=
  ∀ k ∈ keys, ∀ fields, ks k ≠ some (.other fields)

section

variable {srv : Server} {ks : Keys}

theorem Keys.SetsAt.sunionResult_replies {keys : List Sds} (h : ks.SetsAt keys) (dst : SetObj) :
    (sunionResult srv ks keys dst).2 = [] := by
  induction keys generalizing dst with
  | nil => rfl
  | cons k keys ih =>
    have htail : ks.SetsAt keys := fun k' hk' => h k' (List.mem_cons_of_mem k hk')
    rw [sunionResult]
    split
    · exact ih htail dst
    · next fields hk => exact absurd hk (h k List.mem_cons_self fields)
    · exact ih htail _

theorem Keys.SetsAt.tail {k : Sds} {keys : List Sds} (h : ks.SetsAt (k :: keys)) :
    ks.SetsAt keys := fun k' hk' => h k' (List.mem_cons_of_mem k hk')

theorem Keys.SetsAt.exists_set {k : Sds} {keys : List Sds} (h : ks.SetsAt (k :: keys))
    (hk : ks k ≠ none) : ∃ o, ks k = some (.set o) := by
  obtain ⟨obj, hobj⟩ := Option.ne_none_iff_exists'.mp hk
  cases obj with
  | set o => exact ⟨o, hobj⟩
  | other fields => exact absurd hobj (h k List.mem_cons_self fields)

theorem Keys.SetsAt.exists_sdiffResult {src : Sds} {srcs : List Sds}
    (h : ks.SetsAt (src :: srcs)) (srv : Server) :
    ∃ o, sdiffResult srv ks src srcs .empty = some (o, []) := by
  rw [sdiffResult]
  cases hobj : ks src with
  | none => exact ⟨_, rfl⟩
  | some obj =>
    obtain ⟨o, ho⟩ := h.exists_set (by simp [hobj])
    obtain rfl := Option.some.inj (hobj.symm.trans ho)
    refine ⟨_, congrArg some (Prod.ext rfl ?_)⟩
    exact h.tail.sunionResult_replies .empty

theorem Keys.SetsAt.sinterTest_replies {keys : List Sds} (h : ks.SetsAt keys) (x : Sds)
    {replies : List Reply} (htest : sinterTest ks x keys = .abort replies) : replies = [] := by
  induction keys with
  | nil => cases htest
  | cons k keys ih =>
    rw [sinterTest] at htest
    split at htest
    · exact (InterTest.abort.inj htest).symm
    · next fields hk => exact absurd hk (h k List.mem_cons_self fields)
    · split at htest
      · exact ih h.tail htest
      · cases htest

theorem Keys.SetsAt.sinterLoop_replies {rest : List Sds} (h : ks.SetsAt rest) (xs : List Sds)
    (dst : SetObj) : (sinterLoop ks rest xs dst).2 = [] := by
  induction xs generalizing dst with
  | nil => rfl
  | cons x xs ih =>
    rw [sinterLoop]
    split
    · exact ih _
    · exact ih _
    · next replies htest => exact h.sinterTest_replies x htest

/-- **Sources that are sets** are computed with in silence. -/
theorem Keys.SetsAt.scratchReplies {src : Sds} {srcs : List Sds} (h : ks.SetsAt (src :: srcs))
    (op : StoreOp) : op.scratchReplies srv ks src srcs = [] := by
  cases op with
  | union => exact h.sunionResult_replies .empty
  | inter =>
    rw [StoreOp.scratchReplies, sinterResult]
    split
    · rfl
    · next fields hsrc => exact absurd hsrc (h src List.mem_cons_self fields)
    · exact h.tail.sinterLoop_replies _ _
  | diff =>
    obtain ⟨o, ho⟩ := h.exists_sdiffResult srv
    rw [StoreOp.scratchReplies, ho]
    rfl

end

/-! ### The answers of the store commands -/

section

variable {srv : Server} {op : StoreOp} {dst src : Sds} {srcs : List Sds}

theorem answersAfter_rwsFinish (isAdd : Bool) (setName : Sds) (replies : List Reply)
    (refusal : Reply) (h : refusal ≠ .wrongtypeerr) (r : RwDb × List RwEntry) :
    AnswersAfter replies (rwsFinish isAdd setName replies refusal r) := by
  rw [rwsFinish]
  split
  · exact ⟨refusal, h, rfl⟩
  · exact ⟨.ok, by decide, rfl⟩

theorem StoreOp.rw_replies {db : RwDb} {p : Prepared RwDb RwMsg}
    (hp : rwsPrepare srv (op.rw dst src srcs) db = some p) :
    (db.keys dst = none ∧ p.replies = []) ∨
      db.keys dst ≠ none ∧ AnswersAfter (op.scratchReplies srv db.keys src srcs) p := by
  cases hdst : db.keys dst with
  | none =>
    cases op <;>
      simp only [StoreOp.rw, rwsPrepare, rwsunionstorePrepare, rwsinterstorePrepare,
        rwsdiffstorePrepare, Db.view_eq, hdst, Option.some.injEq] at hp <;>
      exact .inl ⟨rfl, by rw [← hp]⟩
  | some obj =>
    refine .inr ⟨by simp, ?_⟩
    cases op with
    | union =>
      simp only [StoreOp.rw, rwsPrepare, rwsunionstorePrepare, Db.view_eq, hdst] at hp
      split at hp
      · split at hp
        · cases hp
          exact ⟨.eleExist, by decide, rfl⟩
        · cases hp
      · cases hp
        exact answersAfter_rwsFinish _ _ _ _ (by decide) _
    | inter =>
      simp only [StoreOp.rw, rwsPrepare, rwsinterstorePrepare, Db.view_eq, hdst] at hp
      split at hp
      · cases hp
      · cases hp
        exact answersAfter_rwsFinish _ _ _ _ (by decide) _
    | diff =>
      simp only [StoreOp.rw, rwsPrepare, rwsdiffstorePrepare, Db.view_eq, hdst] at hp
      split at hp
      · cases hp
      · cases hp
      · next hdiff _ =>
        cases hp
        rw [StoreOp.scratchReplies, hdiff]
        exact answersAfter_rwsFinish _ _ _ _ (by decide) _

theorem StoreOp.or_replies {db : OrDb} {p : Prepared OrDb OrMsg}
    (hp : orsPrepare srv (op.or dst src srcs) db = some p) :
    AnswersAfter (op.scratchReplies srv db.keys src srcs) p := by
  cases op with
  | union =>
    simp only [StoreOp.or, orsPrepare, orsunionstorePrepare, Db.view_eq] at hp
    split at hp
    · split at hp
      · cases hp
        exact ⟨.ok, by decide, rfl⟩
      · cases hp
    · cases hp
      exact ⟨.ok, by decide, rfl⟩
  | inter =>
    simp only [StoreOp.or, orsPrepare, orsinterstorePrepare, Db.view_eq] at hp
    split at hp
    · cases hp
      exact ⟨.ok, by decide, rfl⟩
    · cases hp
  | diff =>
    simp only [StoreOp.or, orsPrepare, orsdiffstorePrepare, Db.view_eq] at hp
    split at hp
    · next hdiff _ =>
      cases hp
      rw [StoreOp.scratchReplies, hdiff]
      exact ⟨.ok, by decide, rfl⟩
    · cases hp

theorem StoreOp.pn_replies {db : PnDb} {p : Prepared PnDb PnMsg}
    (hp : pnsPrepare srv (op.pn dst src srcs) db = some p) :
    AnswersAfter (op.scratchReplies srv db.keys src srcs) p := by
  cases op with
  | union =>
    simp only [StoreOp.pn, pnsPrepare, pnsunionstorePrepare, Db.view_eq] at hp
    split at hp
    · split at hp
      · cases hp
        exact ⟨.ok, by decide, rfl⟩
      · cases hp
    · cases hp
      exact ⟨.ok, by decide, rfl⟩
  | inter =>
    simp only [StoreOp.pn, pnsPrepare, pnsinterstorePrepare, Db.view_eq] at hp
    split at hp
    · cases hp
      exact ⟨.ok, by decide, rfl⟩
    · cases hp
  | diff =>
    simp only [StoreOp.pn, pnsPrepare, pnsdiffstorePrepare, Db.view_eq] at hp
    split at hp
    · next hdiff _ =>
      cases hp
      rw [StoreOp.scratchReplies, hdiff]
      exact ⟨.ok, by decide, rfl⟩
    · cases hp

end

/-! ### Type errors -/

section

variable {srv : Server}

theorem not_cleanError_rw (srv : Server) (op : StoreOp) (dst src : Sds) (srcs : List Sds)
    (db : RwDb) : ¬ CleanError Db.keys db (rwsPrepare srv (op.rw dst src srcs) db) := by
  rintro ⟨p, hp, hreplies, -⟩
  rcases StoreOp.rw_replies hp with ⟨-, hnone⟩ | ⟨-, hafter⟩
  · rw [hnone] at hreplies
    cases hreplies
  · exact hafter.ne_wrongtypeerr hreplies

theorem not_cleanError_or (srv : Server) (op : StoreOp) (dst src : Sds) (srcs : List Sds)
    (db : OrDb) : ¬ CleanError Db.keys db (orsPrepare srv (op.or dst src srcs) db) := by
  rintro ⟨p, hp, hreplies, -⟩
  exact (StoreOp.or_replies hp).ne_wrongtypeerr hreplies

theorem not_cleanError_pn (srv : Server) (op : StoreOp) (dst src : Sds) (srcs : List Sds)
    (db : PnDb) : ¬ CleanError Db.keys db (pnsPrepare srv (op.pn dst src srcs) db) := by
  rintro ⟨p, hp, hreplies, -⟩
  exact (StoreOp.pn_replies hp).ne_wrongtypeerr hreplies

/-- `ORSADD` does not say `WRONGTYPE`. -/
theorem not_cleanError_orsadd (srv : Server) (key : Sds) (members : List Sds) (db : OrDb) :
    ¬ CleanError Db.keys db (orsPrepare srv (.add key members) db) := by
  rintro ⟨p, hp, hreplies, -⟩
  simp only [orsPrepare, orsaddPrepare] at hp
  split at hp
  · split at hp
    · cases hp
      cases hreplies
    · cases hp
  · split at hp
    · cases hp
      cases hreplies
    · cases hp
      cases hreplies

/-- `PNSADD` does not say `WRONGTYPE`. -/
theorem not_cleanError_pnsadd (srv : Server) (key : Sds) (members : List Sds) (db : PnDb) :
    ¬ CleanError Db.keys db (pnsPrepare srv (.add key members) db) := by
  rintro ⟨p, hp, hreplies, -⟩
  simp only [pnsPrepare, pnsaddPrepare] at hp
  split at hp
  · split at hp
    · cases hp
      cases hreplies
    · cases hp
  · split at hp
    · cases hp
      cases hreplies
    · cases hp
      cases hreplies

theorem Keys.exists_other_of_not_setsAt {ks : Keys} {key : Sds} (h : ¬ ks.SetsAt [key]) :
    ∃ fields, ks key = some (.other fields) := by
  by_contra hnone
  refine h fun k hk fields hother => hnone ⟨fields, ?_⟩
  rwa [← List.mem_singleton.mp hk]

/-- **Type errors.** Where a named key holds a value of another type, `RWFSADD` and the three
commands that remove given members end in a clean error, and no other command does. -/
theorem type_errors_iff (srv : Server) :
    (∀ (c : RwCmd) (db : RwDb), ¬ db.keys.SetsAt c.plain.named →
      (CleanError Db.keys db (rwsPrepare srv c db) ↔ c.plain.IsAdd ∨ c.plain.IsRem)) ∧
    (∀ (c : OrCmd) (db : OrDb), ¬ db.keys.SetsAt c.plain.named →
      (CleanError Db.keys db (orsPrepare srv c db) ↔ c.plain.IsRem)) ∧
    ∀ (c : PnCmd) (db : PnDb), ¬ db.keys.SetsAt c.plain.named →
      (CleanError Db.keys db (pnsPrepare srv c db) ↔ c.plain.IsRem) := by
  refine ⟨fun c db h => ?_, fun c db h => ?_, fun c db h => ?_⟩
  · cases c with
    | add key members =>
      obtain ⟨fields, hkey⟩ := Keys.exists_other_of_not_setsAt h
      refine iff_of_true ⟨⟨db, [.wrongtypeerr], none⟩, ?_, rfl, rfl, rfl⟩ (.inl trivial)
      rw [rwsPrepare, rwsaddPrepare, Db.view_eq, hkey]
    | rem key members =>
      obtain ⟨fields, hkey⟩ := Keys.exists_other_of_not_setsAt h
      refine iff_of_true ⟨⟨db, [.wrongtypeerr], none⟩, ?_, rfl, rfl, rfl⟩ (.inr trivial)
      rw [rwsPrepare, rwsremPrepare, Db.view_eq, hkey]
    | unionstore dst src srcs =>
      exact iff_of_false (not_cleanError_rw srv .union dst src srcs db) (not_or.mpr ⟨id, id⟩)
    | diffstore dst src srcs =>
      exact iff_of_false (not_cleanError_rw srv .diff dst src srcs db) (not_or.mpr ⟨id, id⟩)
    | interstore dst src srcs =>
      exact iff_of_false (not_cleanError_rw srv .inter dst src srcs db) (not_or.mpr ⟨id, id⟩)
  · cases c with
    | add key members => exact iff_of_false (not_cleanError_orsadd srv key members db) id
    | rem key members =>
      obtain ⟨fields, hkey⟩ := Keys.exists_other_of_not_setsAt h
      refine iff_of_true ⟨⟨db, [.wrongtypeerr], none⟩, ?_, rfl, rfl, rfl⟩ trivial
      rw [orsPrepare, orsremPrepare, Db.view_eq, hkey]
    | unionstore dst src srcs =>
      exact iff_of_false (not_cleanError_or srv .union dst src srcs db) id
    | diffstore dst src srcs =>
      exact iff_of_false (not_cleanError_or srv .diff dst src srcs db) id
    | interstore dst src srcs =>
      exact iff_of_false (not_cleanError_or srv .inter dst src srcs db) id
  · cases c with
    | add key members => exact iff_of_false (not_cleanError_pnsadd srv key members db) id
    | rem key members =>
      obtain ⟨fields, hkey⟩ := Keys.exists_other_of_not_setsAt h
      refine iff_of_true ⟨⟨db, [.wrongtypeerr], none⟩, ?_, rfl, rfl, rfl⟩ trivial
      rw [pnsPrepare, pnsremPrepare, Db.view_eq, hkey]
    | unionstore dst src srcs =>
      exact iff_of_false (not_cleanError_pn srv .union dst src srcs db) id
    | diffstore dst src srcs =>
      exact iff_of_false (not_cleanError_pn srv .diff dst src srcs db) id
    | interstore dst src srcs =>
      exact iff_of_false (not_cleanError_pn srv .inter dst src srcs db) id

end

/-- Sets `d`, of `a`, and `s`, of `b`, and a key `t` with a value of another type, which is a hash
in a hash table if it has `fields`. -/
def mixedKeys (fields : Option SetObj) : Keys := fun k =>
  if k = bytes [100] then some (.set ⟨[bytes [97]], List.nodup_singleton _⟩)
  else if k = bytes [115] then some (.set ⟨[bytes [98]], List.nodup_singleton _⟩)
  else if k = bytes [116] then some (.other fields) else none

/-- A database of `mixedKeys`, with no entries. -/
def mixedDb (α : Type) (fields : Option SetObj) : SetDb α := ⟨mixedKeys fields, fun _ _ => none⟩

theorem not_setsAt_mixedKeys (fields : Option SetObj) {keys : List Sds} (h : [116] ∈ keys) :
    ¬ (mixedKeys fields).SetsAt keys := fun hsets => hsets [116] h fields rfl

/-- A clean error: `RWFSADD t a`. -/
theorem type_errors_rwsadd :
    CleanError Db.keys (mixedDb Reh none) (rwsPrepare (.of (inOrder 1) 0)
      (.add [116] [[97]]) (mixedDb Reh none)) :=
  ((type_errors_iff _).1 _ _ (not_setsAt_mixedKeys none (by decide))).mpr (.inl trivial)

/-- **Type errors that are not clean.** `RWFSUNIONSTORE d s t` says `WRONGTYPE` and `OK`, and
broadcasts the part of the union it came to; `ORSUNIONSTORE d t` and `PNSDIFFSTORE d d t` say both
too. `ORSADD t a` and `RWFSINTERSTORE t s` panic on a string and are carried out, or refused, on a
hash. `PNSINTERSTORE d u t`, with an absent `u`, says `OK`, and `RWFSDIFFSTORE u t` nothing. -/
theorem type_errors_not_clean :
    (∃ p, rwsPrepare (.of (inOrder 1) 0) (.unionstore [100] [115] [[116]])
        (mixedDb Reh none) = some p ∧
      p.replies = [.wrongtypeerr, .ok] ∧ p.msg.isSome) ∧
    (∃ p, orsPrepare (.of (inOrder 1) 0) (.unionstore [100] [116] [])
        (mixedDb Ore none) = some p ∧ p.replies = [.wrongtypeerr, .ok]) ∧
    (∃ p, pnsPrepare (.of (inOrder 1) 0) (.diffstore [100] [100] [[116]])
        (mixedDb Pne none) = some p ∧ p.replies = [.wrongtypeerr, .ok]) ∧
    (orsPrepare (.of (inOrder 1) 0) (.add [116] [[97]])
        (mixedDb Ore none)).isNone ∧
    (rwsPrepare (.of (inOrder 1) 0) (.interstore [116] [115] [])
        (mixedDb Reh none)).isNone ∧
    (∃ p, orsPrepare (.of (inOrder 1) 0) (.add [116] [[97]])
        (mixedDb Ore (some ⟨[[98]], by decide⟩)) = some p ∧
      p.replies = [.ok] ∧ p.msg.isSome) ∧
    (∃ p, rwsPrepare (.of (inOrder 1) 0) (.interstore [116] [115] [])
        (mixedDb Reh (some ⟨[[98]], by decide⟩)) = some p ∧
      p.replies = [.eleNexist]) ∧
    (∃ p, pnsPrepare (.of (inOrder 1) 0) (.interstore [100] [117] [[116]])
        (mixedDb Pne none) = some p ∧ p.replies = [.ok]) ∧
    ∃ p, rwsPrepare (.of (inOrder 1) 0) (.diffstore [117] [116] [])
        (mixedDb Reh none) = some p ∧ p.replies = [] := by
  refine ⟨⟨_, rfl, rfl, rfl⟩, ⟨_, rfl, rfl⟩, ⟨_, rfl, rfl⟩, rfl, rfl, ⟨_, rfl, rfl, rfl⟩,
    ⟨_, rfl, rfl⟩, ⟨_, rfl, rfl⟩, ⟨_, rfl, rfl⟩⟩

/-! ### One answer -/

section

variable {srv : Server}

/-- Where the sources and the destination are sets, a store command of the RWF-Set answers once if
the destination is there. -/
theorem answersOnce_rw_iff (srv : Server) (op : StoreOp) {dst src : Sds} {srcs : List Sds}
    {db : RwDb} (h : db.keys.SetsAt (dst :: src :: srcs)) :
    AnswersOnce (rwsPrepare srv (op.rw dst src srcs) db) ↔ db.keys dst ≠ none := by
  by_cases hdst : db.keys dst = none
  · refine iff_of_false ?_ fun hne => hne hdst
    rintro ⟨p, x, hp, hx⟩
    obtain ⟨-, hnone⟩ := (StoreOp.rw_replies hp).resolve_right fun hright => hright.1 hdst
    rw [hnone] at hx
    cases hx
  · rw [answersOnce_iff_isSome, iff_true_right hdst]
    · obtain ⟨o, ho⟩ := h.exists_set hdst
      cases op with
      | union => simp [StoreOp.rw, rwsPrepare, rwsunionstorePrepare, ho, RObj.asSet]
      | inter => simp [StoreOp.rw, rwsPrepare, rwsinterstorePrepare, ho, RObj.asSet]
      | diff =>
        obtain ⟨o', hdiff⟩ := h.tail.exists_sdiffResult srv
        simp [StoreOp.rw, rwsPrepare, rwsdiffstorePrepare, ho, hdiff, RObj.asSet]
    · intro p hp
      obtain ⟨-, hafter⟩ := (StoreOp.rw_replies hp).resolve_left fun hleft => hdst hleft.1
      rwa [h.tail.scratchReplies] at hafter

/-- Where the sources and the destination are sets, a store command of the OR-Set answers once if
the destination is there or the command only adds. -/
theorem answersOnce_or_iff (srv : Server) (op : StoreOp) {dst src : Sds} {srcs : List Sds}
    {db : OrDb} (h : db.keys.SetsAt (dst :: src :: srcs)) :
    AnswersOnce (orsPrepare srv (op.or dst src srcs) db) ↔ op = .union ∨ db.keys dst ≠ none := by
  rw [answersOnce_iff_isSome]
  · by_cases hdst : db.keys dst = none
    · cases op with
      | union => simp [StoreOp.or, orsPrepare, orsunionstorePrepare, hdst]
      | inter => simp [StoreOp.or, orsPrepare, orsinterstorePrepare, hdst]
      | diff => simp [StoreOp.or, orsPrepare, orsdiffstorePrepare, hdst]
    · obtain ⟨o, ho⟩ := h.exists_set hdst
      refine iff_of_true ?_ (.inr hdst)
      cases op with
      | union => simp [StoreOp.or, orsPrepare, orsunionstorePrepare, ho]
      | inter => simp [StoreOp.or, orsPrepare, orsinterstorePrepare, ho, RObj.asSet]
      | diff =>
        obtain ⟨o', hdiff⟩ := h.tail.exists_sdiffResult srv
        simp [StoreOp.or, orsPrepare, orsdiffstorePrepare, ho, hdiff, RObj.asSet]
  · intro p hp
    have hafter := StoreOp.or_replies hp
    rwa [h.tail.scratchReplies] at hafter

theorem answersOnce_pn_iff (srv : Server) (op : StoreOp) {dst src : Sds} {srcs : List Sds}
    {db : PnDb} (h : db.keys.SetsAt (dst :: src :: srcs)) :
    AnswersOnce (pnsPrepare srv (op.pn dst src srcs) db) ↔ op = .union ∨ db.keys dst ≠ none := by
  rw [answersOnce_iff_isSome]
  · by_cases hdst : db.keys dst = none
    · cases op with
      | union => simp [StoreOp.pn, pnsPrepare, pnsunionstorePrepare, hdst]
      | inter => simp [StoreOp.pn, pnsPrepare, pnsinterstorePrepare, hdst]
      | diff => simp [StoreOp.pn, pnsPrepare, pnsdiffstorePrepare, hdst]
    · obtain ⟨o, ho⟩ := h.exists_set hdst
      refine iff_of_true ?_ (.inr hdst)
      cases op with
      | union => simp [StoreOp.pn, pnsPrepare, pnsunionstorePrepare, ho]
      | inter => simp [StoreOp.pn, pnsPrepare, pnsinterstorePrepare, ho, RObj.asSet]
      | diff =>
        obtain ⟨o', hdiff⟩ := h.tail.exists_sdiffResult srv
        simp [StoreOp.pn, pnsPrepare, pnsdiffstorePrepare, ho, hdiff, RObj.asSet]
  · intro p hp
    have hafter := StoreOp.pn_replies hp
    rwa [h.tail.scratchReplies] at hafter

/-! #### Commands with members -/

theorem answersOnce_rwsadd (srv : Server) (key : Sds) (members : List Sds) (db : RwDb) :
    AnswersOnce (rwsPrepare srv (.add key members) db) := by
  rw [rwsPrepare, rwsaddPrepare]
  split
  · exact ⟨_, _, rfl, rfl⟩
  · obtain ⟨x, -, hx⟩ := answersAfter_rwsFinish true key [] .eleExist (by decide) _
    exact ⟨_, x, rfl, hx⟩

theorem answersOnce_rwsrem (srv : Server) (key : Sds) (members : List Sds) (db : RwDb) :
    AnswersOnce (rwsPrepare srv (.rem key members) db) := by
  rw [rwsPrepare, rwsremPrepare]
  split
  · exact ⟨_, _, rfl, rfl⟩
  · exact ⟨_, _, rfl, rfl⟩
  · obtain ⟨x, -, hx⟩ := answersAfter_rwsFinish false key [] .eleNexist (by decide) _
    exact ⟨_, x, rfl, hx⟩

theorem answersOnce_orsadd (srv : Server) {key : Sds} (members : List Sds) {db : OrDb}
    (h : db.keys.SetsAt [key]) : AnswersOnce (orsPrepare srv (.add key members) db) := by
  rw [orsPrepare, orsaddPrepare]
  split
  · next hother => exact absurd hother (h key List.mem_cons_self none)
  · dsimp only
    split
    · exact ⟨_, _, rfl, rfl⟩
    · exact ⟨_, _, rfl, rfl⟩

theorem answersOnce_orsrem (srv : Server) (key : Sds) (members : List Sds) (db : OrDb) :
    AnswersOnce (orsPrepare srv (.rem key members) db) := by
  rw [orsPrepare, orsremPrepare]
  split
  · exact ⟨_, _, rfl, rfl⟩
  · exact ⟨_, _, rfl, rfl⟩
  · dsimp only
    split
    · exact ⟨_, _, rfl, rfl⟩
    · exact ⟨_, _, rfl, rfl⟩

theorem answersOnce_pnsadd (srv : Server) {key : Sds} (members : List Sds) {db : PnDb}
    (h : db.keys.SetsAt [key]) : AnswersOnce (pnsPrepare srv (.add key members) db) := by
  rw [pnsPrepare, pnsaddPrepare]
  split
  · next hother => exact absurd hother (h key List.mem_cons_self none)
  · dsimp only
    split
    · exact ⟨_, _, rfl, rfl⟩
    · exact ⟨_, _, rfl, rfl⟩

theorem answersOnce_pnsrem (srv : Server) (key : Sds) (members : List Sds) (db : PnDb) :
    AnswersOnce (pnsPrepare srv (.rem key members) db) := by
  rw [pnsPrepare, pnsremPrepare]
  split
  · exact ⟨_, _, rfl, rfl⟩
  · exact ⟨_, _, rfl, rfl⟩
  · dsimp only
    split
    · exact ⟨_, _, rfl, rfl⟩
    · exact ⟨_, _, rfl, rfl⟩

end

/-- **One answer.** Where the named keys are absent or sets, a command completes with exactly one
reply if and only if it does not miss its destination: any store command of the RWF-Set does, and
those of the OR-Set and the PN-Set that remove. -/
theorem answers_once_iff (srv : Server) :
    (∀ (c : RwCmd) (db : RwDb), db.keys.SetsAt c.plain.named →
      (AnswersOnce (rwsPrepare srv c db) ↔ c.plain.HasDestination db.keys)) ∧
    (∀ (c : OrCmd) (db : OrDb), db.keys.SetsAt c.plain.named →
      (AnswersOnce (orsPrepare srv c db) ↔ c.plain.HasDestinationToCut db.keys)) ∧
    ∀ (c : PnCmd) (db : PnDb), db.keys.SetsAt c.plain.named →
      (AnswersOnce (pnsPrepare srv c db) ↔ c.plain.HasDestinationToCut db.keys) := by
  refine ⟨fun c db h => ?_, fun c db h => ?_, fun c db h => ?_⟩
  · cases c with
    | add key members => exact iff_of_true (answersOnce_rwsadd srv key members db) trivial
    | rem key members => exact iff_of_true (answersOnce_rwsrem srv key members db) trivial
    | unionstore dst src srcs => exact answersOnce_rw_iff srv .union h
    | diffstore dst src srcs => exact answersOnce_rw_iff srv .diff h
    | interstore dst src srcs => exact answersOnce_rw_iff srv .inter h
  · cases c with
    | add key members => exact iff_of_true (answersOnce_orsadd srv members h) trivial
    | rem key members => exact iff_of_true (answersOnce_orsrem srv key members db) trivial
    | unionstore dst src srcs =>
      exact iff_of_true ((answersOnce_or_iff srv .union h).mpr (.inl rfl)) trivial
    | diffstore dst src srcs => exact (answersOnce_or_iff srv .diff h).trans (or_iff_right nofun)
    | interstore dst src srcs =>
      exact (answersOnce_or_iff srv .inter h).trans (or_iff_right nofun)
  · cases c with
    | add key members => exact iff_of_true (answersOnce_pnsadd srv members h) trivial
    | rem key members => exact iff_of_true (answersOnce_pnsrem srv key members db) trivial
    | unionstore dst src srcs =>
      exact iff_of_true ((answersOnce_pn_iff srv .union h).mpr (.inl rfl)) trivial
    | diffstore dst src srcs => exact (answersOnce_pn_iff srv .diff h).trans (or_iff_right nofun)
    | interstore dst src srcs =>
      exact (answersOnce_pn_iff srv .inter h).trans (or_iff_right nofun)

end RemoveWin
