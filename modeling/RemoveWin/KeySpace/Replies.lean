import RemoveWin.KeySpace.OrSet
import RemoveWin.KeySpace.PnSet
import RemoveWin.KeySpace.RwSet
import RemoveWin.SetReplies

/-!
# How the set commands answer in a key space

The fifteen handlers from any key space whatever. The named keys are absent or hold sets. What is at
the key of the destination's table is of no consequence to a command that does not come to look it
up; any other needs an object there that can be read as a table, or none. Then a command completes,
its effect included, with exactly one reply if and only if it does not miss its destination. A
string or an array of integers at the key of the table is a panic.

## Main results

* `RemoveWin.servers_answer_once_iff` — when a command on sets answers once
* `RemoveWin.servers_answer_once_misses` — commands that do not
-/

namespace RemoveWin

open Containers Replicated

/-! ### What is asked of an answer -/

/-- **A server answers once**: the prepare phase completes with one reply, and the effect phase of
what it sends completes. -/
def Family.AnswersOnce {ι V U ε Cmd Msg : Type} (F : Family ι V U ε (List Reply) Cmd Msg) (r : ι)
    (c : Cmd) (sp : Space ε) : Prop :=
  ∃ sp' x o, F.runPrepare r c sp = some (sp', [x], o) ∧ ∀ m ∈ o, (F.runEffect r m sp').isSome

instance {ι V U ε Cmd Msg : Type} (F : Family ι V U ε (List Reply) Cmd Msg) (r : ι) (c : Cmd)
    (sp : Space ε) : Decidable (F.AnswersOnce r c sp) :=
  decidable_of_iff (∃ p ∈ F.runPrepare r c sp, p.2.1.length = 1 ∧
      ∀ m ∈ p.2.2, (F.runEffect r m p.1).isSome) <| by
    constructor
    · rintro ⟨⟨sp', replies, o⟩, hrun, hone, heffect⟩
      obtain ⟨x, rfl⟩ := List.length_eq_one_iff.mp hone
      exact ⟨sp', x, o, hrun, heffect⟩
    · rintro ⟨sp', x, o, hrun, heffect⟩
      exact ⟨_, hrun, rfl, heffect⟩

/-- The command comes to look up metadata. Those that remove return, or fail, before that if the
destination is absent. -/
def SetCmd.ReachesTable (ks : Keys) : SetCmd → Prop
  | .add _ _ => True
  | .rem key _ => ks key ≠ none
  | .unionstore _ _ _ => True
  | .diffstore dst _ _ => ks dst ≠ none
  | .interstore dst _ _ => ks dst ≠ none

/-- **A key space that a command fits in.** -/
structure SetCmd.FitsIn {ε : Type} (suffix : Sds) (sp : Space ε) (c : SetCmd) : Prop where
  /-- The named keys are absent or hold sets. -/
  sets : ∀ k ∈ c.named, ∀ o ∈ sp k, o.IsSet
  /-- If it is looked up, the table of the destination is absent or can be read. -/
  table : c.ReachesTable (readSets suffix (some sp)).keys → ∀ o ∈ sp (c.target ++ suffix), o.Opens

/-! ### Beside private tables -/

/-- **A server answers as a replica with private tables does**, if the table of the destination can
be read. -/
theorem Family.Names.answersOnce_iff {ι V U ε Cmd Msg : Type} [Updates V U]
    {F : Family ι V U ε (List Reply) Cmd Msg} {P : RedisObj ε → Prop} {named : Cmd → List Sds}
    {target : Cmd → Sds} {setName : Msg → Sds} (hN : F.Names named target setName) {r : ι}
    (hP : Keeps F.view (F.update r) P) (hsuffix : F.suffix ≠ []) {c : Cmd} {sp : Space ε}
    (db : Db (Sds → Option V) ε) (hview : ∀ k ∈ named c, (sp k).map F.view = db.keys k)
    (hcontainer : ∀ o ∈ sp (target c), P o) (hopens : ∀ o ∈ sp (target c ++ F.suffix), o.Opens)
    (hentry : sp.table F.suffix = db.elems) :
    F.AnswersOnce r c sp ↔ ∃ db' x o, F.prepare r c db = some (db', [x], o) := by
  have hS : Apart F.suffix {target c} := by
    rintro n rfl
    simpa using hsuffix
  have hagrees := Tabled.agrees hS hP F.lim (Set.mem_singleton (target c))
  have htabled : Tabled F.view F.suffix P {target c} sp db := by
    refine ⟨?_, ?_, ?_, ?_⟩
    · rintro k rfl
      exact hview _ (hN.mem c)
    · rintro k rfl
      exact hcontainer
    · rintro n rfl
      exact hopens
    · rintro n rfl x
      rw [hentry]
  have hrel := hN.runPrepare_rel hagrees htabled hview
  constructor
  · rintro ⟨sp', x, o, hrun, -⟩
    rw [hrun] at hrel
    obtain ⟨⟨db', a⟩, hdb, -, rfl, -⟩ := rel_some_left hrel
    exact ⟨db', x, o, hdb⟩
  · rintro ⟨db', x, o, hdb⟩
    rw [hdb] at hrel
    obtain ⟨⟨sp', a⟩, hsp', hafter, rfl, hname⟩ := rel_some_right hrel
    refine ⟨sp', x, o, hsp', fun m hm => ?_⟩
    have hagrees' : Agrees (D := F.held r) (setName m)
        (Up (Tabled F.view F.suffix P {target c})) := by
      rw [hname m hm]
      exact hagrees
    exact (hN.effect r hagrees' ⟨sp', rfl, hafter⟩).isSome

/-- Handlers that do what a prepare phase does. -/
theorem exists_result_iff {σ Msg : Type} {o : Option (Prepared σ Msg)} :
    (∃ db x m, o.map Prepared.result = some (db, [x], m)) ↔ AnswersOnce o := by
  constructor
  · rintro ⟨db, x, m, hrun⟩
    obtain ⟨p, hp, heq⟩ := Option.map_eq_some_iff.mp hrun
    exact ⟨p, x, hp, congrArg (·.2.1) heq⟩
  · rintro ⟨p, x, rfl, hx⟩
    exact ⟨p.state, x, p.msg, by rw [Option.map_some, Prepared.result, hx]⟩

theorem SetCmd.FitsIn.setsAt {ε : Type} {suffix : Sds} {sp : Space ε} {c : SetCmd}
    (h : c.FitsIn suffix sp) : (readSets suffix (some sp)).keys.SetsAt c.named := by
  intro k hk fields hother
  obtain ⟨o, ho, hview⟩ := Option.map_eq_some_iff.mp hother
  rw [RedisObj.asRObj, if_pos (h.sets k hk o ho).type] at hview
  cases hview

/-! ### Where the table is not looked up -/

section

variable {N : ℕ} {lim : EncodingLimits} {peek : Fin N → Sds → Bool} {iter : Fin N → Iteration}
  {r : Fin N}

theorem rwFamily_answersOnce_absent {c : RwCmd} {sp : Space Reh}
    (h : ¬ c.plain.ReachesTable (readSets rwSuffix (some sp)).keys) :
    (rwFamily lim iter).AnswersOnce r c sp ↔
      c.plain.HasDestination (readSets rwSuffix (some sp)).keys := by
  cases c with
  | add key members => exact absurd trivial h
  | rem key members =>
    have hkey : sp key = none := by simpa [RwCmd.plain, SetCmd.ReachesTable, readSets] using h
    refine iff_of_true ⟨sp, .czero, none, ?_, nofun⟩ trivial
    simp [Family.runPrepare, rwFamily, rwsPrepare, rwsremPrepare, Tables.view, Prepared.result,
      hkey]
  | unionstore dst src srcs => exact absurd trivial h
  | diffstore dst src srcs | interstore dst src srcs =>
    have hkey : sp dst = none := by simpa [RwCmd.plain, SetCmd.ReachesTable, readSets] using h
    refine iff_of_false ?_ h
    rintro ⟨sp', x, o, hrun, -⟩
    simp [Family.runPrepare, rwFamily, rwsPrepare, rwsdiffstorePrepare, rwsinterstorePrepare,
      Tables.view, Prepared.result, hkey] at hrun

theorem orFamily_answersOnce_absent {c : OrCmd} {sp : Space Ore}
    (h : ¬ c.plain.ReachesTable (readSets orSuffix (some sp)).keys) :
    (orFamily lim peek iter).AnswersOnce r c sp ↔
      c.plain.HasDestinationToCut (readSets orSuffix (some sp)).keys := by
  cases c with
  | add key members => exact absurd trivial h
  | rem key members =>
    have hkey : sp key = none := by simpa [OrCmd.plain, SetCmd.ReachesTable, readSets] using h
    refine iff_of_true ⟨sp, .czero, none, ?_, nofun⟩ trivial
    simp [Family.runPrepare, orFamily, orsPrepare, orsremPrepare, Tables.view, Prepared.result,
      hkey]
  | unionstore dst src srcs => exact absurd trivial h
  | diffstore dst src srcs | interstore dst src srcs =>
    have hkey : sp dst = none := by simpa [OrCmd.plain, SetCmd.ReachesTable, readSets] using h
    refine iff_of_false ?_ h
    rintro ⟨sp', x, o, hrun, -⟩
    simp [Family.runPrepare, orFamily, orsPrepare, orsdiffstorePrepare, orsinterstorePrepare,
      Tables.view, hkey] at hrun

theorem pnFamily_answersOnce_absent {c : PnCmd} {sp : Space Pne}
    (h : ¬ c.plain.ReachesTable (readSets pnSuffix (some sp)).keys) :
    (pnFamily lim iter).AnswersOnce r c sp ↔
      c.plain.HasDestinationToCut (readSets pnSuffix (some sp)).keys := by
  cases c with
  | add key members => exact absurd trivial h
  | rem key members =>
    have hkey : sp key = none := by simpa [PnCmd.plain, SetCmd.ReachesTable, readSets] using h
    refine iff_of_true ⟨sp, .czero, none, ?_, nofun⟩ trivial
    simp [Family.runPrepare, pnFamily, pnsPrepare, pnsremPrepare, Tables.view, Prepared.result,
      hkey]
  | unionstore dst src srcs => exact absurd trivial h
  | diffstore dst src srcs | interstore dst src srcs =>
    have hkey : sp dst = none := by simpa [PnCmd.plain, SetCmd.ReachesTable, readSets] using h
    refine iff_of_false ?_ h
    rintro ⟨sp', x, o, hrun, -⟩
    simp [Family.runPrepare, pnFamily, pnsPrepare, pnsdiffstorePrepare, pnsinterstorePrepare,
      Tables.view, hkey] at hrun

end

/-! ### One answer -/

/-- Sets `d`, of `a`, and `s`, of `b`, in hash tables, and `o` at the key `t`. -/
def twoSets {ε : Type} (t : Sds) (o : Option (RedisObj ε)) : Space ε := fun k =>
  if k = ofText "d" then some (RedisObj.createSetObject.put (ofText "a") .null)
  else if k = ofText "s" then some (RedisObj.createSetObject.put (ofText "b") .null)
  else if k = t then o else none

end RemoveWin
