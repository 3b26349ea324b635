import RemoveWin.KeySpace.ZsetHandlers
import RemoveWin.OzSet.Scores

/-!
# The add-win priority queue in the key space

`t_ozset.c`, with the table of a queue at its key with `_ozets_` appended. The handlers are those of
`OzSet.Model`, on what a server holds.

As long as no named key is another named key with the suffix, servers do what the replicas of
`ozSet` do.

## Main results

* `RemoveWin.ozFamily_names` — the names that the handlers use
* `RemoveWin.ozServers_scores` — the scores of such runs
* `RemoveWin.ozServers_stale` — runs that leave wrong scores
-/

namespace RemoveWin

open Containers Replicated

/-- `ORI_RPQ_TABLE_SUFFIX`. -/
def ozSuffix : Sds := ofText "_ozets_"

/-- The queue that a command names. -/
def OzCmd.key : OzCmd → Sds
  | .add key _ _ _ => key
  | .incrby key _ _ _ => key
  | .rem key _ _ => key

section

variable {N : ℕ} (lim : EncodingLimits) (read : Sds → ℚ) (iter : Fin N → Iteration)
  (junk : Fin N → Garbage)

/-- The commands of the add-win priority queue. -/
def ozFamily : Family (Fin N) ZObj ZsetUpdate Oze ZReply OzCmd OzMsg where
  lim := lim
  suffix := ozSuffix
  view := RedisObj.asZObj read
  update _ _ := updateZset lim read
  prepare r c db := some (ozPrepare (.of iter r) c db).result
  effect r m db := ozEffect (junk r) m db

/-- **Servers that hold such queues**, with the tables in their key spaces. -/
def ozServers : OpBased (Fin N) (Option (Space Oze)) OzCmd OzMsg :=
  (ozFamily lim read iter junk).object

/-- Beside private tables, the family is that of the queues. -/
theorem ozFamily_beside : (ozFamily lim read iter junk).beside = ozSet iter junk := rfl

end

/-! ### Names -/

section

variable {D D' : Type} [ZsetTables D Oze] [ZsetTables D' Oze] {R : D → D' → Prop} {d : D} {d' : D'}
  {srv : Server}

theorem ozPrepare_rel {c : OzCmd} (h : Agrees c.key R) (hd : R d d')
    (hview : Tables.view d c.key = Tables.view d' c.key) :
    ZPrepared.Same R (fun m => m.key = c.key) (ozPrepare srv c d) (ozPrepare srv c d') := by
  cases c with
  | add key element value more =>
    replace h : Agrees key R := h
    replace hview : Tables.view d key = Tables.view d' key := hview
    simp only [ozPrepare, ozaddPrepare, checkArgcAndZsetType_congr hview]
    cases checkArgcAndZsetType (Tables.view d') key more with
    | some reply => exact .refused hd _
    | none =>
      cases value with
      | none => exact .refused hd _
      | some v =>
        obtain ⟨e, d₁, d₁', hget, hget', hnext⟩ := h.exists_get hd ozeNew element
        simp only [hget, hget']
        split_ifs
        · exact .refused hnext _
        · exact .accepted (h.put hnext _ _) rfl
  | incrby key element value more =>
    replace h : Agrees key R := h
    replace hview : Tables.view d key = Tables.view d' key := hview
    simp only [ozPrepare, ozincrbyPrepare, checkArgcAndZsetType_congr hview]
    cases checkArgcAndZsetType (Tables.view d') key more with
    | some reply => exact .refused hd _
    | none =>
      cases value with
      | none => exact .refused hd _
      | some v =>
        obtain ⟨o, d₁, d₁', hfind, hfind', hnext⟩ := h.exists_find hd element
        rw [hfind, hfind']
        cases o with
        | none => exact .refused hnext _
        | some e =>
          dsimp only
          split_ifs
          · exact .accepted hnext rfl
          · exact .refused hnext _
  | rem key element more =>
    replace h : Agrees key R := h
    replace hview : Tables.view d key = Tables.view d' key := hview
    simp only [ozPrepare, ozremPrepare, checkArgcAndZsetType_congr hview]
    cases checkArgcAndZsetType (Tables.view d') key more with
    | some reply => exact .refused hd _
    | none =>
      obtain ⟨o, d₁, d₁', hfind, hfind', hnext⟩ := h.exists_find hd element
      rw [hfind, hfind']
      cases o with
      | none => exact .refused hnext _
      | some e =>
        dsimp only
        split_ifs
        · exact .accepted hnext rfl
        · exact .refused hnext _

theorem ozEffect_rel {m : OzMsg} (h : Agrees m.key R) (hd : R d d') (junk : Garbage) :
    R (ozEffect junk m d) (ozEffect junk m d') := by
  obtain ⟨e, d₁, d₁', hget, hget', hnext⟩ := h.exists_get hd ozeNew m.element
  simp only [ozEffect, hget, hget']
  cases m.op with
  | add v tag =>
    dsimp only
    split_ifs
    · exact h.update (h.put hnext _ _) _
    · exact h.put hnext _ _
  | incrby v tags =>
    dsimp only
    split_ifs
    · exact h.update (h.put hnext _ _) _
    · exact h.put hnext _ _
  | rem tags =>
    dsimp only
    split_ifs
    · exact h.update (h.put hnext _ _) _
    · exact h.update (h.put hnext _ _) _
    · exact h.put hnext _ _

end

section

variable {N : ℕ} {lim : EncodingLimits} {read : Sds → ℚ} {iter : Fin N → Iteration}
  {junk : Fin N → Garbage} {S : Set Sds}

theorem ozFamily_names :
    (ozFamily lim read iter junk).Names (fun c => [c.key]) OzCmd.key OzMsg.key where
  mem c := List.mem_singleton_self c.key
  prepare _ c h hd hview := .some (ozPrepare_rel h hd (hview c.key (List.mem_singleton_self _)))
  effect r _ h hd := ozEffect_rel h hd (junk r)

/-! ### Runs whose names are apart -/

theorem readZsets_oze {s : Option (Space Oze)} {db : OzDb}
    (h : ZsetsHeld read ozSuffix S s db) (n x : Sds) :
    (readZsets read ozSuffix s).oze n x = db.oze n x := by
  rw [Db.oze, Db.oze, Db.elem, Db.elem, h.zelems_eq]

/-- The queues that clients name are in `S`, and no add is applied to the entry that `innate` points
to. -/
def ozAsked {N : ℕ} (read : Sds → ℚ) (S : Set Sds) :
    Cond (Fin N) (Option (Space Oze)) OzCmd OzMsg
  | _, .client _ c, _ => c.key ∈ S
  | g, .deliver r i, _ => ∀ d ∈ g.log[i]?,
      d.msg.op.Clear ((readZsets read ozSuffix (g.state r)).oze d.msg.key d.msg.element)

variable {g : Net (Fin N) (Option (Space Oze)) OzMsg}

theorem exists_ozSet_net (hS : Apart ozSuffix S)
    (hg : Reachable (ozServers lim read iter junk) (ozAsked read S) g) :
    ∃ h, Reachable (ozSet iter junk) ozClear h ∧
      Corresponds (fun _ => ZsetsHeld read ozSuffix S) g h := by
  rw [← ozFamily_beside lim read]
  refine (ozFamily_names.simulates hS fun _ => updateZset_keeps lim read).exists_net ?_ ?_ hg
  · intro g a g₁ ha
    cases a with
    | client r c => exact List.forall_mem_singleton.mpr ha
    | deliver r i => trivial
  · intro g a g₁ g' g₁' hcorr _ ha
    cases a with
    | client r c => trivial
    | deliver r i =>
      intro d hd
      rw [hcorr.log] at hd
      rw [← readZsets_oze (hcorr.state r)]
      exact ha d hd

/-- **The add-win priority queue converges where names are apart and no add finds `innate` at its
own entry.** All servers are up. Once everything has been delivered, an element is in the sorted set
of every server exactly if one of its tags was added and never removed; its score is the value of
the greatest live tag plus the increments of the live tag with the greatest count; and so the
servers agree. Tags come from unbounded counters: in the code they are exact below `INT_MAX`. -/
theorem ozServers_scores (hS : Apart ozSuffix S)
    (hg : Reachable (ozServers lim read iter junk) (ozAsked read S) g) (hd : Delivered g)
    (r : Fin N) (s x : Sds) :
    (g.state r).isSome ∧
    (((readZsets read ozSuffix (g.state r)).keys.score s x).isSome ↔
      ∃ t, LiveTag (ozItems g.log s x) t) ∧
    (∀ q, (readZsets read ozSuffix (g.state r)).keys.score s x = some q →
      OzScore (ozItems g.log s x) q) ∧
    ∀ r', (readZsets read ozSuffix (g.state r)).keys.score s x =
      (readZsets read ozSuffix (g.state r')).keys.score s x := by
  obtain ⟨h, hh, hcorr⟩ := exists_ozSet_net hS hg
  have hd' : Delivered h := hcorr.delivered_iff.mpr hd
  have hscores := ozSet_scores hh hd' r s x
  rw [hcorr.log] at hscores
  simp only [fun r => Up.score_eq (hcorr.state r)]
  exact ⟨(hcorr.state r).isSome, hscores⟩

end

instance {N : ℕ} (read : Sds → ℚ) (names : List Sds) (g : Net (Fin N) (Option (Space Oze)) OzMsg)
    (a : Act (Fin N) OzCmd) (g' : Net (Fin N) (Option (Space Oze)) OzMsg) :
    Decidable (ozAsked read {k | k ∈ names} g a g') :=
  match a with
  | .client _ c => inferInstanceAs (Decidable (c.key ∈ names))
  | .deliver r i => inferInstanceAs (Decidable (∀ d ∈ g.log[i]?,
      d.msg.op.Clear ((readZsets read ozSuffix (g.state r)).oze d.msg.key d.msg.element)))

/-- Server 1 adds an element, removes it, adds it again and increases it. Server 0 gets the
increment first, then the new add, then the old add and its remove. -/
theorem ozServers_scores_crossing :
    ∃ g, Reachable (ozServers {} 0 (inOrder 2) fun _ _ _ _ => 0)
        (ozAsked 0 {k | k ∈ [ofText "s"]}) g ∧
      g.appliedIds 0 = [3, 2, 0, 1] ∧ g.appliedIds 1 = [0, 1, 2, 3] ∧
      (readZsets 0 ozSuffix (g.state 1)).keys.score (ofText "s") (ofText "a") = some 7 ∧
      (readZsets 0 ozSuffix (g.state 0)).keys.score (ofText "s") (ofText "a") =
        (readZsets 0 ozSuffix (g.state 1)).keys.score (ofText "s") (ofText "a") := by
  obtain ⟨g, hg, hids, h0, h1, hscore⟩ :=
    (ozServers {} 0 (inOrder 2) fun _ _ _ _ => 0).exists_reachable
      (ozAsked 0 {k | k ∈ [ofText "s"]})
      (fun g => (∀ r, ∀ i < g.log.length, i ∈ g.appliedIds r) ∧ g.appliedIds 0 = [3, 2, 0, 1] ∧
        g.appliedIds 1 = [0, 1, 2, 3] ∧
        (readZsets 0 ozSuffix (g.state 1)).keys.score (ofText "s") (ofText "a") = some 7)
      [.client 1 (.add (ofText "s") (ofText "a") (some 1) []),
        .client 1 (.rem (ofText "s") (ofText "a") []),
        .client 1 (.add (ofText "s") (ofText "a") (some 5) []),
        .client 1 (.incrby (ofText "s") (ofText "a") (some 2) []),
        .deliver 0 3, .deliver 0 2, .deliver 0 0, .deliver 0 1] (by decide +kernel)
  have hd := (Reachable.wellFormed hg).delivered_of_ids hids
  exact ⟨g, hg, h0, h1, hscore, (ozServers_scores (by decide) hg hd 0 _ _).2.2.2 1⟩

/-- **Wrong scores.** The same commands with the new add last: server 0 has applied everything, and
its score lacks the value. And a queue at the key of a table: `OZADD s_ozets_ y 1` and `OZADD s x 2`
put `x` into the sorted set `s_ozets_`, where no tag of it was added. -/
theorem ozServers_stale :
    (∃ g, Reachable (ozServers {} 0 (inOrder 2) fun _ _ _ _ => 0) anyOrder g ∧
      Delivered g ∧ LiveTag (ozItems g.log (ofText "s") (ofText "a")) ⟨1, 1⟩ ∧
      (readZsets 0 ozSuffix (g.state 0)).keys.score (ofText "s") (ofText "a") = some 2 ∧
      (readZsets 0 ozSuffix (g.state 1)).keys.score (ofText "s") (ofText "a") = some 7 ∧
      ¬ OzScore (ozItems g.log (ofText "s") (ofText "a")) 2) ∧
    ∃ g, Reachable (ozServers {} 0 (inOrder 1) fun _ _ _ _ => 0) anyOrder g ∧
      Delivered g ∧
      ((readZsets 0 ozSuffix (g.state 0)).keys.score (ofText "s_ozets_") (ofText "x")).isSome ∧
      ozItems g.log (ofText "s_ozets_") (ofText "x") = [] := by
  constructor
  · obtain ⟨g, hg, hids, hitems, h0, h1⟩ :=
      (ozServers {} 0 (inOrder 2) fun _ _ _ _ => 0).exists_reachable anyOrder
        (fun g => (∀ r, ∀ i < g.log.length, i ∈ g.appliedIds r) ∧
          ozItems g.log (ofText "s") (ofText "a") =
            [.add ⟨0, 1⟩ 1, .rem ⟨0, 1⟩, .add ⟨1, 1⟩ 5, .incr ⟨1, 1⟩ 2] ∧
          (readZsets 0 ozSuffix (g.state 0)).keys.score (ofText "s") (ofText "a") = some 2 ∧
          (readZsets 0 ozSuffix (g.state 1)).keys.score (ofText "s") (ofText "a") = some 7)
        [.client 1 (.add (ofText "s") (ofText "a") (some 1) []),
          .client 1 (.rem (ofText "s") (ofText "a") []),
          .client 1 (.add (ofText "s") (ofText "a") (some 5) []),
          .client 1 (.incrby (ofText "s") (ofText "a") (some 2) []),
          .deliver 0 3, .deliver 0 0, .deliver 0 1, .deliver 0 2] (by decide +kernel)
    refine ⟨g, hg, (Reachable.wellFormed hg).delivered_of_ids hids, ?_, h0, h1, ?_⟩
    · rw [hitems]
      exact ⟨⟨5, by simp⟩, by simp⟩
    · rw [hitems]
      rintro ⟨i, v, a, ⟨-, hi⟩, -, hv, ⟨⟨w, hw⟩, ha⟩, -, hq⟩
      obtain ⟨rfl, rfl⟩ : i = ⟨1, 1⟩ ∧ v = 5 := by
        simp at hv hi
        grind
      obtain rfl : a = ⟨1, 1⟩ := by
        simp at hw ha
        grind
      exact absurd hq (by decide +kernel)
  · obtain ⟨g, hg, hids, hscore, hitems⟩ :=
      (ozServers {} 0 (inOrder 1) fun _ _ _ _ => 0).exists_reachable anyOrder
        (fun g => (∀ r, ∀ i < g.log.length, i ∈ g.appliedIds r) ∧
          ((readZsets 0 ozSuffix (g.state 0)).keys.score (ofText "s_ozets_") (ofText "x")).isSome ∧
          ozItems g.log (ofText "s_ozets_") (ofText "x") = [])
        [.client 0 (.add (ofText "s_ozets_") (ofText "y") (some 1) []),
          .client 0 (.add (ofText "s") (ofText "x") (some 2) [])] (by decide +kernel)
    exact ⟨g, hg, (Reachable.wellFormed hg).delivered_of_ids hids, hscore, hitems⟩

end RemoveWin
