import RemoveWin.KeySpace.Handlers
import RemoveWin.PlainSet

/-!
# Handlers of the set commands

What the handlers of the three set families have in common. They look at the sets they name before
they access a table, so what they compute from the sets does not depend on anything else.
-/

namespace RemoveWin

open Containers Replicated

/-- What a prepare phase leaves behind, as a result of the handlers of a family. -/
def Prepared.result {σ Msg : Type} (p : Prepared σ Msg) : σ × List Reply × Option Msg :=
  (p.state, p.replies, p.msg)

section

variable {σ σ' Msg : Type} {R : σ → σ' → Prop} {G : Msg → Prop}

/-- Prepare phases that answer and send the same, which is `G`, and leave states related. -/
def Prepared.Same (R : σ → σ' → Prop) (G : Msg → Prop) (p : Prepared σ Msg)
    (q : Prepared σ' Msg) : Prop := Answered R G p.result q.result

variable {s : σ} {s' : σ'}

theorem Prepared.Same.refused (h : R s s') (replies : List Reply) :
    Same R G ⟨s, replies, none⟩ ⟨s', replies, none⟩ := ⟨h, rfl, nofun⟩

theorem Prepared.Same.accepted (h : R s s') (replies : List Reply) {m : Msg} (hm : G m) :
    Same R G ⟨s, replies, some m⟩ ⟨s', replies, some m⟩ := by
  refine ⟨h, rfl, ?_⟩
  rintro _ ⟨⟩
  exact hm

section

variable {ε : Type} {p : σ × List ε} {p' : σ' × List ε} (mk : List ε → Msg)

/-- A loop has gone through, and what it collected is sent. -/
theorem Prepared.Same.sent (h : R p.1 p'.1 ∧ p.2 = p'.2) (replies : List Reply)
    (hmk : G (mk p.2)) :
    Same R G ⟨p.1, replies, some (mk p.2)⟩ ⟨p'.1, replies, some (mk p'.2)⟩ := by
  rw [← h.2]
  exact .accepted h.1 replies hmk

/-- A loop has gone through, and what it collected is sent, if it is anything. -/
theorem Prepared.Same.sent_or_refused (h : R p.1 p'.1 ∧ p.2 = p'.2) (refusal : Reply)
    (hmk : G (mk p.2)) : Option.Rel (Same R G)
      (if p.2.isEmpty then some ⟨p.1, [refusal], none⟩ else some ⟨p.1, [.ok], some (mk p.2)⟩)
      (if p'.2.isEmpty then some ⟨p'.1, [refusal], none⟩
        else some ⟨p'.1, [.ok], some (mk p'.2)⟩) := by
  rw [← h.2]
  split_ifs
  · exact .some (.refused h.1 _)
  · exact .some (.accepted h.1 _ hmk)

end

theorem rel_map_result {o : Option (Prepared σ Msg)} {o' : Option (Prepared σ' Msg)}
    (h : Option.Rel (Prepared.Same R G) o o') :
    Option.Rel (Answered R G) (o.map Prepared.result) (o'.map Prepared.result) := by
  cases h with
  | none => exact .none
  | some h => exact .some h

end

/-! ### What is computed from sets -/

section

variable {srv : Server} {ks ks' : Keys}

theorem Keys.lacks_congr {k : Sds} (h : ks k = ks' k) (x : Sds) : ks.lacks k x = ks'.lacks k x := by
  rw [Keys.lacks, Keys.lacks, h]

theorem sunionResult_congr {keys : List Sds} (h : ∀ k ∈ keys, ks k = ks' k) (dst : SetObj) :
    sunionResult srv ks keys dst = sunionResult srv ks' keys dst := by
  induction keys generalizing dst with
  | nil => rfl
  | cons k keys ih =>
    have htail : ∀ k' ∈ keys, ks k' = ks' k' := fun k' hk' => h k' (List.mem_cons_of_mem k hk')
    rw [sunionResult, sunionResult, h k List.mem_cons_self]
    cases ks' k with
    | none => exact ih htail dst
    | some obj =>
      cases obj with
      | set o => exact ih htail _
      | other fields => rfl

theorem sdiffResult_congr {src : Sds} {srcs : List Sds} (h : ∀ k ∈ src :: srcs, ks k = ks' k)
    (dst : SetObj) : sdiffResult srv ks src srcs dst = sdiffResult srv ks' src srcs dst := by
  rw [sdiffResult, sdiffResult, h src List.mem_cons_self,
    sunionResult_congr fun k hk => h k (List.mem_cons_of_mem src hk)]

theorem sinterTest_congr {keys : List Sds} (h : ∀ k ∈ keys, ks k = ks' k) (x : Sds) :
    sinterTest ks x keys = sinterTest ks' x keys := by
  induction keys with
  | nil => rfl
  | cons k keys ih =>
    rw [sinterTest, sinterTest, h k List.mem_cons_self,
      ih fun k' hk' => h k' (List.mem_cons_of_mem k hk')]

theorem sinterLoop_congr {rest : List Sds} (h : ∀ k ∈ rest, ks k = ks' k) (xs : List Sds)
    (dst : SetObj) : sinterLoop ks rest xs dst = sinterLoop ks' rest xs dst := by
  induction xs generalizing dst with
  | nil => rfl
  | cons x xs ih =>
    simp only [sinterLoop, sinterTest_congr h x, ih]

theorem sinterResult_congr {src : Sds} {srcs : List Sds} (h : ∀ k ∈ src :: srcs, ks k = ks' k)
    (dst : SetObj) : sinterResult srv ks src srcs dst = sinterResult srv ks' src srcs dst := by
  simp only [sinterResult, h src List.mem_cons_self,
    sinterLoop_congr fun k hk => h k (List.mem_cons_of_mem src hk)]

end

/-! ### In the key space -/

/-- The names of a command are in `S`. -/
def SetCmd.NamedIn (S : Set Sds) (c : SetCmd) : Prop := ∀ k ∈ c.named, k ∈ S

instance (names : List Sds) (c : SetCmd) : Decidable (c.NamedIn {k | k ∈ names}) :=
  inferInstanceAs (Decidable (∀ k ∈ c.named, k ∈ names))

section

variable {ι ε A Cmd Msg : Type} {suffix : Sds} {S : Set Sds} {P : RedisObj ε → Prop}

/-- **What is visible at any key.** A table is no set. -/
theorem Private.visible_eq {sp : Space ε} {db : SetDb ε}
    (h : Private RedisObj.asRObj suffix P S sp db) (k : Sds) :
    (readSets suffix (some sp)).keys.visible k = db.keys.visible k := by
  show Keys.visible (fun k => (sp k).map RedisObj.asRObj) k = db.keys.visible k
  rcases h.views_eq k with heq | ⟨hnone, o, ho, heq⟩
  · rw [Keys.visible, Keys.visible, heq]
  · have hview : o.asRObj = .other (if o.encoding = .ht then some o.fields else none) :=
      if_neg (by simp [ho])
    rw [Keys.visible, Keys.visible, heq, hnone, hview]

/-- A server that is up, and holds the sets and the metadata of `db`. -/
abbrev SetsHeld (suffix : Sds) (S : Set Sds) : Option (Space ε) → SetDb ε → Prop :=
  Up (Private RedisObj.asRObj suffix RedisObj.IsPlainSet S)

section

variable {s : Option (Space ε)} {db : SetDb ε}

theorem Up.visible_eq (h : Up (Private RedisObj.asRObj suffix P S) s db) (k : Sds) :
    (readSets suffix s).keys.visible k = db.keys.visible k := by
  obtain ⟨sp, rfl, hsp⟩ := h
  exact hsp.visible_eq k

theorem Up.elems_eq (h : SetsHeld suffix S s db) :
    (readSets suffix s).elems = db.elems := by
  obtain ⟨sp, rfl, hsp⟩ := h
  exact hsp.table_eq fun o ho => ho.entry_eq_none

end

end

end RemoveWin
