import RemoveWin.KeySpace.Private

/-!
# Handlers in the key space

The handlers of a family of commands are written for any store of containers with tables. On what a
server holds they are what the code does: the state of a server is its key space, or nothing once a
handler has panicked or followed a bad pointer. On a database with private tables they are the
replicated objects of this development. The two agree in every run whose names are apart.

## Main definitions

* `RemoveWin.Family` — the handlers of a family
* `RemoveWin.Family.object`, `Family.beside` — the object over key spaces, and the one beside
  private tables
* `RemoveWin.Family.Names` — the names that handlers use

## Main results

* `RemoveWin.Family.Names.simulates` — the first object does what the second does
-/

namespace RemoveWin

open Containers Replicated

/-- Prepare phases that answer and send the same, which is `good`, and leave states related. -/
def Answered {σ σ' A Msg : Type} (R : σ → σ' → Prop) (good : Msg → Prop) (a : σ × A × Option Msg)
    (b : σ' × A × Option Msg) : Prop := R a.1 b.1 ∧ a.2 = b.2 ∧ ∀ m ∈ a.2.2, good m

/-- The handlers of a family, by the server that runs them: `A` is what they answer. -/
structure Family (ι V U ε A Cmd Msg : Type) where
  /-- The limits at which encodings change. -/
  lim : EncodingLimits
  /-- The suffix of the tables. -/
  suffix : Sds
  /-- What is seen of a container. -/
  view : RedisObj ε → V
  /-- What is done to a container. -/
  update : ι → Sds → U → Option (RedisObj ε) → Option (RedisObj ε)
  /-- The prepare phases. -/
  prepare : ∀ {D : Type} [Tables D Sds Sds V U ε], ι → Cmd → D → Option (D × A × Option Msg)
  /-- The effect phases. -/
  effect : ∀ {D : Type} [Tables D Sds Sds V U ε], ι → Msg → D → D

namespace Family

variable {ι V U ε A Cmd Msg : Type} (F : Family ι V U ε A Cmd Msg)

/-- What a server of the family holds. -/
abbrev held (r : ι) : Type := Held F.lim F.suffix F.view (F.update r)

/-- A prepare phase in a key space; `none` if it does not complete. -/
def runPrepare (r : ι) (c : Cmd) (sp : Space ε) : Option (Space ε × A × Option Msg) :=
  (F.prepare (D := F.held r) r c (some sp)).bind fun p => Option.map (·, p.2) p.1

/-- An effect phase in a key space; `none` if it does not complete. -/
def runEffect (r : ι) (m : Msg) (sp : Space ε) : Option (Space ε) :=
  F.effect (D := F.held r) r m (some sp)

/-- **The servers of a family.** A server that has died does nothing any more. -/
def object : OpBased ι (Option (Space ε)) Cmd Msg where
  init _ := some fun _ => none
  prepare r c s := s.bind fun sp => (F.runPrepare r c sp).map fun p => (some p.1, p.2.2)
  effect r m s := s.bind (F.runEffect r m)

/-- **The same handlers beside private tables.** -/
def beside [Updates V U] : OpBased ι (Db (Sds → Option V) ε) Cmd Msg where
  init _ := ⟨fun _ => none, fun _ _ => none⟩
  prepare r c db := (F.prepare r c db).map fun p => (p.1, p.2.2)
  effect r m db := F.effect r m db

/-- **The names that handlers use.** A prepare phase looks at the keys that the command names, and
accesses one of them, as the effect phase of its message does. -/
structure Names (named : Cmd → List Sds) (target : Cmd → Sds) (setName : Msg → Sds) : Prop where
  mem : ∀ c, target c ∈ named c
  prepare : ∀ {D D' : Type} [Tables D Sds Sds V U ε] [Tables D' Sds Sds V U ε] {R : D → D' → Prop}
    {d : D} {d' : D'} (r : ι) {c : Cmd}, Agrees (target c) R → R d d' →
    (∀ k ∈ named c, Tables.view d k = Tables.view d' k) →
      Option.Rel (Answered R fun m => setName m = target c) (F.prepare r c d) (F.prepare r c d')
  effect : ∀ {D D' : Type} [Tables D Sds Sds V U ε] [Tables D' Sds Sds V U ε] {R : D → D' → Prop}
    {d : D} {d' : D'} (r : ι) {m : Msg}, Agrees (setName m) R → R d d' →
      R (F.effect r m d) (F.effect r m d')

variable [Updates V U] {F} {P : RedisObj ε → Prop} {S : Set Sds} {named : Cmd → List Sds}
  {target : Cmd → Sds} {setName : Msg → Sds}

/-- A server that is up, and holds what a replica with private tables holds. -/
abbrev Holds (F : Family ι V U ε A Cmd Msg) (P : RedisObj ε → Prop) (S : Set Sds) :
    Option (Space ε) → Db (Sds → Option V) ε → Prop := Up (Private F.view F.suffix P S)

/-- What a prepare phase does in a key space and beside private tables, if its operations agree. -/
theorem Names.runPrepare_rel (hN : F.Names named target setName)
    {R : Space ε → Db (Sds → Option V) ε → Prop} {r : ι} {c : Cmd} {sp : Space ε}
    {db : Db (Sds → Option V) ε} (h : Agrees (D := F.held r) (target c) (Up R)) (hR : R sp db)
    (hview : ∀ k ∈ named c, (sp k).map F.view = db.keys k) :
    Option.Rel (Answered R fun m => setName m = target c) (F.runPrepare r c sp)
      (F.prepare r c db) := by
  have hrel := hN.prepare r h ⟨sp, rfl, hR⟩ hview
  rw [runPrepare]
  generalize F.prepare (D := F.held r) r c (some sp) = x at hrel
  generalize F.prepare r c db = y at hrel ⊢
  cases hrel with
  | none => exact .none
  | @some a b hab =>
    obtain ⟨⟨sp', ha, hnext⟩, hsame⟩ := hab
    rw [Option.bind_some, ha]
    exact .some ⟨hnext, hsame⟩

/-- **The servers of a family do what the object does** whose private tables they should have, in
runs whose names are apart. -/
theorem Names.simulates (hN : F.Names named target setName) (hS : Apart F.suffix S)
    (hP : ∀ r, Keeps F.view (F.update r) P) :
    Simulates F.object F.beside (fun _ => F.Holds P S) (fun c => ∀ k ∈ named c, k ∈ S)
      (fun m => setName m ∈ S) where
  init _ := ⟨_, rfl, Private.empty⟩
  prepare {r c s db} hc := by
    rintro ⟨sp, rfl, hsp⟩
    have htarget : target c ∈ S := hc _ (hN.mem c)
    have hrel := hN.runPrepare_rel (Private.agrees hS (hP r) F.lim htarget) hsp fun k hk =>
      hsp.view k (hc k hk)
    show Option.Rel _ ((F.runPrepare r c sp).map fun p => (some p.1, p.2.2))
      ((F.prepare r c db).map fun p => (p.1, p.2.2))
    generalize F.runPrepare r c sp = x at hrel ⊢
    generalize F.prepare r c db = y at hrel ⊢
    cases hrel with
    | none => exact .none
    | @some a b hab =>
      refine .some ⟨⟨a.1, rfl, hab.1⟩, congrArg Prod.snd hab.2.1, fun m hm => ?_⟩
      rw [hab.2.2 m hm]
      exact htarget
  effect {r m s db} hm := by
    rintro ⟨sp, rfl, hsp⟩
    exact hN.effect r (Private.agrees hS (hP r) F.lim hm) ⟨sp, rfl, hsp⟩

end Family

end RemoveWin
