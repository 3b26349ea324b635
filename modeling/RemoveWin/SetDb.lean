import RemoveWin.Db
import RemoveWin.SetType

/-!
# Replicated sets with metadata of any kind

The three replicated sets are built alike. A visible set stands at the key, and the hidden table
keeps something for every member ever mentioned: a header, tags or a counter.

The prepare phases go through a list of members and append to the message as they go; `collect`
is that loop.
-/

namespace RemoveWin

open Containers

/-- What handlers do to a set: `getSetOrCreate`, with the text it is handed as a sample of the
members, if it is one, and the two updates. -/
inductive SetUpdate where
  | create (sample : Option Sds)
  | add (x : Sds)
  | remove (x : Sds)

/-- The update of a set object. -/
def SetUpdate.onSet : SetUpdate → SetObj → SetObj
  | create _ => id
  | add x => (setTypeAdd · x)
  | remove x => (setTypeRemove · x)

instance : Updates RObj SetUpdate where
  apply u
    | none => some (.set (u.onSet .empty))
    | some (.set o) => some (.set (u.onSet o))
    | some (.other fields) => some (.other (fields.map u.onSet))

/-- A store of sets whose members carry an `α` each. -/
abbrev SetTables (D α : Type) := Tables D Sds Sds RObj SetUpdate α

/-- Replicated sets whose members carry an `α` each. -/
abbrev SetDb (α : Type) := Db Keys α

/-- A database without keys. -/
def SetDb.empty {α : Type} : SetDb α := ⟨fun _ => none, fun _ _ => none⟩

namespace Db

variable {α : Type}

/-- Change the visible set at a key. -/
def modifySet (db : SetDb α) (k : Sds) (f : SetObj → SetObj) : SetDb α :=
  { db with keys := db.keys.modifySet k f }

section

variable (fresh : α) (db : SetDb α) (s x : Sds) (f : SetObj → SetObj)

@[simp] theorem elem_empty : SetDb.empty.elem fresh s x = fresh := rfl

@[simp] theorem keys_modifySet : (db.modifySet s f).keys = db.keys.modifySet s f := rfl

@[simp] theorem elem_modifySet : (db.modifySet s f).elem fresh = db.elem fresh := rfl

@[simp] theorem update_create (sample : Option Sds) :
    Tables.update db s (.create sample) = db.modifySet s id := rfl

@[simp] theorem update_add : Tables.update db s (.add x) = db.modifySet s (setTypeAdd · x) := rfl

@[simp] theorem update_remove :
    Tables.update db s (.remove x) = db.modifySet s (setTypeRemove · x) := rfl

end

variable {db : SetDb α} {s s' x y : Sds} {f : SetObj → SetObj}

theorem mem_visible_modifySet_self (ho : db.keys.OnlySets) {p : Prop → Prop}
    (hf : ∀ o : SetObj, x ∈ f o ↔ p (x ∈ o)) :
    x ∈ (db.modifySet s f).keys.visible s ↔ p (x ∈ db.keys.visible s) :=
  ho.mem_visible_modifySet s hf

theorem mem_visible_modifySet_of_ne (ho : db.keys.OnlySets) (hne : (s', y) ≠ (s, x))
    (hf : ∀ o : SetObj, y ≠ x → (y ∈ f o ↔ y ∈ o)) :
    y ∈ (db.modifySet s f).keys.visible s' ↔ y ∈ db.keys.visible s' := by
  by_cases hs : s' = s
  · subst hs
    have hy : y ≠ x := fun hy => hne (by rw [hy])
    exact ho.mem_visible_modifySet s' (p := id) fun o => hf o hy
  · rw [keys_modifySet, Keys.visible_modifySet_of_ne _ _ hs]

theorem mem_visible_modifySet_id (ho : db.keys.OnlySets) :
    y ∈ (db.modifySet s id).keys.visible s' ↔ y ∈ db.keys.visible s' := by
  by_cases hs : s' = s
  · subst hs
    exact ho.mem_visible_modifySet s' (p := id) fun o => Iff.rfl
  · rw [keys_modifySet, Keys.visible_modifySet_of_ne _ _ hs]

end Db

/-- The test `set == NULL || !setTypeIsMember(set, x)` of the adding commands. -/
def Keys.lacks (ks : Keys) (k x : Sds) : Bool :=
  match (ks k).bind RObj.asSet with
  | some set => !setTypeIsMember set x
  | none => true

theorem Keys.OnlySets.lacks_iff {ks : Keys} (h : ks.OnlySets) {k x : Sds} :
    ks.lacks k x = true ↔ x ∉ ks.visible k := by
  cases hk : ks k with
  | none => simp [Keys.lacks, Keys.visible, hk]
  | some obj =>
    cases obj with
    | set o => simp [Keys.lacks, Keys.visible, hk, RObj.asSet, setTypeIsMember]
    | other fields => exact absurd hk (h k fields)

/-! ### The loop of a prepare phase -/

/-- Go through members; each round may change the database and append an entry. -/
def collect {σ ε : Type} (round : Sds → σ → σ × Option ε) : List Sds → σ → σ × List ε
  | [], db => (db, [])
  | x :: xs, db =>
    let (db, o) := round x db
    let (db, es) := collect round xs db
    (db, o.toList ++ es)

section

variable {σ ε β : Type} {round : Sds → σ → σ × Option ε}

theorem collect_of_still (view : σ → β) {f : Sds → β → Option ε}
    (hround : ∀ x s, view (round x s).1 = view s ∧ (round x s).2 = f x (view s)) (xs : List Sds)
    (s : σ) : (collect round xs s).2 = xs.filterMap fun x => f x (view s) := by
  induction xs generalizing s with
  | nil => rfl
  | cons x xs ih =>
    obtain ⟨hview, hout⟩ := hround x s
    simp only [collect, List.filterMap_cons, ih, hview, hout]
    cases f x (view s) <;> rfl

/-- A loop over distinct members whose rounds change only what they look at themselves. -/
theorem collect_of_apart (view : Sds → σ → β) {f : Sds → β → Option ε} {xs : List Sds}
    (hnd : xs.Nodup) (hround : ∀ x ∈ xs, ∀ s, (round x s).2 = f x (view x s) ∧
      ∀ y ∈ xs, y ≠ x → view y (round x s).1 = view y s) (s : σ) :
    (collect round xs s).2 = xs.filterMap fun x => f x (view x s) := by
  induction xs generalizing s with
  | nil => rfl
  | cons x xs ih =>
    obtain ⟨hx, hnd⟩ := List.nodup_cons.mp hnd
    obtain ⟨hout, hview⟩ := hround x List.mem_cons_self s
    have htail := ih hnd (fun y hy s' =>
      ⟨(hround y (List.mem_cons_of_mem x hy) s').1, fun z hz =>
        (hround y (List.mem_cons_of_mem x hy) s').2 z (List.mem_cons_of_mem x hz)⟩) (round x s).1
    have hsame : (xs.filterMap fun y => f y (view y (round x s).1)) =
        xs.filterMap fun y => f y (view y s) := by
      refine List.filterMap_congr fun y hy => ?_
      rw [hview y (List.mem_cons_of_mem x hy) fun hyx => hx (hyx ▸ hy)]
    rw [hsame] at htail
    simp only [collect, List.filterMap_cons, htail, hout]
    cases f x (view x s) <;> rfl

/-- What every round keeps, and what holds of every entry that a round appends. -/
theorem collect_invariant {P : σ → Prop} {Q : ε → Prop} {xs : List Sds}
    (hround : ∀ x ∈ xs, ∀ s, P s → P (round x s).1 ∧ ∀ e ∈ (round x s).2, Q e) {s : σ}
    (hs : P s) : P (collect round xs s).1 ∧ ∀ e ∈ (collect round xs s).2, Q e := by
  induction xs generalizing s with
  | nil => exact ⟨hs, by simp [collect]⟩
  | cons x xs ih =>
    obtain ⟨hnext, hout⟩ := hround x List.mem_cons_self s hs
    obtain ⟨hend, hrest⟩ := ih (fun y hy => hround y (List.mem_cons_of_mem x hy)) hnext
    refine ⟨hend, fun e he => ?_⟩
    rcases List.mem_append.mp he with he | he
    · exact hout e (Option.mem_toList.mp he)
    · exact hrest e he

theorem collect_still (view : σ → β) (hround : ∀ x s, view (round x s).1 = view s) (xs : List Sds)
    (s : σ) : view (collect round xs s).1 = view s :=
  (collect_invariant (P := fun s' => view s' = view s) (Q := fun _ => True)
    (fun x _ s' h => ⟨(hround x s').trans h, fun _ _ => trivial⟩) rfl).1

theorem collect_rel {σ' : Type} {R : σ → σ' → Prop} (round : Sds → σ → σ × Option ε)
    (round' : Sds → σ' → σ' × Option ε)
    (h : ∀ x {s s'}, R s s' → R (round x s).1 (round' x s').1 ∧ (round x s).2 = (round' x s').2)
    (xs : List Sds) {s : σ} {s' : σ'} (hs : R s s') :
    R (collect round xs s).1 (collect round' xs s').1 ∧
      (collect round xs s).2 = (collect round' xs s').2 := by
  induction xs generalizing s s' with
  | nil => exact ⟨hs, rfl⟩
  | cons x xs ih =>
    obtain ⟨hnext, hout⟩ := h x hs
    obtain ⟨hend, hrest⟩ := ih hnext
    exact ⟨hend, by simp only [collect, hout, hrest]⟩

theorem filterMap_ite_some {α : Type} (c : α → Bool) (g : α → β) (xs : List α) :
    (xs.filterMap fun x => if c x then some (g x) else none) = (xs.filter c).map g := by
  induction xs with
  | nil => rfl
  | cons x xs ih =>
    rw [List.filterMap_cons, List.filter_cons, ih]
    cases c x <;> rfl

theorem map_collect (p : ε → β) {f : Sds → Option β} (hround : ∀ x s, (round x s).2.map p = f x)
    (xs : List Sds) (s : σ) : (collect round xs s).2.map p = xs.filterMap f := by
  induction xs generalizing s with
  | nil => rfl
  | cons x xs ih =>
    simp only [collect, List.map_append, List.filterMap_cons, ih, ← hround x s]
    cases (round x s).2 <;> rfl

end

end RemoveWin
