import RemoveWin.Lib.Access
import RemoveWin.Server

/-!
# Containers with hidden tables

Every replicated container is a visible object at a key and a hidden table of metadata, a hash
found under the key with a suffix. Here the tables are kept beside the key space and not in it, as
if they were private to the commands of one family. The source does not enforce this: the table is
looked up in the same database as all keys, and a client may name it. `KeySpace.Model` has the
tables where the source has them, and `KeySpace.Private` shows when the two come to the same.

A lookup with `create` set makes up a fresh entry when there is none, which nothing can tell from
an entry that was always there. Handlers are written for any store of containers with tables, of
which such a database is one.
-/

namespace RemoveWin

open Containers

/-- A key space of any kind, and an `α` for every element of every container. -/
structure Db (κ α : Type) where
  /-- The key space with the visible objects. -/
  keys : κ
  /-- The hidden tables: container name, element, what is kept for it. -/
  elems : Sds → Sds → Option α

namespace Db

variable {κ α : Type}

/-- What is kept for an element, `fresh` if nothing is yet. -/
def elem (fresh : α) (db : Db κ α) (tname key : Sds) : α := (db.elems tname key).getD fresh

/-- Store what is kept for an element. -/
def setElem (db : Db κ α) (tname key : Sds) (a : α) : Db κ α :=
  { db with
    elems := Function.update db.elems tname (Function.update (db.elems tname) key (some a)) }

/-- A lookup that creates: what is kept for the element, and the table that now has it. -/
def htGet (fresh : α) (db : Db κ α) (tname key : Sds) : α × Db κ α :=
  match db.elems tname key with
  | some a => (a, db)
  | none => (fresh, db.setElem tname key fresh)

variable (fresh : α) (db : Db κ α) (s x : Sds) (a : α)

@[simp] theorem keys_setElem : (db.setElem s x a).keys = db.keys := rfl

@[simp] theorem elem_setElem_self : (db.setElem s x a).elem fresh s x = a := by
  simp [elem, setElem]

theorem elem_setElem_of_ne {s x s' x' : Sds} (h : (s', x') ≠ (s, x)) :
    (db.setElem s x a).elem fresh s' x' = db.elem fresh s' x' := by
  by_cases hs : s' = s
  · subst hs
    have hx : x' ≠ x := fun hx => h (by rw [hx])
    simp [elem, setElem, Function.update_of_ne hx]
  · simp [elem, setElem, Function.update_of_ne hs]

@[simp] theorem htGet_fst : (htGet fresh db s x).1 = db.elem fresh s x := by
  cases h : db.elems s x <;> simp [htGet, elem, h]

@[simp] theorem keys_htGet : (htGet fresh db s x).2.keys = db.keys := by
  cases h : db.elems s x <;> simp [htGet, h]

@[simp] theorem elem_htGet : (htGet fresh db s x).2.elem fresh = db.elem fresh := by
  cases h : db.elems s x with
  | some a => simp [htGet, h]
  | none =>
    funext s' x'
    rw [htGet, h]
    by_cases hne : (s', x') = (s, x)
    · obtain ⟨rfl, rfl⟩ := Prod.mk.inj hne
      rw [elem_setElem_self, elem, h]
      rfl
    · exact elem_setElem_of_ne fresh db fresh hne

/-! ### As a store -/

section

variable {V U : Type} [Updates V U]

instance : Tables (Db (Sds → Option V) α) Sds Sds V U α where
  view := keys
  update db k u := { db with keys := Function.update db.keys k (Updates.apply u (db.keys k)) }
  get := htGet
  find db tname key := (db.elems tname key, db)
  put := setElem

variable (db : Db (Sds → Option V) α)

@[simp] theorem view_eq : Tables.view db = db.keys := rfl

@[simp] theorem get_eq : Tables.get fresh db s x = db.htGet fresh s x := rfl

@[simp] theorem find_eq : Tables.find db s x = (db.elems s x, db) := rfl

@[simp] theorem put_eq : Tables.put db s x a = db.setElem s x a := rfl

end

end Db

end RemoveWin
