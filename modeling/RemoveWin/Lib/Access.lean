import Mathlib.Logic.Basic

/-!
# Containers with tables

A store holds containers at names, and for every container a table with an entry for each of its
elements. A handler that is written in terms of the operations of a store can be run in stores of
different kinds. If the operations of two stores on one container agree, up to a relation between
their states, then so does everything that is built from them.

No operation fails. A store whose operations can has a state of its own for that, which they keep.

## Main definitions

* `Containers.Tables` — the operations of a store
* `Containers.Agrees` — the operations of two stores on a container agree
* `Containers.Updates` — what updates do to what is seen of a container
-/

namespace Containers

/-- A store of containers at names `K`, of which `V` is seen and to which `U` can be done, with an
entry in `E` for every element in `X`. -/
class Tables (D : Type) (K X V U E : outParam Type) where
  /-- What is seen of a container. -/
  view : D → K → Option V
  /-- Update a container. -/
  update : D → K → U → D
  /-- Read an entry, which is created if there is none. -/
  get : E → D → K → X → E × D
  /-- Read an entry, if there is one. -/
  find : D → K → X → Option E × D
  /-- Write an entry. -/
  put : D → K → X → E → D

/-- What an update does to what is seen of a container that is looked up or created. -/
class Updates (V : Type) (U : outParam Type) where
  /-- What is seen afterwards. -/
  apply : U → Option V → Option V

/-- The operations of two stores on the container `k` agree: they return the same, and keep states
related. -/
structure Agrees {D D' K X V U E : Type} [Tables D K X V U E] [Tables D' K X V U E] (k : K)
    (R : D → D' → Prop) : Prop where
  update : ∀ {d d'}, R d d' → ∀ u, R (Tables.update d k u) (Tables.update d' k u)
  get : ∀ {d d'}, R d d' → ∀ e x, (Tables.get e d k x).1 = (Tables.get e d' k x).1 ∧
    R (Tables.get e d k x).2 (Tables.get e d' k x).2
  find : ∀ {d d'}, R d d' → ∀ x, (Tables.find d k x).1 = (Tables.find d' k x).1 ∧
    R (Tables.find d k x).2 (Tables.find d' k x).2
  put : ∀ {d d'}, R d d' → ∀ x e, R (Tables.put d k x e) (Tables.put d' k x e)

section

variable {D D' K X V U E : Type} [Tables D K X V U E] [Tables D' K X V U E] {k : K}
  {R : D → D' → Prop} {d : D} {d' : D'}

theorem Agrees.exists_get (h : Agrees k R) (hd : R d d') (e : E) (x : X) :
    ∃ e' d₁ d₁', Tables.get e d k x = (e', d₁) ∧ Tables.get e d' k x = (e', d₁') ∧ R d₁ d₁' := by
  obtain ⟨hget, hnext⟩ := h.get hd e x
  exact ⟨_, _, _, rfl, Prod.ext hget.symm rfl, hnext⟩

theorem Agrees.exists_find (h : Agrees k R) (hd : R d d') (x : X) :
    ∃ o d₁ d₁', Tables.find d k x = (o, d₁) ∧ Tables.find d' k x = (o, d₁') ∧ R d₁ d₁' := by
  obtain ⟨hfind, hnext⟩ := h.find hd x
  exact ⟨_, _, _, rfl, Prod.ext hfind.symm rfl, hnext⟩

end

end Containers
