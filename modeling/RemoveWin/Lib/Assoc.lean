import Mathlib.Data.Finmap
import Mathlib.Data.Finset.Card

/-!
# Lists of pairs as finite maps

A list of pairs without repeated keys lists a finite map. Here is what is added to the list, taken
from it or changed in it when a key of the map is set or erased. The order of the list is free.
-/

namespace Assoc

open scoped List

variable {κ ν : Type*} [DecidableEq κ]

/-- A list of pairs lists a finite map. -/
structure Lists (l : List (κ × ν)) (m : Finmap fun _ : κ => ν) : Prop where
  nodup : (l.map Prod.fst).Nodup
  mem_iff : ∀ e, e ∈ l ↔ m.lookup e.1 = some e.2

theorem erase_of_not_mem {m : Finmap fun _ : κ => ν} {k : κ} (hk : k ∉ m) : m.erase k = m := by
  refine Finmap.ext_lookup fun x => ?_
  by_cases hx : x = k
  · rw [hx, Finmap.lookup_erase, Finmap.lookup_eq_none.mpr hk]
  · exact Finmap.lookup_erase_ne hx

theorem lists_nil : Lists ([] : List (κ × ν)) ∅ :=
  ⟨List.nodup_nil, fun e => by simp⟩

namespace Lists

variable {l l' : List (κ × ν)} {m : Finmap fun _ : κ => ν}

theorem perm (h : Lists l m) (hperm : l' ~ l) : Lists l' m :=
  ⟨(hperm.map Prod.fst).nodup_iff.mpr h.nodup, fun e => hperm.mem_iff.trans (h.mem_iff e)⟩

/-- The keys of the list are those of the map. -/
theorem exists_iff (h : Lists l m) (k : κ) : (∃ e ∈ l, e.1 = k) ↔ k ∈ m := by
  rw [Finmap.mem_iff]
  constructor
  · rintro ⟨e, he, rfl⟩
    exact ⟨e.2, (h.mem_iff e).mp he⟩
  · rintro ⟨v, hv⟩
    exact ⟨(k, v), (h.mem_iff (k, v)).mpr hv, rfl⟩

theorem not_mem (h : Lists l m) {k : κ} (hk : ∀ e ∈ l, e.1 ≠ k) : k ∉ m := by
  rw [← h.exists_iff k]
  rintro ⟨e, he, rfl⟩
  exact hk e he rfl

/-- **A key is added.** -/
theorem cons (h : Lists l m) {k : κ} (hk : ∀ e ∈ l, e.1 ≠ k) (v : ν) :
    Lists ((k, v) :: l) (m.insert k v) := by
  refine ⟨List.nodup_cons.mpr ⟨?_, h.nodup⟩, fun e => ?_⟩
  · rintro hmem
    obtain ⟨e, he, hek⟩ := List.mem_map.mp hmem
    exact hk e he hek
  · rw [List.mem_cons]
    by_cases hek : e.1 = k
    · obtain ⟨_, u⟩ := e
      subst hek
      have hnot : (_, u) ∉ l := fun hin => hk _ hin rfl
      simp [hnot, Finmap.lookup_insert, eq_comm]
    · rw [Finmap.lookup_insert_of_ne m hek, h.mem_iff e]
      refine or_iff_right ?_
      rintro rfl
      exact hek rfl

/-- **A key is erased.** -/
theorem erase {e : κ × ν} (h : Lists (e :: l) m) : Lists l (m.erase e.1) := by
  have hnodup := List.nodup_cons.mp h.nodup
  refine ⟨hnodup.2, fun x => ?_⟩
  by_cases hx : x.1 = e.1
  · rw [hx, Finmap.lookup_erase]
    refine iff_of_false (fun hin => hnodup.1 ?_) (by simp)
    rw [← hx]
    exact List.mem_map_of_mem hin
  · rw [Finmap.lookup_erase_ne hx, ← h.mem_iff x, List.mem_cons]
    refine (or_iff_right ?_).symm
    rintro rfl
    exact hx rfl

/-- **The value of a key is changed.** -/
theorem replace {e : κ × ν} (h : Lists (e :: l) m) (v : ν) :
    Lists ((e.1, v) :: l) (m.insert e.1 v) := by
  have hnot : ∀ x ∈ l, x.1 ≠ e.1 := by
    intro x hx hxe
    refine (List.nodup_cons.mp h.nodup).1 ?_
    rw [← hxe]
    exact List.mem_map_of_mem hx
  have hsame : (m.erase e.1).insert e.1 v = m.insert e.1 v := by
    refine Finmap.ext_lookup fun k => ?_
    by_cases hk : k = e.1
    · rw [hk, Finmap.lookup_insert, Finmap.lookup_insert]
    · rw [Finmap.lookup_insert_of_ne _ hk, Finmap.lookup_insert_of_ne _ hk,
        Finmap.lookup_erase_ne hk]
  rw [← hsame]
  exact h.erase.cons hnot v

theorem card_keys (h : Lists l m) : m.keys.card = l.length := by
  have hkeys : m.keys = (l.map Prod.fst).toFinset := by
    ext k
    rw [Finmap.mem_keys, ← h.exists_iff k, List.mem_toFinset, List.mem_map]
  rw [hkeys, List.toFinset_card_of_nodup h.nodup, List.length_map]

end Lists

end Assoc
