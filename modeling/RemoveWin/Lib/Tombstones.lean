import Mathlib

/-!
# Tags with consumed tombstones

A replica keeps the tags it has seen added in a set of live tags. A remove that arrives before
the add it cancels has nothing to delete, so it leaves a tombstone, and the add consumes the
tombstone instead of becoming live. The two sets then depend on the order of arrival: a second
remove of a tag that is gone leaves a tombstone nobody will consume. What does not depend on the
order is the live set (`Tracks.live_iff`), provided every tag is added at most once.
-/

namespace Tombstones

variable {τ : Type}

/-- The live tags and the tombstones of a replica that has received the adds `added` and the
removes `removed`. -/
structure Tracks (added removed live dead : Set τ) : Prop where
  /-- A tag is live if it was added and not removed. -/
  live_iff : ∀ {t : τ}, t ∈ live ↔ t ∈ added ∧ t ∉ removed
  /-- A tag whose add has not come has a tombstone if it was removed. -/
  dead_iff : ∀ {t : τ}, t ∉ added → (t ∈ dead ↔ t ∈ removed)

theorem tracks_empty : Tracks (∅ : Set τ) ∅ ∅ ∅ where
  live_iff := by simp
  dead_iff := by simp

variable {added removed live dead : Set τ} {t : τ}

/-- An add that finds a tombstone consumes it. -/
theorem Tracks.add_dead (h : Tracks added removed live dead) (hfresh : t ∉ added)
    (ht : t ∈ dead) : Tracks (insert t added) removed live (dead \ {t}) where
  live_iff {u} := by
    have hrem : t ∈ removed := (h.dead_iff hfresh).mp ht
    rw [h.live_iff, Set.mem_insert_iff]
    constructor
    · exact fun ⟨ha, hr⟩ => ⟨.inr ha, hr⟩
    · rintro ⟨rfl | ha, hr⟩
      · exact absurd hrem hr
      · exact ⟨ha, hr⟩
  dead_iff {u} hu := by
    rw [Set.mem_insert_iff, not_or] at hu
    rw [Set.mem_sdiff, Set.mem_singleton_iff, h.dead_iff hu.2]
    exact ⟨fun hr => hr.1, fun hr => ⟨hr, hu.1⟩⟩

/-- An add that finds no tombstone makes its tag live. -/
theorem Tracks.add_live (h : Tracks added removed live dead) (hfresh : t ∉ added)
    (ht : t ∉ dead) : Tracks (insert t added) removed (insert t live) dead where
  live_iff {u} := by
    have hrem : t ∉ removed := fun hr => ht ((h.dead_iff hfresh).mpr hr)
    rw [Set.mem_insert_iff, Set.mem_insert_iff, h.live_iff]
    constructor
    · rintro (rfl | ⟨ha, hr⟩)
      · exact ⟨.inl rfl, hrem⟩
      · exact ⟨.inr ha, hr⟩
    · rintro ⟨rfl | ha, hr⟩
      · exact .inl rfl
      · exact .inr ⟨ha, hr⟩
  dead_iff {u} hu := by
    rw [Set.mem_insert_iff, not_or] at hu
    exact h.dead_iff hu.2

/-- A remove that finds its tag live deletes it. -/
theorem Tracks.remove_live (h : Tracks added removed live dead) (ht : t ∈ live) :
    Tracks added (insert t removed) (live \ {t}) dead where
  live_iff {u} := by
    rw [Set.mem_sdiff, Set.mem_singleton_iff, h.live_iff, Set.mem_insert_iff, not_or, and_assoc,
      and_comm (a := u ∉ removed)]
  dead_iff {u} hu := by
    have hne : u ≠ t := fun he => hu (he ▸ (h.live_iff.mp ht).1)
    rw [h.dead_iff hu, Set.mem_insert_iff, or_iff_right hne]

/-- A remove that does not find its tag leaves a tombstone. -/
theorem Tracks.remove_dead (h : Tracks added removed live dead) (ht : t ∉ live) :
    Tracks added (insert t removed) live (insert t dead) where
  live_iff {u} := by
    rw [h.live_iff, Set.mem_insert_iff, not_or]
    refine ⟨fun ⟨ha, hr⟩ => ⟨ha, fun he => ht ?_, hr⟩, fun ⟨ha, _, hr⟩ => ⟨ha, hr⟩⟩
    rw [← he]
    exact h.live_iff.mpr ⟨ha, hr⟩
  dead_iff {u} hu := by
    rw [Set.mem_insert_iff, Set.mem_insert_iff, h.dead_iff hu]

end Tombstones
