import RemoveWin.Lib.Knowledge
import RemoveWin.RwSet.Convergence

/-!
# The remove-win set resolves conflicts for the remove

Which adds survive? The header of a member compares clocks; what it is meant to decide is whether
the origin of an add knew every remove there ever was. This file connects the two: the clocks in
RWF-Set messages are stamps in the sense of `Replicated.Counting`, with the removes of a member as
the marked events, so once everything is delivered an add's clock equals the header's exactly
when its origin knew every remove of the run.

Members must be free of NUL bytes. Otherwise a remove is prepared at one header and sent under
the name of another, and its clock counts nothing.

## Main results

* `RemoveWin.rwStamp_of_reachable` — the clock of every entry broadcast, from its history
* `RemoveWin.rwSet_counting` — those clocks count removes
* `RemoveWin.rwSet_removeWins` — a member is visible in the end iff the origin of some add of it
  knew every remove of it
-/

namespace RemoveWin

open Replicated JoinRegister

/-- The message has an entry for member `x` of set `s`. -/
def RwMsg.Mentions (m : RwMsg) (s x : Sds) : Prop :=
  m.setName = s ∧ ∃ en ∈ m.entries, en.member = x

/-- The message adds member `x` to set `s`. -/
def RwMsg.Adds (m : RwMsg) (s x : Sds) : Prop := m.isAdd = true ∧ m.Mentions s x

/-- The message removes member `x` from set `s`. -/
def RwMsg.Removes (m : RwMsg) (s x : Sds) : Prop := m.isAdd = false ∧ m.Mentions s x

/-- The clock that a message carries for member `x`. -/
def RwMsg.stampFor (m : RwMsg) (x : Sds) : ℕ → ℤ :=
  ((m.entries.find? fun en => en.member = x).map fun en => en.clock.entry).getD 0

/-- Clients only name members without NUL bytes. -/
def nulFreeMembers {N : ℕ} : Cond (Fin N) RwDb RwCmd RwMsg
  | _, .client _ c, _ => ∀ x ∈ c.members, NulFree x
  | _, .deliver _ _, _ => True

variable {N : ℕ} {iter : Fin N → Iteration} {g : Net (Fin N) RwDb RwMsg}

/-- What is true of an entry by the time it is broadcast: it was stamped at the header its
origin had for that very member. -/
structure RwStamped (e : Event (Fin N) RwMsg) (en : RwEntry) (h : Reh) : Prop where
  /-- The header summarised what the origin had received. -/
  summary : Summary 0 (-1) (received (itemsOf e.deps) e.msg.setName en.member) h.register
  size : h.current.size = N
  keeper : h.current.id = e.origin.val
  /-- The entry carries the clock of the header, or the next one. -/
  clock : en.clock = rwStamp e.msg.isAdd h

theorem RwOk.exists_event_of_visible {srv : Server} {A : List (Event (Fin N) RwMsg)} {db : RwDb}
    (h : RwOk srv (itemsOf A) db) {s x : Sds} (hx : x ∈ db.keys.visible s) :
    ∃ e ∈ A, ∃ en ∈ e.msg.entries, en.member = x := by
  rw [h.visible] at hx
  rcases (h.summary s x).owner.1 with howner | ⟨_, ⟨it, hit, -, hmem, rfl⟩, -⟩
  · rw [Reh.Exists, ← Reh.register_owner, howner] at hx
    exact absurd hx (by decide)
  · obtain ⟨e, he, hit⟩ := mem_itemsOf.mp hit
    exact ⟨e, he, it.entry, (RwMsg.mem_items.mp hit).2.2, hmem⟩

theorem rwStamp_of_reachable (hg : Reachable (rwSet iter) nulFreeMembers g) :
    ∀ e ∈ g.log, ∀ en ∈ e.msg.entries, NulFree en.member ∧ ∃ h, RwStamped e en h := by
  refine hg.log_invariant (by simp [OpBased.start]) ?_
  intro g g' r c db' m hg ih hc _ hp en hen
  have hok := rwOk_of_reachable hg r
  obtain ⟨_, hspec⟩ := hok.toRwShape.prepare hp
  obtain ⟨y, k, horigin⟩ := hspec.entries m rfl en hen
  have hy : NulFree y := by
    rcases horigin.mention with hmem | ⟨s, hvis⟩
    · exact hc y hmem
    · obtain ⟨e, he, en', hen', rfl⟩ := hok.exists_event_of_visible hvis
      exact (ih e ((Reachable.wellFormed hg).applied_mem he) en' hen').1
  -- without NUL bytes the copy sent and the copy looked up are the member itself
  have hmem : en.member = y := horigin.member.elim id fun h => h.trans (sdsnew_of_nulFree hy)
  have hkey : k = y := horigin.key.elim id fun h => h.trans (sdsnew_of_nulFree hy)
  refine ⟨hmem ▸ hy, (g.state r).header (.of iter r) m.setName y, ?_, ?_, ?_, ?_⟩
  · rw [hmem]
    exact hok.summary _ _
  · exact hok.size _ _
  · exact hok.keeper _ _
  · rw [horigin.clock, hkey]
    rfl

theorem RwStamped.entry_clock {e : Event (Fin N) RwMsg} {en : RwEntry} {h : Reh}
    (hs : RwStamped e en h) :
    en.clock.entry = if e.msg.isAdd then h.current.entry
      else Function.update h.current.entry e.origin.val (h.current.entry e.origin.val + 1) := by
  rw [hs.clock, rwStamp]
  split
  · rfl
  · have hid : h.current.id.toNat = e.origin.val := by rw [hs.keeper, Int.toNat_natCast]
    rw [entry_nowVC (by rw [hid, hs.size]; exact e.origin.isLt), hid]

theorem stampFor_eq (hg : Reachable (rwSet iter) nulFreeMembers g) {e : Event (Fin N) RwMsg}
    (he : e ∈ g.log) {en : RwEntry} (hen : en ∈ e.msg.entries) :
    e.msg.stampFor en.member = en.clock.entry := by
  obtain ⟨en', hfind⟩ : ∃ en', e.msg.entries.find? (fun en' => en'.member = en.member) = some en' :=
    Option.isSome_iff_exists.mp (List.find?_isSome.mpr ⟨en, hen, by simp⟩)
  have hen' := List.mem_of_find?_eq_some hfind
  have hmem : en'.member = en.member := by simpa using List.find?_some hfind
  obtain ⟨-, h, hs⟩ := rwStamp_of_reachable hg e he en hen
  obtain ⟨-, h', hs'⟩ := rwStamp_of_reachable hg e he en' hen'
  have hreg : h'.register = h.register := hs'.summary.unique (hmem ▸ hs.summary)
  have hcur : h'.current.entry = h.current.entry := congrArg Register.current hreg
  rw [RwMsg.stampFor, hfind, Option.map_some, Option.getD_some, hs.entry_clock, hs'.entry_clock,
    hcur]

theorem stamp_received (hg : Reachable (rwSet iter) nulFreeMembers g) (s x : Sds)
    {A : List (Event (Fin N) RwMsg)} (hA : ∀ e ∈ A, e ∈ g.log) :
    Entry.stamp '' received (itemsOf A) s x =
      stamps (fun e => e.msg.Mentions s x) (fun e => e.msg.stampFor x) A := by
  ext t
  constructor
  · rintro ⟨_, ⟨it, hit, rfl, rfl, rfl⟩, rfl⟩
    obtain ⟨e, he, hit⟩ := mem_itemsOf.mp hit
    obtain ⟨-, hset, hen⟩ := RwMsg.mem_items.mp hit
    exact ⟨e, ⟨he, hset.symm, it.entry, hen, rfl⟩, stampFor_eq hg (hA e he) hen⟩
  · rintro ⟨e, ⟨he, rfl, en, hen, rfl⟩, rfl⟩
    refine ⟨en.clock.toEntry e.msg.isAdd, ⟨⟨e.msg.isAdd, e.msg.setName, en⟩, ?_, rfl, rfl, rfl⟩, ?_⟩
    · exact mem_itemsOf.mpr ⟨e, he, RwMsg.mem_items.mpr ⟨rfl, rfl, hen⟩⟩
    · exact (stampFor_eq hg (hA e he) hen).symm

/-- **The clocks count removes.** -/
theorem rwSet_counting (hg : Reachable (rwSet iter) nulFreeMembers g) (s x : Sds) :
    Counting Fin.val (fun e => e.msg.Mentions s x) (fun e => e.msg.Removes s x)
      (fun e => e.msg.stampFor x) g.log := by
  have hlub : ∀ e ∈ g.log, ∀ en ∈ e.msg.entries, e.msg.setName = s → en.member = x →
      ∀ h, RwStamped e en h → IsLUB (insert 0 (stamps (fun e => e.msg.Mentions s x)
        (fun e => e.msg.stampFor x) e.deps)) h.current.entry := by
    rintro e he en _ rfl rfl h hst
    rw [← stamp_received hg _ _ fun d hd => ((Reachable.wellFormed hg).deps_mem he hd).1]
    exact hst.summary.current
  refine ⟨Fin.val_injective, And.right, ?_, ?_⟩
  · rintro e he ⟨hrem, rfl, en, hen, rfl⟩
    obtain ⟨-, h, hst⟩ := rwStamp_of_reachable hg e he en hen
    refine ⟨h.current.entry, hlub e he en hen rfl rfl h hst, ?_⟩
    rw [stampFor_eq hg he hen, hst.entry_clock, hrem, if_neg Bool.false_ne_true]
  · rintro e he ⟨rfl, en, hen, rfl⟩ hadd
    obtain ⟨-, h, hst⟩ := rwStamp_of_reachable hg e he en hen
    have hisAdd : e.msg.isAdd = true := by
      by_contra hrem
      exact hadd ⟨Bool.eq_false_iff.mpr hrem, rfl, en, hen, rfl⟩
    rw [stampFor_eq hg he hen, hst.entry_clock, hisAdd, if_pos rfl]
    exact hlub e he en hen rfl rfl h hst

/-- A member is visible at a replica exactly when some add the replica has applied carries the
clock of the header. -/
theorem mem_visible_iff_exists_adds (hg : Reachable (rwSet iter) nulFreeMembers g) (r : Fin N)
    (s x : Sds) :
    x ∈ (g.state r).keys.visible s ↔ ∃ a ∈ g.applied r, a.msg.Adds s x ∧
      a.msg.stampFor x = ((g.state r).header (.of iter r) s x).current.entry := by
  have w := Reachable.wellFormed hg
  have hok := rwOk_of_reachable hg r
  have hauthor : ∀ e ∈ received (itemsOf (g.applied r)) s x, -1 < e.author := by
    rintro _ ⟨it, hit, -, -, rfl⟩
    obtain ⟨e, he, hit⟩ := mem_itemsOf.mp hit
    have hid := (rwClock_of_reachable hg e (w.applied_mem he) _ (RwMsg.mem_items.mp hit).2.2).2
    exact show -1 < it.entry.clock.id by omega
  rw [hok.visible, Reh.exists_iff_owner, (hok.summary s x).nobody_lt_iff hauthor]
  constructor
  · rintro ⟨_, ⟨it, hit, rfl, rfl, rfl⟩, hcl, hst⟩
    obtain ⟨a, ha, hit⟩ := mem_itemsOf.mp hit
    obtain ⟨hadd, hset, hen⟩ := RwMsg.mem_items.mp hit
    exact ⟨a, ha, ⟨hadd ▸ hcl, hset.symm, _, hen, rfl⟩,
      (stampFor_eq hg (w.applied_mem ha) hen).trans hst⟩
  · rintro ⟨a, ha, ⟨hisAdd, hset, en, hen, rfl⟩, heq⟩
    refine ⟨en.clock.toEntry true, ⟨⟨true, s, en⟩, ?_, rfl, rfl, rfl⟩, rfl, ?_⟩
    · exact mem_itemsOf.mpr ⟨a, ha, RwMsg.mem_items.mpr ⟨hisAdd.symm, hset.symm, hen⟩⟩
    · exact (stampFor_eq hg (w.applied_mem ha) hen).symm.trans heq

/-- **Remove wins.** Once every message has been applied everywhere, a member is visible at a
replica exactly when some add of it was issued whose origin, when preparing it, knew every remove
of that member in the whole run. A remove that an add's origin did not know, be it concurrent or
later, cancels that add. -/
theorem rwSet_removeWins (hg : Reachable (rwSet iter) nulFreeMembers g) (hd : Delivered g)
    (r : Fin N) (s x : Sds) :
    x ∈ (g.state r).keys.visible s ↔
      ∃ a ∈ g.log, a.msg.Adds s x ∧
        ∀ m ∈ g.log, m.msg.Removes s x → Knows (fun e => e.msg.Mentions s x) m a.deps := by
  have w := Reachable.wellFormed hg
  have happ : ∀ e, e ∈ g.applied r ↔ e ∈ g.log := fun e => ⟨w.applied_mem, hd r e⟩
  have hlub := ((rwOk_of_reachable hg r).summary s x).current
  rw [stamp_received hg s x fun e => w.applied_mem, stamps_congr happ] at hlub
  rw [mem_visible_iff_exists_adds hg]
  have hkey : ∀ a ∈ g.log, a.msg.Adds s x →
      (a.msg.stampFor x = ((g.state r).header (.of iter r) s x).current.entry ↔
        ∀ m ∈ g.log, m.msg.Removes s x → Knows (fun e => e.msg.Mentions s x) m a.deps) :=
    fun a ha hadds => (rwSet_counting hg s x).stamp_eq_iff w hlub ha hadds.2
      fun hrem => absurd hrem.1 (by simp [hadds.1])
  constructor
  · rintro ⟨a, ha, hadds, heq⟩
    exact ⟨a, (happ a).mp ha, hadds, (hkey a ((happ a).mp ha) hadds).mp heq⟩
  · rintro ⟨a, ha, hadds, hall⟩
    exact ⟨a, (happ a).mpr ha, hadds, (hkey a ha hadds).mpr hall⟩

end RemoveWin
