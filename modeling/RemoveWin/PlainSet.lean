import RemoveWin.Lib.OpBased
import RemoveWin.SetType

/-!
# Plain sets

What the set commands do to sets as such, without headers, tags or messages. This is the
`set_log` of the benchmark, for any number of members and sources. A family of set commands
refines it if a replica by itself shows the plain sets.

The store commands change the destination by adding to it or removing from it, so they store what
they should only if the destination is there and is named again as the first source, which is how
the benchmark issues them.
-/

namespace RemoveWin

open Replicated

/-- The commands of every set family. -/
inductive SetCmd where
  | add (key : Sds) (members : List Sds)
  | rem (key : Sds) (members : List Sds)
  | unionstore (dst src : Sds) (srcs : List Sds)
  | diffstore (dst src : Sds) (srcs : List Sds)
  | interstore (dst src : Sds) (srcs : List Sds)

/-- The set at every key, empty where there is none. -/
abbrev PlainSets := Sds → Set Sds

namespace SetCmd

/-- The members given with a command. -/
def members : SetCmd → List Sds
  | .add _ members => members
  | .rem _ members => members
  | _ => []

/-- The keys a command names. -/
def named : SetCmd → List Sds
  | .add key _ => [key]
  | .rem key _ => [key]
  | .unionstore dst src srcs => dst :: src :: srcs
  | .diffstore dst src srcs => dst :: src :: srcs
  | .interstore dst src srcs => dst :: src :: srcs

/-- The key whose set a command changes. -/
def target : SetCmd → Sds
  | .add key _ => key
  | .rem key _ => key
  | .unionstore dst _ _ => dst
  | .diffstore dst _ _ => dst
  | .interstore dst _ _ => dst

theorem target_mem_named (c : SetCmd) : c.target ∈ c.named := by
  cases c <;> exact List.mem_cons_self

/-- What a command does to plain sets. -/
def apply (S : PlainSets) : SetCmd → PlainSets
  | .add key members => Function.update S key (S key ∪ {x | x ∈ members})
  | .rem key members => Function.update S key (S key \ {x | x ∈ members})
  | .unionstore dst src srcs => Function.update S dst {x | ∃ k ∈ src :: srcs, x ∈ S k}
  | .diffstore dst src srcs => Function.update S dst {x | x ∈ S src ∧ ∀ k ∈ srcs, x ∉ S k}
  | .interstore dst src srcs => Function.update S dst {x | ∀ k ∈ src :: srcs, x ∈ S k}

/-- The commands that are asked for: members are given and NUL-free, and a store names its
destination, which is there, as its first source. -/
def Proper (ks : Keys) : SetCmd → Prop
  | .add _ members => members ≠ [] ∧ ∀ x ∈ members, NulFree x
  | .rem _ members => members ≠ [] ∧ ∀ x ∈ members, NulFree x
  | .unionstore dst src _ => src = dst ∧ ks dst ≠ none
  | .diffstore dst src _ => src = dst ∧ ks dst ≠ none
  | .interstore dst src _ => src = dst ∧ ks dst ≠ none

theorem Proper.nulFree {ks : Keys} {c : SetCmd} (h : c.Proper ks) : ∀ x ∈ c.members, NulFree x := by
  cases c with
  | add => exact h.2
  | rem => exact h.2
  | unionstore => simp [members]
  | diffstore => simp [members]
  | interstore => simp [members]

theorem nulFree_apply {S : PlainSets} {c : SetCmd} (hS : ∀ k, ∀ x ∈ S k, NulFree x)
    (hc : ∀ x ∈ c.members, NulFree x) : ∀ k, ∀ x ∈ c.apply S k, NulFree x := by
  -- every command changes the set at one key only
  have hupdate : ∀ {key : Sds} {T : Set Sds}, (∀ x ∈ T, NulFree x) →
      ∀ k, ∀ x ∈ Function.update S key T k, NulFree x := by
    intro key T hT k x hx
    by_cases hk : k = key
    · subst hk
      rw [Function.update_self] at hx
      exact hT x hx
    · rw [Function.update_of_ne hk] at hx
      exact hS k x hx
  cases c with
  | add key members => exact hupdate fun x hx => hx.elim (hS key x) (hc x)
  | rem key members => exact hupdate fun x hx => hS key x hx.1
  | unionstore dst src srcs => exact hupdate fun x ⟨k, _, hx⟩ => hS k x hx
  | diffstore dst src srcs => exact hupdate fun x hx => hS src x hx.1
  | interstore dst src srcs => exact hupdate fun x hx => hS src x (hx src (by simp))

end SetCmd

/-- The plain sets that commands lead to. -/
def plainSets (cs : List SetCmd) : PlainSets := cs.foldl SetCmd.apply fun _ => ∅

theorem plainSets_concat (cs : List SetCmd) (c : SetCmd) :
    plainSets (cs ++ [c]) = c.apply (plainSets cs) := by
  rw [plainSets, List.foldl_concat, plainSets]

/-- The visible sets of a database, as plain sets. -/
def Keys.sets (ks : Keys) : PlainSets := fun k => {x | x ∈ ks.visible k}

theorem Keys.mem_sets {ks : Keys} {k x : Sds} : x ∈ ks.sets k ↔ x ∈ ks.visible k := Iff.rfl

theorem Keys.sets_empty : Keys.sets (fun _ => none) = fun _ => ∅ := by
  funext k
  ext x
  simp [Keys.mem_sets, Keys.visible]

theorem Keys.sets_eq_update {ks ks' : Keys} {key : Sds} {T : Set Sds}
    (h : ∀ k x, x ∈ ks'.visible k ↔ if k = key then x ∈ T else x ∈ ks.visible k) :
    ks'.sets = Function.update ks.sets key T := by
  funext k
  ext x
  rw [Keys.mem_sets, h]
  by_cases hk : k = key
  · subst hk
    rw [if_pos rfl, Function.update_self]
  · rw [if_neg hk, Function.update_of_ne hk]
    rfl

section

variable {ι σ Cmd Msg : Type}

/-- **A family of set commands refines the plain sets.** A replica that hears of nobody and whose
clients issue commands that are asked for shows the plain sets, and completes the next command. -/
def RefinesPlainSets (S : OpBased ι σ Cmd Msg) (keys : σ → Keys) (plain : Cmd → SetCmd) : Prop :=
  ∀ r cs s, Alone S r cs s →
    (∀ cs' c s', cs' ++ [c] <+: cs → Alone S r cs' s' → (plain c).Proper (keys s')) →
    (∀ k, {x | x ∈ (keys s).visible k} = plainSets (cs.map plain) k) ∧
      ∀ c, (plain c).Proper (keys s) → ∃ s', S.perform r c s = some s'

/-- One command of a replica by itself does to its sets what it does to plain sets. -/
def StepsPlainSets (S : OpBased ι σ Cmd Msg) (keys : σ → Keys) (plain : Cmd → SetCmd) : Prop :=
  ∀ {r : ι} {cs : List Cmd} {s : σ} {c : Cmd}, Alone S r cs s →
    (∀ c' ∈ cs, ∀ x ∈ (plain c').members, NulFree x) →
    (∀ k, ∀ x ∈ (keys s).sets k, NulFree x) → (plain c).Proper (keys s) →
    ∃ s', S.perform r c s = some s' ∧ (keys s').sets = (plain c).apply (keys s).sets

theorem refinesPlainSets_of_step {S : OpBased ι σ Cmd Msg} {keys : σ → Keys} {plain : Cmd → SetCmd}
    (h0 : ∀ r, (keys (S.init r)).sets = fun _ => ∅) (hstep : StepsPlainSets S keys plain) :
    RefinesPlainSets S keys plain := by
  intro r cs s hrun hproper
  suffices h : (keys s).sets = plainSets (cs.map plain) ∧
      (∀ c ∈ cs, ∀ x ∈ (plain c).members, NulFree x) ∧ ∀ k, ∀ x ∈ (keys s).sets k, NulFree x by
    obtain ⟨hsets, hcs, hnul⟩ := h
    refine ⟨fun k => congrFun hsets k, fun c hc => ?_⟩
    obtain ⟨s', hs', -⟩ := hstep hrun hcs hnul hc
    exact ⟨s', hs'⟩
  induction hrun with
  | start =>
    refine ⟨h0 r, by simp, ?_⟩
    rw [h0]
    exact fun _ x hx => hx.elim
  | @step cs s s' c hrun hc ih =>
    obtain ⟨hsets, hcs, hnul⟩ := ih fun cs' c' s'' hpre =>
      hproper cs' c' s'' (hpre.trans (List.prefix_append cs [c]))
    have hpc := hproper cs c s List.prefix_rfl hrun
    obtain ⟨s'', hs'', hnext⟩ := hstep hrun hcs hnul hpc
    obtain rfl := Option.some.inj (hs''.symm.trans hc)
    refine ⟨?_, ?_, ?_⟩
    · rw [hnext, hsets, List.map_append, List.map_singleton, plainSets_concat]
    · intro c' hc'
      rcases List.mem_append.mp hc' with hc' | hc'
      · exact hcs c' hc'
      · rw [List.mem_singleton.mp hc']
        exact hpc.nulFree
    · rw [hnext]
      exact SetCmd.nulFree_apply hnul hpc.nulFree

end

end RemoveWin
