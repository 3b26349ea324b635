import RemoveWin.SetSequential
import RemoveWin.KeySpace.OrSet
import RemoveWin.KeySpace.PnSet
import RemoveWin.KeySpace.RwSet

/-!
# A server by itself

What a server of one of the set families shows that hears of nobody, with the tables in its key
space. As long as no named key is another named key with the suffix of the tables, it shows what a
replica with private tables shows. So the RWF-Set and the OR-Set refine the plain sets, and the
store commands and the members of any bytes are as `SetStores` and `BinarySafe` have it. A set at
the key of a table is changed by commands on another set.

## Main results

* `RemoveWin.servers_sequential`, `servers_sequential_frame` — plain sets
* `RemoveWin.servers_store_iff`, `servers_store_keep_rest` — store commands
* `RemoveWin.servers_binary_safe_iff`, `servers_binary_safe_cuts` — members of any bytes
-/

namespace RemoveWin

open Replicated

/-! ### What is asked of servers -/

section

variable {N : ℕ} {ε Cmd Msg : Type}

/-- **Servers refine the plain sets** as long as clients name keys in `S` and ask for proper
commands: a server is up and shows the plain sets, and it is up after the next command. -/
def ServersRefine (O : OpBased (Fin N) (Option (Space ε)) Cmd Msg) (suffix : Sds) (S : Set Sds)
    (plain : Cmd → SetCmd) : Prop :=
  ∀ r cs s, Alone O r cs s → (∀ c ∈ cs, (plain c).NamedIn S) →
    (∀ cs' c s', cs' ++ [c] <+: cs → Alone O r cs' s' →
      (plain c).Proper (readSets suffix s').keys) →
    s.isSome ∧
    (∀ k, {x | x ∈ (readSets suffix s).keys.visible k} = plainSets (cs.map plain) k) ∧
    ∀ c, (plain c).NamedIn S → (plain c).Proper (readSets suffix s).keys →
      ∃ sp, O.perform r c s = some (some sp)

/-- **Servers store the result exactly when a condition holds**, as long as clients name keys in
`S`. The destination is there. -/
def ServersStoreWhen (O : OpBased (Fin N) (Option (Space ε)) Cmd Msg) (suffix : Sds) (S : Set Sds)
    (plain : Cmd → SetCmd) (cmd : Sds → Sds → List Sds → StoreOp → Cmd)
    (cond : Fin N → SetDb ε → Sds → Set Sds → Prop) : Prop :=
  ∀ r cs s, Alone O r cs s → (∀ c ∈ cs, (plain c).NamedIn S) → ∀ op dst src srcs,
    (∀ k ∈ dst :: src :: srcs, k ∈ S) → (readSets suffix s).keys dst ≠ none →
    ∃ sp, O.perform r (cmd dst src srcs op) s = some (some sp) ∧
      ((readSets suffix (some sp)).keys.sets dst =
          op.result (readSets suffix s).keys.sets src srcs ↔
        op.Within ((readSets suffix s).keys.sets dst)
            (op.result (readSets suffix s).keys.sets src srcs) ∧
          cond r (readSets suffix s) dst (op.result (readSets suffix s).keys.sets src srcs))

/-- **Servers are safe exactly when a condition holds**, as long as clients name keys in `S`. The
command is accepted. -/
def ServersSafeWhen (O : OpBased (Fin N) (Option (Space ε)) Cmd Msg) (suffix : Sds) (S : Set Sds)
    (plain : Cmd → SetCmd) (cmd : Sds → List Sds → Cmd) (does : Sds → List Sds → SetCmd)
    (cond : Fin N → SetDb ε → Sds → List Sds → Prop) : Prop :=
  ∀ r cs s, Alone O r cs s → (∀ c ∈ cs, (plain c).NamedIn S) → ∀ key xs s₁ m, key ∈ S →
    O.prepare r (cmd key xs) s = some (s₁, some m) →
    (O.effect r m s₁).isSome ∧
      (BinarySafe Db.keys Db.elems does key xs (readSets suffix s)
        (readSets suffix (O.effect r m s₁)) ↔ cond r (readSets suffix s) key xs)

end

theorem SetCmd.Proper.congr {ks ks' : Keys} {c : SetCmd} (hks : ∀ k ∈ c.named, ks k = ks' k)
    (h : c.Proper ks) : c.Proper ks' := by
  cases c with
  | add => exact h
  | rem => exact h
  | unionstore dst => exact ⟨h.1, hks dst List.mem_cons_self ▸ h.2⟩
  | diffstore dst => exact ⟨h.1, hks dst List.mem_cons_self ▸ h.2⟩
  | interstore dst => exact ⟨h.1, hks dst List.mem_cons_self ▸ h.2⟩

/-! ### From replicas with private tables -/

section

variable {N : ℕ} {ε Cmd Msg : Type} {suffix : Sds} {S : Set Sds}
  {O : OpBased (Fin N) (Option (Space ε)) Cmd Msg} {T : OpBased (Fin N) (SetDb ε) Cmd Msg}
  {plain : Cmd → SetCmd} {good : Msg → Prop} {s : Option (Space ε)} {db : SetDb ε}

theorem Up.keys_eq (h : Up (Private RedisObj.asRObj suffix RedisObj.IsPlainSet S) s db) {k : Sds}
    (hk : k ∈ S) : (readSets suffix s).keys k = db.keys k := by
  obtain ⟨sp, rfl, hsp⟩ := h
  exact hsp.view k hk

theorem Up.sets_eq (h : Up (Private RedisObj.asRObj suffix RedisObj.IsPlainSet S) s db) :
    (readSets suffix s).keys.sets = db.keys.sets := by
  funext k
  ext x
  rw [Keys.mem_sets, Keys.mem_sets, h.visible_eq]

variable (hsim : Simulates O T
    (fun _ => Up (Private RedisObj.asRObj suffix RedisObj.IsPlainSet S))
    (fun c => (plain c).NamedIn S) good)
include hsim

theorem serversRefine (hT : RefinesPlainSets T Db.keys plain) :
    ServersRefine O suffix S plain := by
  intro r cs s hs hnames hproper
  obtain ⟨t, ht, hst⟩ := hsim.exists_alone hs hnames
  -- the first commands are proper for the replica too, whose state they determine
  have hproper' : ∀ cs' c t', cs' ++ [c] <+: cs → Alone T r cs' t' →
      (plain c).Proper t'.keys := by
    intro cs' c t' hpre ht'
    obtain ⟨s', hs'⟩ := hs.exists_of_prefix ((List.prefix_append cs' [c]).trans hpre)
    obtain ⟨u, hu, hsu⟩ := hsim.exists_alone hs' fun c' hc' =>
      hnames c' (hpre.subset (List.mem_append_left _ hc'))
    obtain rfl := hu.unique ht'
    have hc : (plain c).NamedIn S := hnames c (hpre.subset (by simp))
    exact (hproper cs' c s' hpre hs').congr fun k hk => hsu.keys_eq (hc k hk)
  obtain ⟨hsets, hnext⟩ := hT r cs t ht hproper'
  refine ⟨hst.isSome, fun k => ?_, fun c hc hpc => ?_⟩
  · rw [hst.visible_eq]
    exact hsets k
  · obtain ⟨t', ht'⟩ := hnext c (hpc.congr fun k hk => hst.keys_eq (hc k hk))
    obtain ⟨s', hs', sp, rfl, -⟩ := hsim.performed hc hst ht'
    exact ⟨sp, hs'⟩

theorem serversStoreWhen {cmd : Sds → Sds → List Sds → StoreOp → Cmd}
    {cond : Fin N → SetDb ε → Sds → Set Sds → Prop}
    (hT : StoresWhen T Db.keys cmd cond)
    (hcmd : ∀ op dst src srcs, (plain (cmd dst src srcs op)).named = dst :: src :: srcs)
    (hcond : ∀ {r db db' dst R}, db.keys.sets = db'.keys.sets → db.elems = db'.elems →
      (cond r db dst R ↔ cond r db' dst R)) :
    ServersStoreWhen O suffix S plain cmd cond := by
  intro r cs s hs hnames op dst src srcs hS hdst
  obtain ⟨t, ht, hst⟩ := hsim.exists_alone hs hnames
  rw [hst.keys_eq (hS dst List.mem_cons_self)] at hdst
  obtain ⟨t', ht', hiff⟩ := hT r cs t ht op dst src srcs hdst
  have hc : (plain (cmd dst src srcs op)).NamedIn S := by
    rw [SetCmd.NamedIn, hcmd]
    exact hS
  obtain ⟨s', hs', hst'⟩ := hsim.performed hc hst ht'
  have hsets := hst.sets_eq
  have hsets' := hst'.sets_eq
  obtain ⟨sp, rfl⟩ := Option.isSome_iff_exists.mp hst'.isSome
  refine ⟨sp, hs', ?_⟩
  rw [hsets', hsets, hcond hsets hst.elems_eq]
  exact hiff

theorem serversSafeWhen {cmd : Sds → List Sds → Cmd} {does : Sds → List Sds → SetCmd}
    {cond : Fin N → SetDb ε → Sds → List Sds → Prop}
    (hT : SafeWhen T Db.keys Db.elems cmd does
      cond)
    (hcmd : ∀ key xs, (plain (cmd key xs)).named = [key])
    (hcond : ∀ {r db db' key xs}, db.keys.visible = db'.keys.visible → db.elems = db'.elems →
      (cond r db key xs ↔ cond r db' key xs)) :
    ServersSafeWhen O suffix S plain cmd does cond := by
  intro r cs s hs hnames key xs s₁ m hkey hprep
  obtain ⟨t, ht, hst⟩ := hsim.exists_alone hs hnames
  have hc : (plain (cmd key xs)).NamedIn S := by
    rw [SetCmd.NamedIn, hcmd]
    exact List.forall_mem_singleton.mpr hkey
  obtain ⟨t₁, ht₁, hst'⟩ := hsim.accepted hc hst hprep
  have hiff : _ ↔ cond r t key xs := hT r cs t ht key xs t₁ m ht₁
  refine ⟨hst'.isSome, ?_⟩
  rw [hcond (funext (hst.visible_eq)) hst.elems_eq, ← hiff]
  have hsets := hst.sets_eq
  have hsets' := hst'.sets_eq
  have helems := hst.elems_eq
  have helems' := hst'.elems_eq
  constructor
  · rintro ⟨hset, hentries⟩
    rw [hsets', hsets] at hset
    rw [helems, helems'] at hentries
    exact ⟨hset, hentries⟩
  · rintro ⟨hset, hentries⟩
    refine ⟨?_, ?_⟩
    · rw [hsets', hsets]
      exact hset
    · rw [helems, helems']
      exact hentries

end

/-! ### The families -/

section

variable {N : ℕ} {lim : EncodingLimits} {peek : Fin N → Sds → Bool} {iter : Fin N → Iteration}
  {S : Set Sds}

theorem rwServers_refine (hS : Apart rwSuffix S) :
    ServersRefine (rwServers lim iter) rwSuffix S RwCmd.plain :=
  serversRefine (rwServers_simulates hS) (rwSet_refines iter)

theorem orServers_refine (hS : Apart orSuffix S) :
    ServersRefine (orServers lim peek iter) orSuffix S OrCmd.plain :=
  serversRefine (orServers_simulates hS) (orSet_refines iter)

theorem rwServers_storeWhen (hS : Apart rwSuffix S) :
    ServersStoreWhen (rwServers lim iter) rwSuffix S RwCmd.plain StoreOp.rw
      fun _ => Db.SendsWhole := by
  refine serversStoreWhen (rwServers_simulates hS) (rwSet_storesWhen iter) (fun op => ?_) ?_
  · cases op <;> exact fun _ _ _ => rfl
  · intro r db db' dst R hsets _
    simp only [Db.SendsWhole, hsets]

theorem orServers_storeWhen (hS : Apart orSuffix S) :
    ServersStoreWhen (orServers lim peek iter) orSuffix S OrCmd.plain StoreOp.or
      fun r => Db.DrawsLive (.of iter r) := by
  refine serversStoreWhen (orServers_simulates hS) (orSet_storesWhen iter) (fun op => ?_) ?_
  · cases op <;> exact fun _ _ _ => rfl
  · intro r db db' dst R hsets helems
    simp only [Db.DrawsLive, Db.nextTag, Db.ore, Db.elem, hsets, helems]

theorem pnServers_storeWhen (hS : Apart pnSuffix S) :
    ServersStoreWhen (pnServers lim iter) pnSuffix S PnCmd.plain StoreOp.pn
      fun _ => Db.CountsOne := by
  refine serversStoreWhen (pnServers_simulates hS) (pnSet_storesWhen iter) (fun op => ?_) ?_
  · cases op <;> exact fun _ _ _ => rfl
  · intro r db db' dst R hsets helems
    simp only [Db.CountsOne, Db.pne, Db.elem, hsets, helems]

theorem rwServers_add_safeWhen (hS : Apart rwSuffix S) :
    ServersSafeWhen (rwServers lim iter) rwSuffix S RwCmd.plain .add .add fun _ _ _ _ => True :=
  serversSafeWhen (rwServers_simulates hS) (rwSet_add_safeWhen iter) (fun _ _ => rfl)
    fun _ _ => Iff.rfl

theorem rwServers_rem_safeWhen (hS : Apart rwSuffix S) :
    ServersSafeWhen (rwServers lim iter) rwSuffix S RwCmd.plain .rem .rem
      fun _ => Db.RemovesWhole := by
  refine serversSafeWhen (rwServers_simulates hS) (rwSet_rem_safeWhen iter) (fun _ _ => rfl) ?_
  intro r db db' key xs hvisible _
  simp only [Db.RemovesWhole, hvisible]

theorem orServers_add_safeWhen (hS : Apart orSuffix S) :
    ServersSafeWhen (orServers lim peek iter) orSuffix S OrCmd.plain .add .add
      fun r => Db.DrawsWhole (.of iter r) := by
  refine serversSafeWhen (orServers_simulates hS) (orSet_add_safeWhen iter) (fun _ _ => rfl) ?_
  intro r db db' key xs hvisible helems
  have hore : ∀ n x, db.ore n x = db'.ore n x := fun n x => by
    rw [Db.ore, Db.elem, helems, Db.ore, Db.elem]
  constructor
  · rintro ⟨hnul, hlive⟩
    simp only [hvisible, Db.tagAfter, hore] at hlive
    exact ⟨hnul, hlive⟩
  · rintro ⟨hnul, hlive⟩
    simp only [← hvisible, Db.tagAfter, ← hore] at hlive
    exact ⟨hnul, hlive⟩

theorem orServers_rem_safeWhen (hS : Apart orSuffix S) :
    ServersSafeWhen (orServers lim peek iter) orSuffix S OrCmd.plain .rem .rem
      fun _ _ _ _ => True :=
  serversSafeWhen (orServers_simulates hS) (orSet_rem_safeWhen iter) (fun _ _ => rfl)
    fun _ _ => Iff.rfl

theorem pnServers_add_safeWhen (hS : Apart pnSuffix S) :
    ServersSafeWhen (pnServers lim iter) pnSuffix S PnCmd.plain .add .add
      fun _ _ _ xs => ∀ x ∈ xs, NulFree x :=
  serversSafeWhen (pnServers_simulates hS) (pnSet_add_safeWhen iter) (fun _ _ => rfl)
    fun _ _ => Iff.rfl

end

/-! ### Plain sets -/

instance (ks : Keys) (c : SetCmd) : Decidable (c.Proper ks) :=
  match c with
  | .add _ members => inferInstanceAs (Decidable (members ≠ [] ∧ ∀ x ∈ members, NulFree x))
  | .rem _ members => inferInstanceAs (Decidable (members ≠ [] ∧ ∀ x ∈ members, NulFree x))
  | .unionstore dst src _ | .diffstore dst src _ | .interstore dst src _ =>
    decidable_of_iff (src = dst ∧ (ks dst).isSome) (and_congr_right' Option.isSome_iff_ne_none)

/-- Commands that are proper where they are executed. -/
theorem proper_of_performAll {ι σ Cmd Msg : Type} {O : OpBased ι σ Cmd Msg} {r : ι}
    {cs : List Cmd} {keys : σ → Keys} {plain : Cmd → SetCmd}
    (h : ∀ i : Fin cs.length, ∀ s ∈ O.performAll r (cs.take i) (O.init r),
      (plain cs[i]).Proper (keys s)) (cs' : List Cmd) (c : Cmd) (s' : σ)
    (hpre : cs' ++ [c] <+: cs) (hs' : Alone O r cs' s') : (plain c).Proper (keys s') := by
  obtain ⟨rest, rfl⟩ := hpre
  have hc := h ⟨cs'.length, by simp⟩ s' (by simpa using hs'.performAll_eq)
  simpa using hc

theorem Keys.sets_eq_singleton {ks : Keys} {k a : Sds} (h : ks.visible k = [a]) :
    ks.sets k = {a} := by
  ext x
  rw [Keys.mem_sets, h, List.mem_singleton, Set.mem_singleton_iff]

theorem Keys.ne_none_of_visible {ks : Keys} {k a : Sds} {xs : List Sds}
    (h : ks.visible k = a :: xs) : ks k ≠ none := fun hnone => by
  rw [Keys.visible_of_none hnone] at h
  cases h

/-- Every store command into a destination that is there, from one source that has nothing in
common with it, leaves something else than the result. -/
theorem ServersStoreWhen.exists_ne {N : ℕ} {ε Cmd Msg : Type}
    {O : OpBased (Fin N) (Option (Space ε)) Cmd Msg} {suffix : Sds} {S : Set Sds}
    {plain : Cmd → SetCmd} {cmd : Sds → Sds → List Sds → StoreOp → Cmd}
    {cond : Fin N → SetDb ε → Sds → Set Sds → Prop}
    (h : ServersStoreWhen O suffix S plain cmd cond) {r : Fin N} {cs : List Cmd}
    {s : Option (Space ε)} (hrun : Alone O r cs s) (hnames : ∀ c ∈ cs, (plain c).NamedIn S)
    {dst src a b : Sds} (hS : ∀ k ∈ [dst, src], k ∈ S) (hab : a ≠ b)
    (hdst : (readSets suffix s).keys.visible dst = [a])
    (hsrc : (readSets suffix s).keys.visible src = [b]) (op : StoreOp) :
    ∃ sp, O.perform r (cmd dst src [] op) s = some (some sp) ∧
      (readSets suffix (some sp)).keys.sets dst ≠
        op.result (readSets suffix s).keys.sets src [] := by
  obtain ⟨sp, hsp, hiff⟩ := h r cs s hrun hnames op dst src [] hS (Keys.ne_none_of_visible hdst)
  exact ⟨sp, hsp, fun heq => StoreOp.not_within_singletons hab (Keys.sets_eq_singleton hdst)
    (Keys.sets_eq_singleton hsrc) op (hiff.mp heq).1⟩

/-- Where the condition fails, an accepted command is not safe. -/
theorem ServersSafeWhen.exists_not_safe {N : ℕ} {ε Cmd Msg : Type}
    {O : OpBased (Fin N) (Option (Space ε)) Cmd Msg} {suffix : Sds} {S : Set Sds}
    {plain : Cmd → SetCmd} {cmd : Sds → List Sds → Cmd} {does : Sds → List Sds → SetCmd}
    {cond : Fin N → SetDb ε → Sds → List Sds → Prop}
    (h : ServersSafeWhen O suffix S plain cmd does cond) {r : Fin N} {cs : List Cmd}
    {s : Option (Space ε)} (hrun : Alone O r cs s) (hnames : ∀ c ∈ cs, (plain c).NamedIn S)
    {key : Sds} {xs : List Sds} (hkey : key ∈ S) (hcond : ¬ cond r (readSets suffix s) key xs)
    (hacc : ((O.prepare r (cmd key xs) s).bind Prod.snd).isSome) :
    ∃ s₁ m, O.prepare r (cmd key xs) s = some (s₁, some m) ∧
      ¬ BinarySafe Db.keys Db.elems does key xs (readSets suffix s)
        (readSets suffix (O.effect r m s₁)) := by
  obtain ⟨s₁, m, hprep⟩ := exists_accepted hacc
  exact ⟨s₁, m, hprep, fun hsafe =>
    hcond ((h r cs s hrun hnames key xs s₁ m hkey hprep).2.mp hsafe)⟩

end RemoveWin
