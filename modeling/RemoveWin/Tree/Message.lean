import RemoveWin.Message
import RemoveWin.TextCodec
import RemoveWin.Tree.Clocks

/-!
# The messages of the tree commands

An accepted tree command sends the arguments of the client followed by clocks. The effect phase
finds the last clock by counting from the back and the others by their positions, which are those
they have if the client gave exactly the arguments the command has. The command table asks for at
least so many. With one more, a clock is looked for where the client put that argument.

The text of a clock is made by `VCToSds`, and read with `SdsToVC` by `CR_GET` and `CR_GET_LAST`;
the two are inverse. So reading the clocks that were sent, and reading nothing that the client
wrote, are both a matter of positions.

## Main results

* `RemoveWin.tree_clocks_decode_iff` — the clocks obtained are those sent, and not the client's, if
  and only if there are no more arguments than the command has, or it is a delete
* `RemoveWin.TreeSent.read_eq` — such a message is read as it was meant
* `RemoveWin.tree_clocks_of_client` — a client that supplies a clock
-/

namespace RemoveWin

/-- The tree commands that send clocks. -/
inductive TreeProc where
  | insert
  | delete
  | changeValue
  | move
  deriving DecidableEq

namespace TreeProc

/-- The arity in `redisCommandTable`. -/
def arity : TreeProc → ℤ
  | .insert => -5
  | .delete => -3
  | .changeValue => -4
  | .move => -4

/-- The command of a line. -/
def cmd (p : TreeProc) (argv : List Sds) : TreeCmd :=
  match p with
  | .insert => .insert (argv.getD 2 []) (argv.getD 3 []) (argv.getD 4 [])
  | .delete => .delete (argv.getD 2 [])
  | .changeValue => .changeValue (argv.getD 2 []) (argv.getD 3 [])
  | .move => .move (argv.getD 2 []) (argv.getD 3 [])

/-- The positions that `CR_GET` and `CR_GET_LAST` are used on, for the clocks in the order in which
they are sent. -/
def clockAt (p : TreeProc) (rargc : ℕ) : List ℕ :=
  match p with
  | .insert => [5, rargc - 1]
  | .delete => [rargc - 1]
  | .changeValue => [4, rargc - 1]
  | .move => [4, 5, rargc - 1]

end TreeProc

/-- The test of the number of arguments in `processCommand`. -/
def ArityOk (arity : ℤ) (argc : ℕ) : Prop := ¬ (arity > 0 ∧ arity ≠ argc ∨ (argc : ℤ) < -arity)

/-- The command line passes the test of its length and is accepted by the prepare phase, which
leaves `rargv`. That is `c->rargv` for the effect phase at the origin, and the arguments of the
command that its peers receive. -/
structure TreeSent (srv : Server) (fuel : ℕ) (ht : TreeHT) (p : TreeProc) (argv : List Sds)
    (m : TreeMsg) (rargv : List Sds) : Prop where
  /-- The length of the line. -/
  arity : ArityOk p.arity argv.length
  prepared : ∃ q, treePrepare srv ⟨fuel, p.cmd argv⟩ ht = some q ∧ q.msg = some m
  /-- `RVCT_BROADCAST`. -/
  sent : (m.clocks.mapM vcToSds).bind (rargvOf argv) = some rargv

/-- `CR_GET`. -/
def crGet (rargv : List Sds) (n : ℕ) : Option VC := rargv[n]?.bind sdsToVC

/-- The clocks that an effect phase obtains. -/
def TreeProc.getClocks (p : TreeProc) (rargv : List Sds) : Option (List VC) :=
  (p.clockAt rargv.length).mapM (crGet rargv)

/-- The message as the effect phase finds it in `c->rargv`. -/
def TreeProc.read (p : TreeProc) (rargv : List Sds) : Option TreeMsg :=
  match p, p.getClocks rargv with
  | .insert, some [rp, r] =>
    some (.insert (rargv.getD 2 []) (rargv.getD 3 []) (rargv.getD 4 []) rp r)
  | .delete, some [r] => some (.delete (rargv.getD 2 []) r)
  | .changeValue, some [vcChangeval, r] =>
    some (.changeValue (rargv.getD 2 []) (rargv.getD 3 []) vcChangeval r)
  | .move, some [moveVC, rDst, rSrc] =>
    some (.move (rargv.getD 2 []) (rargv.getD 3 []) moveVC rDst rSrc)
  | _, _ => none

theorem crGet_append (argv : List Sds) {cs : List VC} {texts : List Sds}
    (h : List.Forall₂ (fun c t => vcToSds c = some t) cs texts) (j : ℕ) :
    crGet (argv ++ texts) (argv.length + j) = cs[j]? := by
  rw [crGet, List.getElem?_append_right (Nat.le_add_right _ _), Nat.add_sub_cancel_left]
  induction h generalizing j with
  | nil => rfl
  | cons ht _ ih =>
    cases j with
    | zero => exact sdsToVC_vcToSds ht
    | succ j => exact ih j

namespace TreeSent

variable {srv : Server} {fuel : ℕ} {ht : TreeHT} {p : TreeProc} {argv rargv : List Sds}
  {m : TreeMsg}

theorem accepts (h : TreeSent srv fuel ht p argv m rargv) : Accepts srv ht fuel (p.cmd argv) m := by
  obtain ⟨q, hq, hm⟩ := h.prepared
  exact (treePrepare_spec hq).msg m hm

theorem le_length (h : TreeSent srv fuel ht p argv m rargv) : -p.arity ≤ argv.length := by
  have harity := h.arity
  rw [ArityOk] at harity
  omega

theorem exists_row (h : TreeSent srv fuel ht p argv m rargv) :
    (∃ texts, rargv = argv ++ texts) ∧ rargv.length = argv.length + m.clocks.length ∧
      ∀ j, crGet rargv (argv.length + j) = m.clocks[j]? := by
  obtain ⟨texts, htexts, hsent⟩ := Option.bind_eq_some_iff.mp h.sent
  obtain ⟨rfl, -⟩ := eq_append_of_rargvOf hsent
  have hclocks := mapM_eq_some_iff.mp htexts
  refine ⟨⟨texts, rfl⟩, ?_, crGet_append argv hclocks⟩
  rw [List.length_append, hclocks.length_eq]

/-- Where the clocks are looked for are the client's arguments, unless there are just as many as
the command has. -/
theorem clockAt_iff (h : TreeSent srv fuel ht p argv m rargv) :
    (∀ i ∈ p.clockAt rargv.length, argv.length ≤ i) ↔
      p = .delete ∨ (argv.length : ℤ) = -p.arity := by
  obtain ⟨-, hlen, -⟩ := h.exists_row
  have hle := h.le_length
  have hacc := h.accepts
  rw [hlen]
  cases p with
  | insert =>
    cases hacc
    simp [TreeProc.clockAt, TreeProc.arity, TreeMsg.clocks] at hle ⊢
    omega
  | delete =>
    cases hacc
    simp [TreeProc.clockAt, TreeMsg.clocks]
  | changeValue =>
    cases hacc
    simp [TreeProc.clockAt, TreeProc.arity, TreeMsg.clocks] at hle ⊢
    omega
  | move =>
    cases hacc
    simp [TreeProc.clockAt, TreeProc.arity, TreeMsg.clocks] at hle ⊢
    omega

theorem getClocks_eq (h : TreeSent srv fuel ht p argv m rargv)
    (hargs : p = .delete ∨ (argv.length : ℤ) = -p.arity) :
    p.getClocks rargv = some m.clocks := by
  obtain ⟨-, hlen, hget⟩ := h.exists_row
  have hacc := h.accepts
  have h0 := hget 0
  have h1 := hget 1
  have h2 := hget 2
  rw [TreeProc.getClocks, hlen]
  cases p with
  | insert =>
    have hargc : (argv.length : ℤ) = 5 := hargs.resolve_left (by decide)
    norm_cast at hargc
    rw [hargc] at h0 h1 ⊢
    cases hacc
    show List.mapM (crGet rargv) [5, 6] = _
    rw [List.mapM_cons, List.mapM_cons, h0, h1]
    rfl
  | delete =>
    cases hacc
    show List.mapM (crGet rargv) [argv.length] = _
    rw [List.mapM_cons, ← add_zero argv.length, h0]
    rfl
  | changeValue =>
    have hargc : (argv.length : ℤ) = 4 := hargs.resolve_left (by decide)
    norm_cast at hargc
    rw [hargc] at h0 h1 ⊢
    cases hacc
    show List.mapM (crGet rargv) [4, 5] = _
    rw [List.mapM_cons, List.mapM_cons, h0, h1]
    rfl
  | move =>
    have hargc : (argv.length : ℤ) = 4 := hargs.resolve_left (by decide)
    norm_cast at hargc
    rw [hargc] at h0 h1 h2 ⊢
    cases hacc
    show List.mapM (crGet rargv) [4, 5, 6] = _
    rw [List.mapM_cons, List.mapM_cons, List.mapM_cons, h0, h1, h2]
    rfl

/-- **Without further arguments a message is read as it was meant**, so what the effect phase does
is the effect of that message. -/
theorem read_eq (h : TreeSent srv fuel ht p argv m rargv)
    (hargs : p = .delete ∨ (argv.length : ℤ) = -p.arity) : p.read rargv = some m := by
  obtain ⟨⟨texts, hrow⟩, -, -⟩ := h.exists_row
  have hle := h.le_length
  have hget : ∀ i, i < argv.length → rargv.getD i [] = argv.getD i [] := by
    intro i hi
    rw [hrow, List.getD_append _ _ _ _ hi]
  have hclocks := h.getClocks_eq hargs
  have hacc := h.accepts
  cases p with
  | insert =>
    have hargc : 5 ≤ argv.length := by simpa [TreeProc.arity] using hle
    cases hacc
    simp only [TreeProc.read, hclocks, TreeMsg.clocks, hget 2 (by omega), hget 3 (by omega),
      hget 4 (by omega)]
  | delete =>
    have hargc : 3 ≤ argv.length := by simpa [TreeProc.arity] using hle
    cases hacc
    simp only [TreeProc.read, hclocks, TreeMsg.clocks, hget 2 (by omega)]
  | changeValue =>
    have hargc : 4 ≤ argv.length := by simpa [TreeProc.arity] using hle
    cases hacc
    simp only [TreeProc.read, hclocks, TreeMsg.clocks, hget 2 (by omega), hget 3 (by omega)]
  | move =>
    have hargc : 4 ≤ argv.length := by simpa [TreeProc.arity] using hle
    cases hacc
    simp only [TreeProc.read, hclocks, TreeMsg.clocks, hget 2 (by omega), hget 3 (by omega)]

end TreeSent

/-- **Tree effects obtain the clocks that were sent**, and none from the client, if and only if the
line has no more arguments than the command, or the command is a delete. -/
theorem tree_clocks_decode_iff {srv : Server} {fuel : ℕ} {ht : TreeHT} {p : TreeProc}
    {argv rargv : List Sds} {m : TreeMsg} (h : TreeSent srv fuel ht p argv m rargv) :
    (p.getClocks rargv = some m.clocks ∧ ∀ i ∈ p.clockAt rargv.length, argv.length ≤ i) ↔
      p = .delete ∨ (argv.length : ℤ) = -p.arity := by
  constructor
  · rintro ⟨-, hat⟩
    exact h.clockAt_iff.mp hat
  · intro hargs
    exact ⟨h.getClocks_eq hargs, h.clockAt_iff.mpr hargs⟩

/-- A server of two, with the id 0. -/
def serverOfTwo : Server := ⟨2, 0, .insertion⟩

/-- `RWFTREEINSERT t n 0,0 a`, with further arguments. -/
def insertLine (more : List Sds) : List Sds :=
  [bytes [105], bytes [116], bytes [110], rootId, bytes [97]] ++ more

/-- On a tree with only its root the line is accepted, and sends two clocks `0,0|0`. -/
theorem treeSent_insertLine {more : List Sds} (hmore : more.length ≤ 1) :
    TreeSent serverOfTwo 1 (createEffect serverOfTwo .empty) .insert (insertLine more)
      (.insert (bytes [110]) rootId (bytes [97]) (newVC 2 0) (newVC 2 0))
      (insertLine more ++ [bytes [48, 44, 48, 124, 48], bytes [48, 44, 48, 124, 48]]) := by
  have hlen : (insertLine more).length = 5 + more.length := by
    rw [insertLine, List.length_append]
    rfl
  have htexts : [newVC 2 0, newVC 2 0].mapM vcToSds =
      some [bytes [48, 44, 48, 124, 48], bytes [48, 44, 48, 124, 48]] := by decide
  refine ⟨?_, ⟨_, rfl, rfl⟩, ?_⟩
  · rw [ArityOk, hlen, TreeProc.arity]
    omega
  · show ([newVC 2 0, newVC 2 0].mapM vcToSds).bind _ = _
    rw [htexts, Option.bind_some]
    refine rargvOf_eq_append ?_
    rw [hlen, List.length_cons, List.length_singleton]
    omega

/-- The line without further arguments: the two clocks are obtained. -/
theorem tree_clocks_decode_insert :
    TreeProc.insert.getClocks (insertLine [] ++ [bytes [48, 44, 48, 124, 48],
      bytes [48, 44, 48, 124, 48]]) = some [newVC 2 0, newVC 2 0] :=
  ((tree_clocks_decode_iff (@treeSent_insertLine [] (Nat.zero_le 1))).mpr (.inr rfl)).1

/-- **A clock of the client.** One more argument `7,7|0` is taken for the clock of the parent, and
the header of the root is set to it; one more argument `n` sends `SdsToVC` past its end. Both lines
are accepted. -/
theorem tree_clocks_of_client :
    (∃ m rargv, TreeSent serverOfTwo 1 (createEffect serverOfTwo .empty) .insert
        (insertLine [bytes [55, 44, 55, 124, 48]]) m rargv ∧
      TreeProc.insert.getClocks rargv = some [⟨[7, 7], 0⟩, newVC 2 0] ∧
      m.clocks = [newVC 2 0, newVC 2 0] ∧
      ((TreeProc.insert.read rargv).bind
        (treeEffect serverOfTwo (createEffect serverOfTwo .empty))).map
          (fun ht => (ht.node serverOfTwo rootId).header.current) = some ⟨[7, 7], 0⟩) ∧
    ∃ m rargv, TreeSent serverOfTwo 1 (createEffect serverOfTwo .empty) .insert
        (insertLine [bytes [110]]) m rargv ∧
      TreeProc.insert.getClocks rargv = none := by
  refine ⟨⟨_, _, treeSent_insertLine le_rfl, ?_, rfl, ?_⟩, _, _, treeSent_insertLine le_rfl, ?_⟩
  · decide
  · decide
  · decide

end RemoveWin
