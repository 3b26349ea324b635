import RemoveWin.Sds

/-!
# What a server is configured with

The part of `struct redisServer` that the replicated types read: how many replicas there are and
which of them this one is. Beside it stands the one thing about a process that the source leaves
to chance. Sets are hash tables seeded afresh in every process, so the order in which a server
iterates over a set is its own. It is a parameter here: the results about replicas hold for any
orders, one per server.
-/

namespace RemoveWin

/-- An order in which a server walks the members of a set. -/
structure Iteration where
  /-- The members in the order the iterator returns them. -/
  order : List Sds → List Sds
  perm : ∀ l, (order l).Perm l

@[simp] theorem Iteration.mem_order (it : Iteration) {l : List Sds} {x : Sds} :
    x ∈ it.order l ↔ x ∈ l := (it.perm l).mem_iff

theorem Iteration.nodup_order (it : Iteration) {l : List Sds} :
    (it.order l).Nodup ↔ l.Nodup := (it.perm l).nodup_iff

/-- Walking a set in the order its members were added. -/
def Iteration.insertion : Iteration := ⟨id, fun _ => List.Perm.refl _⟩

/-- Every replica iterates in insertion order. -/
abbrev inOrder (N : ℕ) : Fin N → Iteration := fun _ => .insertion

/-- The configuration of a server. -/
structure Server where
  /-- `server.p2p_count`, the number of replicas. -/
  p2pCount : ℕ
  /-- `server.p2p_id`, the id of this one. -/
  p2pId : ℤ
  /-- How this process walks its sets. -/
  iter : Iteration

/-- The server with id `r` among `N`, all configured alike. -/
def Server.of {N : ℕ} (iter : Fin N → Iteration) (r : Fin N) : Server := ⟨N, r.val, iter r⟩

end RemoveWin
