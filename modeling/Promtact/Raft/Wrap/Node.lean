import Promtact.Raft.Handlers

/-!
# The Raft node with 64-bit numbers (`raft/node.go`): its log, its voters and what it sends

In the source, terms and indexes are `uint64`. `Promtact.Raft.Node` computes with them as natural
numbers; the functions here have the same names and wrap around at `2 ^ 64`, as the source's do.
What involves no arithmetic is taken from there: the state of the node, the store, the checks of
entries and `send`.

A loop `for index := first; index <= last; index++` with `last = 2 ^ 64 - 1` does not end by its
condition: the counter goes on at `0`. The loops of the source look up the entry at each index, and
the entry at `0` is missing unless the log has no base; a log without a base would have `2 ^ 64`
entries to end there. So `indexes` goes on with `0` in that case, and no further.
-/

namespace Promtact.Raft.Wrap

open Refine

/-- `math.MaxUint64`. -/
def maxUint64 : Nat := 2 ^ 64 - 1

/-- The result of an addition of `uint64`. -/
@[irreducible] def wrap (x : Nat) : Nat := x % 2 ^ 64

theorem wrap_of_lt {x : Nat} (h : x < 2 ^ 64) : wrap x = x := by
  unfold wrap
  exact Nat.mod_eq_of_lt h

theorem wrap_lt (x : Nat) : wrap x < 2 ^ 64 := by
  unfold wrap
  exact Nat.mod_lt _ (Nat.two_pow_pos 64)

/-- The values of the counter in `for index := first; index <= last; index++`. -/
def indexes (first last : Nat) : List Nat :=
  List.range' first (last + 1 - first) ++ if last = maxUint64 then [0] else []

variable {σ : Type}

/-! ## The log -/

/-- `n.BaseIndex + uint64(len(n.Log)) - 1`. To subtract `1` is to add the largest `uint64`. -/
def lastIndex (n : Node σ) : Nat := wrap (maxUint64 + (n.baseIndex + n.log.length))

/-- The position of an index in the retained log. -/
def offset (n : Node σ) (index : Nat) : Option Nat :=
  if index < n.baseIndex ∨ lastIndex n < index then none else some (index - n.baseIndex)

/-- `EntryAt`. -/
def entryAt? (n : Node σ) (index : Nat) : Option Entry :=
  (offset n index).bind fun offset => n.log[offset]?

/-- The term of the entry at an index, if it is retained. -/
def termAt (n : Node σ) (index : Nat) : Option Nat := (entryAt? n index).map (·.term)

/-- The term of the entry at an index that has to be retained. -/
def termAtMust (n : Node σ) (index : Nat) : Except Panic Nat :=
  match termAt n index with
  | some term => pure term
  | none => throw .logIndex

/-- The entry at an index that has to be retained. -/
def entryAt (n : Node σ) (index : Nat) : Except Panic Entry :=
  match entryAt? n index with
  | some entry => pure entry
  | none => throw .logIndex

/-! ## The voters -/

/-- The loop that `effectiveVoters` and `canCommitIndex` share: the last joint entry wins over the
committed voters. -/
def jointVoters (n : Node σ) (first last : Nat) : Except Panic (Mask × Mask) :=
  (indexes first last).foldlM (fun voters index => do
    let entry ← entryAt n index
    pure (if entry.kind = .jointConfig then (entry.oldVoters, entry.newVoters) else voters))
    (n.votersOld, n.votersNew)

/-- The first index that is neither committed nor the base. -/
def firstPending (n : Node σ) : Nat := max (wrap (n.commit + 1)) (wrap (n.baseIndex + 1))

/-- The voters with those of a joint entry that is not committed yet. -/
def effectiveVoters (n : Node σ) : Except Panic (Mask × Mask) :=
  jointVoters n (firstPending n) (lastIndex n)

/-- Those who have acknowledged an index may commit it. -/
def canCommitIndex (n : Node σ) (index : Nat) (acked : Mask) : Except Panic Bool := do
  let voters ← jointVoters n (wrap (n.commit + 1)) index
  pure (Node.quorumOf voters acked)

/-- The mask has a majority of the effective voters. -/
def quorumMask (n : Node σ) (mask : Mask) : Except Panic Bool := do
  let voters ← effectiveVoters n
  pure (Node.quorumOf voters mask)

/-- The node `id` is one of the effective voters. -/
def isVoter (n : Node σ) (id : Nat) : Except Panic Bool := do
  let voters ← effectiveVoters n
  let bit ← nodeBit id
  pure ((voters.1 ||| voters.2) &&& bit != 0)

/-! ## Peers -/

/-- The body of `ensurePeers` for one identifier. -/
def ensurePeer (mask : Mask) (id : Nat) (n : Node σ) : Node σ :=
  if id = n.id ∨ mask &&& bit id = 0 then n
  else if id ∈ n.peers then n
  else ({ n with peers := n.peers ++ [id] }.setNext id (wrap (lastIndex n + 1))).setMatch id 0

/-- The nodes of a mask become peers. -/
def ensurePeers (mask : Mask) (n : Node σ) : Node σ :=
  (List.range' 1 64).foldl (fun n id => ensurePeer mask id n) n

variable [StableStore σ]

/-! ## Sending -/

/-- The append that carries the entry at `next`, or none if `next` is past the log. `next` is not
`0`. -/
def appendMessage (n : Node σ) (p next : Nat) (context : UInt64) : Except Panic Message := do
  let prevTerm ← termAtMust n (next - 1)
  if next < wrap (lastIndex n + 1) then do
    let entry ← entryAt n next
    pure { n.heartbeat p (next - 1) prevTerm context with entry, hasEntry := true }
  else pure (n.heartbeat p (next - 1) prevTerm context)

/-- The next entries, or the snapshot, for a peer. -/
def appendToContext (p : Nat) (context : UInt64) : NodeM σ Unit := do
  let n ← get
  if n.next p ≤ n.baseIndex then send (n.snapshotMessage p)
  else do
    modify fun n =>
      if n.next p > wrap (lastIndex n + 1) then n.setNext p (wrap (lastIndex n + 1)) else n
    let n ← get
    -- `if next == 0 { next = 1 }`
    let m ← appendMessage n p (max (n.next p) 1) context
    send m

/-- The next entries for a peer, outside a read. -/
def appendTo (p : Nat) : NodeM σ Unit := appendToContext p 0

/-- The next entries for all peers that vote. -/
def broadcastAppend : NodeM σ Unit := do
  let n ← get
  n.peers.forM fun p => do
    let n ← get
    let voter ← isVoter n p
    if voter then appendTo p else pure ()

end Promtact.Raft.Wrap
