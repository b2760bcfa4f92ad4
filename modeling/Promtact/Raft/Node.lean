import Promtact.Lib.Sim
import Promtact.Raft.Mask

/-!
# The Raft node (`raft/node.go`): its state, its log and its voters

A method of the Go type `*Node` is a program of `NodeM`: it reads and writes the node, and it may
panic. A panic keeps what the method did before it, so that the store is left as it was when the
process died. Methods that only read are functions of the node; those that may panic return
`Except Panic`.

`offset`, `entryAt?` (the source's `EntryAt`), `termAt`, `termAtMust` and `entryAt` go from an
absolute log index to the retained log, whose first element stands for the index `baseIndex`.
-/

namespace Promtact.Raft

open Refine

/-- The length of the `outbound` array. -/
def outboundCapacity : Nat := 4096

/-- A message, and the commit index and the store of the node when it was enqueued. -/
structure Enqueued (σ : Type) where
  message : Message
  commit : Nat
  store : σ

/-- `Node`: the fields of the source, and `enqueued`, which records each message with the commit
index and the store it was sent at. -/
structure Node (σ : Type) where
  id : Nat
  peers : List Nat
  state : State := .follower
  term : Nat := 0
  votedFor : Nat := 0
  leader : Nat := 0
  log : List Entry := [{}]
  baseIndex : Nat := 0
  baseTerm : Nat := 0
  commit : Nat := 0
  applied : Nat := 0
  timeout : Nat
  elapsed : Nat := 0
  voteMask : Mask := 0
  preVoteMask : Mask := 0
  preVoteTerm : Nat := 0
  next : Nat → Nat := fun _ => 0
  /-- The source's `match`. -/
  matchIdx : Nat → Nat := fun _ => 0
  outbound : List Message := []
  store : σ
  faulted : Bool := false
  storageErr : Option StorageError := none
  readContext : UInt64 := 0
  readAckMask : Mask := 0
  readIndex : Nat := 0
  readReady : Bool := false
  snapshot : Snapshot := {}
  votersOld : Mask := 0
  votersNew : Mask := 0
  pendingConfig : Nat := 0
  /-- Auxiliary: what was enqueued so far. The source has no such field, and no method reads it. -/
  enqueued : List (Enqueued σ) := []

/-- The methods of a node. -/
abbrev NodeM (σ : Type) := EStateM Panic (Node σ)

/-- The loop of `NewNodeWithStore` over the peers, from the identifiers seen so far. -/
def collectVoters : List Nat → Mask → Except Panic Mask
  | [], voters => pure voters
  | peer :: peers, voters => do
    let bit ← nodeBit peer
    if voters &&& bit ≠ 0 then throw .duplicateID else collectVoters peers (voters ||| bit)

variable {σ : Type}

/-- `NewNodeWithStore`: a node starts as a follower of term 0 with the given voters. -/
def newNodeWithStore (id : Nat) (peers : List Nat) (electionTimeout : Nat) (store : σ) :
    Except Panic (Node σ) := do
  let seen ← nodeBit id
  let voters ← collectVoters peers seen
  pure { id, peers, timeout := electionTimeout, votersOld := voters, store }

namespace Node

variable (n : Node σ)

/-! ## The log -/

/-- The index of the last entry. -/
def lastIndex : Nat := n.baseIndex + n.log.length - 1

/-- Where an index stands in `log`, if it does. -/
def offset (index : Nat) : Option Nat :=
  if index < n.baseIndex ∨ n.lastIndex < index then none else some (index - n.baseIndex)

/-- `EntryAt`. -/
def entryAt? (index : Nat) : Option Entry := (n.offset index).bind fun offset => n.log[offset]?

/-- The term of the entry at an index. -/
def termAt (index : Nat) : Option Nat := (n.entryAt? index).map (·.term)

/-- `termAtMust`: an index outside the log is a panic. -/
def termAtMust (index : Nat) : Except Panic Nat :=
  match n.termAt index with
  | some term => pure term
  | none => throw .logIndex

/-- `entryAt`: an index outside the log is a panic. -/
def entryAt (index : Nat) : Except Panic Entry :=
  match n.entryAt? index with
  | some entry => pure entry
  | none => throw .logIndex

/-! ## The voters -/

/-- The loop that `effectiveVoters` and `canCommitIndex` share: the last joint entry from `first`
to `last` wins over the committed voters. A final entry does not: it takes effect when it is
committed. -/
def jointVoters (first last : Nat) : Except Panic (Mask × Mask) :=
  (List.range' first (last + 1 - first)).foldlM (fun voters index => do
    let entry ← n.entryAt index
    pure (if entry.kind = .jointConfig then (entry.oldVoters, entry.newVoters) else voters))
    (n.votersOld, n.votersNew)

/-- The voters once every entry of the log is applied. -/
def effectiveVoters : Except Panic (Mask × Mask) :=
  n.jointVoters (max (n.commit + 1) (n.baseIndex + 1)) n.lastIndex

/-- A majority of the old voters, and of the new ones during a transition. -/
def quorumOf (voters : Mask × Mask) (mask : Mask) : Bool :=
  majorityMask voters.1 mask && (voters.2 == 0 || majorityMask voters.2 mask)

/-- Whether the acknowledgements are a quorum of the voters at `index`. -/
def canCommitIndex (index : Nat) (acked : Mask) : Except Panic Bool := do
  let voters ← n.jointVoters (n.commit + 1) index
  pure (quorumOf voters acked)

/-- Whether a mask is a quorum of the effective voters. -/
def quorumMask (mask : Mask) : Except Panic Bool := do
  let voters ← n.effectiveVoters
  pure (quorumOf voters mask)

/-- Whether a member votes in one of the effective configurations. -/
def isVoter (id : Nat) : Except Panic Bool := do
  let voters ← n.effectiveVoters
  let bit ← nodeBit id
  pure ((voters.1 ||| voters.2) &&& bit != 0)

/-- `validNewEntry`: what a follower demands of an entry it appends, by its kind. -/
def validNewEntry (entry : Entry) : Bool :=
  match entry.kind with
  | .normal => entry.oldVoters == 0 && entry.newVoters == 0 &&
      (entry.operation == .legacy ||
        ((entry.operation == .put || entry.operation == .delete) &&
          entry.clientID != 0 && entry.requestID != 0))
  | .noop => entry.command == 0 && entry.oldVoters == 0 && entry.newVoters == 0 &&
      entry.operation == .legacy
  | .jointConfig => n.pendingConfig == 0 && n.votersNew == 0 &&
      entry.oldVoters == n.votersOld && entry.oldVoters != 0 && entry.newVoters != 0
  | .finalConfig => n.pendingConfig == 0 && n.votersNew != 0 &&
      entry.oldVoters == n.votersNew && entry.newVoters == 0
  | .other _ _ => false

/-! ## Peers and their progress -/

/-- The next index to send to a peer. -/
def setNext (id index : Nat) : Node σ := { n with next := Function.update n.next id index }

/-- The last index a peer is known to have. -/
def setMatch (id index : Nat) : Node σ := { n with matchIdx := Function.update n.matchIdx id index }

/-- The body of `ensurePeers` for one identifier. -/
def ensurePeer (mask : Mask) (id : Nat) : Node σ :=
  if id = n.id ∨ mask &&& bit id = 0 then n
  else if id ∈ n.peers then n
  else ({ n with peers := n.peers ++ [id] }.setNext id (n.lastIndex + 1)).setMatch id 0

/-- Every member of the mask becomes a peer, lowest id first. -/
def ensurePeers (mask : Mask) : Node σ :=
  (List.range' 1 64).foldl (fun n id => n.ensurePeer mask id) n

end Node

/-- The entry is a joint or a final configuration. -/
def Entry.isConfig (entry : Entry) : Bool :=
  entry.kind == .jointConfig || entry.kind == .finalConfig

variable [StableStore σ]

/-! ## Storage -/

/-- `failStorageWith`, and `failStorage` for no error. The first error is kept by `failStorage`
only. -/
def Node.fail (n : Node σ) (err : Option StorageError) : Node σ :=
  { n with
    storageErr := some (err.getD (n.storageErr.getD errStorage))
    faulted := true
    state := .follower
    leader := 0
    outbound := [] }

/-- `failStorage`: the node stops; its error is `ErrStorage` unless it has one. -/
def failStorage : NodeM σ Unit := modify fun n => n.fail none

/-- `failStorageWith`: the node stops with the error of its store. -/
def failStorageWith (err : StorageError) : NodeM σ Unit := modify fun n => n.fail (some err)

/-- A call of the store. The result is the error it returned. -/
def callStore (x : EStateM StorageError σ Unit) : NodeM σ (Option StorageError) := fun n =>
  match x n.store with
  | .ok _ store => .ok none { n with store }
  | .error err store => .ok (some err) { n with store }

/-- A call of the store after whose failure the node stops. -/
def callStoreOrFail (x : EStateM StorageError σ Unit) : NodeM σ Bool := do
  match ← callStore x with
  | some err => do failStorageWith err; pure false
  | none => pure true

/-- The hard state is saved; the node stops where that fails. -/
def persistHardState (h : HardState) : NodeM σ Bool :=
  callStoreOrFail (StableStore.saveHardState h)

/-! ## Sending -/

/-- A message is queued, with the commit index and the store of this moment. -/
def Node.enqueue (n : Node σ) (m : Message) : Node σ :=
  { n with
    outbound := n.outbound ++ [m]
    enqueued := n.enqueued ++ [{ message := m, commit := n.commit, store := n.store }] }

/-- `send`: a full queue is a panic. -/
def send (m : Message) : NodeM σ Unit := do
  let n ← get
  if n.outbound.length = outboundCapacity then throw .outbound
  else modify fun n => n.enqueue m

/-- The message to a peer whose next entry was compacted away. -/
def Node.snapshotMessage (n : Node σ) (p : Nat) : Message :=
  { type := .installSnapshot, src := n.id, dst := p, term := n.term
    snapshotIndex := n.snapshot.lastIndex, snapshotTerm := n.snapshot.lastTerm
    snapshot := n.snapshot.state
    snapshotOld := n.snapshot.oldVoters, snapshotNew := n.snapshot.newVoters }

/-- The append without an entry. -/
def Node.heartbeat (n : Node σ) (p prev prevTerm : Nat) (context : UInt64) : Message :=
  { type := .append, src := n.id, dst := p, term := n.term
    logIndex := prev, logTerm := prevTerm, commit := n.commit, context }

/-- The append that carries the entry at `next`, or none if `next` is past the log. -/
def Node.appendMessage (n : Node σ) (p next : Nat) (context : UInt64) : Except Panic Message := do
  let prevTerm ← n.termAtMust (next - 1)
  if next < n.lastIndex + 1 then do
    let entry ← n.entryAt next
    pure { n.heartbeat p (next - 1) prevTerm context with entry, hasEntry := true }
  else pure (n.heartbeat p (next - 1) prevTerm context)

/-- `appendToContext`: the peer gets the entry at its next index, or the snapshot where that entry
is compacted. -/
def appendToContext (p : Nat) (context : UInt64) : NodeM σ Unit := do
  let n ← get
  if n.next p ≤ n.baseIndex then send (n.snapshotMessage p)
  else do
    modify fun n => if n.next p > n.lastIndex + 1 then n.setNext p (n.lastIndex + 1) else n
    let n ← get
    -- `if next == 0 { next = 1 }`
    let m ← n.appendMessage p (max (n.next p) 1) context
    send m

/-- `appendTo`: an append that confirms no read. -/
def appendTo (p : Nat) : NodeM σ Unit := appendToContext p 0

/-- `broadcastAppend`: every peer that votes gets an append. -/
def broadcastAppend : NodeM σ Unit := do
  let n ← get
  n.peers.forM fun p => do
    let n ← get
    let voter ← n.isVoter p
    if voter then appendTo p else pure ()

/-- The queue is handed over and emptied. -/
def drain : NodeM σ (List Message) := do
  let n ← get
  modify fun n => { n with outbound := [] }
  pure n.outbound

/-! ## Rules for calls of the store and for sending -/

section Rules

variable {W : Type} {S : W → W → Prop} {B : W → Node σ → Prop} {w : W} {n : Node σ}

omit [StableStore σ] in
/-- A call of the store that stops the node if it fails. -/
theorem callStoreOrFail_sim {x : EStateM StorageError σ Unit} {Q : Bool → W → Node σ → Prop}
    (hok : ∀ s, x n.store = .ok () s →
      ∃ w', Relation.ReflTransGen S w w' ∧ Q true w' { n with store := s })
    (herr : ∀ e s, x n.store = .error e s → Q false w ({ n with store := s }.fail (some e))) :
    Sim S B w (callStoreOrFail x) n Q := by
  unfold Sim callStoreOrFail callStore
  simp only [Bind.bind, EStateM.bind]
  cases hx : x n.store with
  | ok u s => exact hok s hx
  | error e s => exact ⟨w, .refl, herr e s hx⟩

omit [StableStore σ] in
/-- A message is sent, unless there are too many. -/
theorem send_rule {m : Message} {Q : Unit → W → Node σ → Prop} (hb : B w n)
    (hq : Q () w (n.enqueue m)) : Sim S B w (send m) n Q := by
  unfold send
  exact Sim.seq_get (Sim.ite (fun _ => Sim.fail hb) fun _ => Sim.update hq)

end Rules

end Promtact.Raft
