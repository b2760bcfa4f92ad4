import Mathlib.Tactic.Common

/-!
# The data of a Raft node (`raft/types.go`, `raft/persist.go`)

Terms, log indexes and node identifiers are natural numbers. Voter sets are 64-bit masks, and
what a client puts in a command (`Command`, `ClientID`, `RequestID`, `Key`, `Value`, a read
context) are 64-bit words. The one-byte enumerations keep the bytes that have no name.

A call of the Go code that panics is an error of `Panic`. The store is behind an interface: its
methods are the class `StableStore`, and they may fail.
-/

namespace Promtact.Raft

/-- A set of voters: bit `id - 1` stands for node `id`. -/
abbrev Mask := BitVec 64

/-- The role of a node. -/
inductive State where
  | follower
  | candidate
  | leader
  deriving DecidableEq, Repr

/-- What an entry is for. A code without a name is kept as it was read. -/
inductive EntryKind where
  | normal
  | jointConfig
  | finalConfig
  | noop
  | other (code : UInt8) (unnamed : 4 ≤ code)
  deriving DecidableEq, Repr

/-- What a command does to the state machine. A code without a name is kept as it was read. -/
inductive CommandOp where
  | legacy
  | put
  | delete
  | other (code : UInt8) (unnamed : 3 ≤ code)
  deriving DecidableEq, Repr

/-- `Entry`: a slot of the log. -/
structure Entry where
  term : Nat := 0
  command : UInt64 := 0
  kind : EntryKind := .normal
  oldVoters : Mask := 0
  newVoters : Mask := 0
  operation : CommandOp := .legacy
  clientID : UInt64 := 0
  requestID : UInt64 := 0
  key : UInt64 := 0
  value : UInt64 := 0
  deriving DecidableEq, Repr

/-- The types of message the nodes exchange. -/
inductive MessageType where
  | preVote
  | preVoteResponse
  | requestVote
  | requestVoteResponse
  | append
  | appendResponse
  | timeoutNow
  | installSnapshot
  | installSnapshotResponse
  | other (code : UInt8) (unnamed : 9 ≤ code)
  deriving DecidableEq, Repr

/-- The byte of a message type. -/
def typeCode : MessageType → UInt8
  | .preVote => 0
  | .preVoteResponse => 1
  | .requestVote => 2
  | .requestVoteResponse => 3
  | .append => 4
  | .appendResponse => 5
  | .timeoutNow => 6
  | .installSnapshot => 7
  | .installSnapshotResponse => 8
  | .other code _ => code

/-- A message. `src` and `dst` are the source's `From` and `To`, `matchIndex` is its `Match`. -/
structure Message where
  type : MessageType
  src : Nat
  dst : Nat
  term : Nat := 0
  logIndex : Nat := 0
  logTerm : Nat := 0
  entry : Entry := {}
  hasEntry : Bool := false
  commit : Nat := 0
  reject : Bool := false
  matchIndex : Nat := 0
  context : UInt64 := 0
  snapshotIndex : Nat := 0
  snapshotTerm : Nat := 0
  snapshot : List UInt8 := []
  snapshotOld : Mask := 0
  snapshotNew : Mask := 0
  deriving DecidableEq, Repr

/-- `HardState`: what a node saves before it answers. -/
structure HardState where
  term : Nat := 0
  votedFor : Nat := 0
  commit : Nat := 0
  deriving DecidableEq, Repr

/-- `Snapshot`: the state up to an index, with the voters there. -/
structure Snapshot where
  lastIndex : Nat := 0
  lastTerm : Nat := 0
  state : List UInt8 := []
  oldVoters : Mask := 0
  newVoters : Mask := 0
  deriving DecidableEq, Repr

/-- The panics of the package. -/
inductive Panic where
  | nodeID
  | duplicateID
  | logIndex
  | outbound
  deriving DecidableEq, Repr

/-- The text of the panic. -/
def Panic.message : Panic → String
  | .nodeID => "raft: node IDs must be in 1..64"
  | .duplicateID => "raft: duplicate node ID"
  | .logIndex => "raft: log index out of range"
  | .outbound => "raft outbound capacity exceeded"

/-- A Go `error` of the storage packages. -/
structure StorageError where
  message : String
  deriving DecidableEq, Repr

/-- `ErrStorage`: the error a node stops with when it has no other. -/
def errStorage : StorageError := ⟨"raft: stable storage failure"⟩

/-- `StableStore` and `SnapshotStore`. A method returns an error or not; either way the store may
have changed. `isSnapshotStore` is the outcome of the type assertion `n.store.(SnapshotStore)`. -/
class StableStore (σ : Type) where
  saveHardState : HardState → EStateM StorageError σ Unit
  append : Nat → Entry → EStateM StorageError σ Unit
  isSnapshotStore : Bool
  saveSnapshot : Snapshot → EStateM StorageError σ Unit
  compactLog : Nat → EStateM StorageError σ Unit

/-- What opening a store after a crash gives back (`raftstore.Recovery`). -/
structure Recovery where
  hard : HardState := {}
  snapshot : Snapshot := {}
  suffix : List Entry := []
  deriving DecidableEq, Repr

end Promtact.Raft
