import Promtact.Raft.Store
import Promtact.Storage.RaftWal

/-!
# The store of a simulated node (`dst/raftcluster/store.go`, `sim/store.go`)

`stableStore` keeps the last snapshot in memory beside the log of `RaftWal`. It hands `CompactLog`
to the WAL as it is, where `raftstore` chooses between a compaction and a reset. So a snapshot that
does not continue the log is refused, or leaves entries in the WAL that do not belong to it.
-/

namespace Promtact.Dst

open Raft Storage

/-- `stableStore`: the WAL and the last snapshot. -/
structure StableStore where
  wal : RaftWal.Store := {}
  snapshot : Snapshot := {}
  deriving DecidableEq, Repr

namespace StableStore

/-- A call of the WAL. -/
def onWal (x : EStateM StorageError RaftWal.Store Unit) : EStateM StorageError StableStore Unit :=
  fun s =>
    match x s.wal with
    | .ok _ wal => .ok () { s with wal }
    | .error e wal => .error e { s with wal }

/-- `SaveHardState` of the WAL. -/
def saveHardState (h : HardState) : EStateM StorageError StableStore Unit :=
  onWal (RaftWal.Store.saveHardState h)

/-- `Append` of the WAL. -/
def append (index : Nat) (entry : Entry) : EStateM StorageError StableStore Unit :=
  onWal (RaftWal.Store.append index entry)

/-- The snapshot is kept in memory. -/
def saveSnapshot (snapshot : Snapshot) : EStateM StorageError StableStore Unit := fun s =>
  .ok () { s with snapshot }

/-- `CompactLog` of the WAL. -/
def compactLog (index : Nat) : EStateM StorageError StableStore Unit :=
  onWal (RaftWal.Store.compactLog index)

/-- The store on the WAL that a crash left. -/
def reboot (s : StableStore) : Except StorageError StableStore := do
  let wal ← RaftWal.openLog s.wal.log
  pure { s with wal }

/-- The snapshot does not belong to the WAL. `package` is the name of the Go package. -/
def mismatch (package : String) (s : StableStore) : StorageError :=
  ⟨package ++ ": snapshot/WAL base mismatch " ++ toString s.snapshot.lastIndex ++ " != " ++
    toString s.wal.base⟩

/-- What the node is recovered from. A snapshot is used if the WAL has a base. -/
def recovery (package : String) (s : StableStore) : Except StorageError Recovery :=
  if s.wal.base ≠ 0 then
    if s.snapshot.lastIndex ≠ s.wal.base then .error (s.mismatch package)
    else .ok { hard := s.wal.hard, snapshot := s.snapshot, suffix := s.wal.data.tail }
  else .ok { hard := s.wal.hard, suffix := s.wal.data.tail }

instance : DurableStore StableStore where
  saveHardState := saveHardState
  append := append
  isSnapshotStore := true
  saveSnapshot := saveSnapshot
  compactLog := compactLog
  reopen s := do
    let s ← s.reboot
    let d ← s.recovery "raftcluster"
    pure (s, d)

end StableStore

end Promtact.Dst
