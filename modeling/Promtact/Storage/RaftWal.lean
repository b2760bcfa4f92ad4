import Mathlib.Algebra.Order.Ring.Nat
import Promtact.Raft.Types

/-!
# The Raft log on the WAL (`storage/raftwal`)

A store keeps the hard state and the log above its base in memory, and appends a record to the WAL
for everything that it accepts: a hard state, an entry, a compaction fence or a reset fence. Opening
the store replays the records. What a record is for is told by its index, three values of which are
reserved; the other fields are reused (a hard state keeps the vote in `Command` and the commit index
in `OldVoters`, a fence keeps its index in `Term` and its term in `Command`).

The device does not fail here: a record that was appended is durable.

`inRange` is not in the source. It remembers that no entry was appended at a reserved index; then
the replay gives the store back (`Exact`).
-/

namespace Promtact.Storage

open Raft

/-- `storage.Entry`, what a record of the WAL holds. -/
structure Record where
  index : Nat
  term : Nat
  command : Nat := 0
  kind : UInt8 := 0
  oldVoters : Nat := 0
  newVoters : Nat := 0
  operation : UInt8 := 0
  clientID : UInt64 := 0
  requestID : UInt64 := 0
  key : UInt64 := 0
  value : UInt64 := 0
  deriving DecidableEq, Repr

/-! ## Entries as records -/

/-- The byte an entry kind is written as. -/
def kindCode : EntryKind → UInt8
  | .normal => 0
  | .jointConfig => 1
  | .finalConfig => 2
  | .noop => 3
  | .other code _ => code

/-- The entry kind of a byte; the last branch is never taken. -/
def kindOfCode (code : UInt8) : EntryKind :=
  if code = 0 then .normal
  else if code = 1 then .jointConfig
  else if code = 2 then .finalConfig
  else if code = 3 then .noop
  else if h : 4 ≤ code then .other code h
  else .normal

/-- The byte an operation is written as. -/
def operationCode : CommandOp → UInt8
  | .legacy => 0
  | .put => 1
  | .delete => 2
  | .other code _ => code

/-- The operation of a byte; the last branch is never taken. -/
def operationOfCode (code : UInt8) : CommandOp :=
  if code = 0 then .legacy
  else if code = 1 then .put
  else if code = 2 then .delete
  else if h : 3 ≤ code then .other code h
  else .legacy

theorem kindOfCode_kindCode (kind : EntryKind) : kindOfCode (kindCode kind) = kind := by
  cases kind with
  | other code h =>
    have hne : ∀ c : UInt8, c < 4 → code ≠ c := by
      rintro c hc rfl
      exact absurd h (UInt8.not_le.mpr hc)
    show kindOfCode code = _
    rw [kindOfCode, if_neg (hne 0 (by decide)), if_neg (hne 1 (by decide)), if_neg (hne 2 (by decide)),
      if_neg (hne 3 (by decide)), dif_pos h]
  | _ => rfl

theorem operationOfCode_operationCode (operation : CommandOp) :
    operationOfCode (operationCode operation) = operation := by
  cases operation with
  | other code h =>
    have hne : ∀ c : UInt8, c < 3 → code ≠ c := by
      rintro c hc rfl
      exact absurd h (UInt8.not_le.mpr hc)
    show operationOfCode code = _
    rw [operationOfCode, if_neg (hne 0 (by decide)), if_neg (hne 1 (by decide)), if_neg (hne 2 (by decide)),
      dif_pos h]
  | _ => rfl

/-- The record of an entry. -/
def entryRecord (index : Nat) (e : Entry) : Record :=
  { index, term := e.term, command := e.command.toNat, kind := kindCode e.kind
    oldVoters := e.oldVoters.toNat, newVoters := e.newVoters.toNat
    operation := operationCode e.operation, clientID := e.clientID, requestID := e.requestID
    key := e.key, value := e.value }

/-- The entry a record holds. -/
def Record.entry (r : Record) : Entry :=
  { term := r.term, command := UInt64.ofNat r.command, kind := kindOfCode r.kind
    oldVoters := BitVec.ofNat 64 r.oldVoters, newVoters := BitVec.ofNat 64 r.newVoters
    operation := operationOfCode r.operation, clientID := r.clientID, requestID := r.requestID
    key := r.key, value := r.value }

@[simp] theorem entry_entryRecord (index : Nat) (e : Entry) : (entryRecord index e).entry = e := by
  simp [entryRecord, Record.entry, kindOfCode_kindCode, operationOfCode_operationCode]

namespace RaftWal

/-- The index that marks a hard state. -/
def hardStateIndex : Nat := 0

/-- `^uint64(0)`. -/
def compactIndex : Nat := 2 ^ 64 - 1

/-- The index that marks a reset of the log. -/
def resetIndex : Nat := 2 ^ 64 - 2

/-- What a replay builds: `data` includes the sentinel of the base. -/
structure State where
  hard : HardState := {}
  data : List Entry := [{}]
  base : Nat := 0
  deriving DecidableEq, Repr

/-- `Store`: the state, the records behind it, and whether every entry was below the marks. -/
structure Store extends State where
  log : List Record := []
  inRange : Bool := true
  deriving DecidableEq, Repr

namespace State

variable (s : State)

/-- The index of the last entry. -/
def lastIndex : Nat := s.base + s.data.length - 1

/-- The hard state goes back, or changes a vote of its term. -/
def regresses (h : HardState) : Bool :=
  decide (h.term < s.hard.term) || decide (h.commit < s.hard.commit) ||
    (h.term == s.hard.term && s.hard.votedFor != 0 && h.votedFor != s.hard.votedFor)

/-- `Term`: `none` for the source's `false`. -/
def term (index : Nat) : Option Nat :=
  if index < s.base ∨ s.lastIndex < index then none else (s.data[index - s.base]?).map (·.term)

/-- The entry at `index` and nothing after it. -/
def set (index : Nat) (entry : Entry) : State :=
  { s with data := s.data.take (index - s.base) ++ [entry] }

/-- The log from `index` on. -/
def dropTo (index : Nat) : State := { s with data := s.data.drop (index - s.base), base := index }

/-- The empty log above `index`. -/
def reset (index term : Nat) : State := { s with data := [{ term }], base := index }

/-- The body of the loop of `Open`. -/
def replayRecord (r : Record) : Except StorageError State :=
  if r.index = resetIndex then
    if r.term < s.base then .error ⟨"raftwal: reset index regression " ++ toString r.term⟩
    else .ok (s.reset r.term r.command)
  else if r.index = compactIndex then
    if r.term < s.base ∨ s.lastIndex < r.term then
      .error ⟨"raftwal: invalid compaction index " ++ toString r.term⟩
    else .ok (s.dropTo r.term)
  else if r.index = hardStateIndex then
    -- identifiers have 32 bits, so `uint32(e.Command)` is the vote that was written
    let h : HardState := { term := r.term, votedFor := r.command, commit := r.oldVoters }
    if s.regresses h then .error ⟨"raftwal: hard-state regression"⟩ else .ok { s with hard := h }
  else if r.index ≤ s.base then .ok s
  else if r.index - s.base > s.data.length then
    .error ⟨"raftwal: log index gap at " ++ toString r.index⟩
  else .ok (s.set r.index r.entry)

end State

/-- The state of a list of records, oldest first. -/
def replay (records : List Record) : Except StorageError State :=
  records.foldlM State.replayRecord {}

/-- `Open`, for the records that the WAL has. -/
def openLog (records : List Record) : Except StorageError Store := do
  let s ← replay records
  pure { s with log := records }

namespace Store

/-- `SaveHardState`: term and commit never go back, and a vote is never taken back. -/
def saveHardState (h : HardState) : EStateM StorageError Store Unit := fun s =>
  if s.regresses h then .error ⟨"raftwal: hard-state regression"⟩ s
  else .ok () { s with
    hard := h
    log := s.log ++ [{ index := hardStateIndex, term := h.term, command := h.votedFor
                       oldVoters := h.commit }] }

/-- `Append`: an entry at an index of the log replaces the rest. -/
def append (index : Nat) (entry : Entry) : EStateM StorageError Store Unit := fun s =>
  -- the sum wraps around when the log has an entry at the last index
  if index ≤ s.base ∨ (s.base + s.data.length) % 2 ^ 64 < index then
    .error ⟨"raftwal: invalid log index " ++ toString index⟩ s
  else .ok () { s with
    toState := s.set index entry
    log := s.log ++ [entryRecord index entry]
    inRange := s.inRange && decide (index < resetIndex) }

/-- `ResetBase`: the log becomes empty above a snapshot. -/
def resetBase (index term : Nat) : EStateM StorageError Store Unit := fun s =>
  if index < s.base then .error ⟨"raftwal: reset index regression " ++ toString index⟩ s
  else .ok () { s with
    toState := s.reset index term
    log := s.log ++ [{ index := resetIndex, term := index, command := term }] }

/-- `CompactLog`: the entries up to an index of the log go. -/
def compactLog (index : Nat) : EStateM StorageError Store Unit := fun s =>
  if index ≤ s.base ∨ s.lastIndex < index then
    .error ⟨"raftwal: invalid compaction index " ++ toString index⟩ s
  else .ok () { s with
    toState := s.dropTo index
    log := s.log ++ [{ index := compactIndex, term := index
                       command := ((s.data[index - s.base]?).map (·.term)).getD 0 }] }

/-! ## The replay is exact -/

/-- The records of the store give back what it has in memory. -/
def Exact (s : Store) : Prop := replay s.log = .ok s.toState

/-- A call wrote one record, which replays as the call. -/
def Logs (s : Store) (r : Record) (s' : Store) : Prop :=
  s'.log = s.log ++ [r] ∧ s.replayRecord r = .ok s'.toState

theorem replay_snoc {records : List Record} {r : Record} {st : State}
    (h : replay records = .ok st) : replay (records ++ [r]) = st.replayRecord r := by
  show (records ++ [r]).foldlM State.replayRecord {} = _
  rw [List.foldlM_append]
  show (replay records >>= fun s => [r].foldlM State.replayRecord s) = _
  rw [h]
  show (st.replayRecord r >>= pure) = _
  exact bind_pure _

variable {s s' : Store}

theorem Logs.exact {r : Record} (h : s.Logs r s') (hs : s.Exact) : s'.Exact := by
  rw [Exact, h.1, replay_snoc hs, h.2]

theorem saveHardState_logs {h : HardState} (hx : saveHardState h s = .ok () s') :
    s.Logs { index := hardStateIndex, term := h.term, command := h.votedFor
             oldVoters := h.commit } s' := by
  unfold saveHardState at hx
  split at hx
  · cases hx
  rename_i hreg
  cases hx
  refine ⟨rfl, ?_⟩
  rw [State.replayRecord]
  dsimp only
  rw [if_neg (show ¬ hardStateIndex = resetIndex by decide),
    if_neg (show ¬ hardStateIndex = compactIndex by decide), if_pos rfl, if_neg hreg]

theorem append_ok {index : Nat} {entry : Entry} (hx : append index entry s = .ok () s') :
    s.base < index ∧ index ≤ (s.base + s.data.length) % 2 ^ 64 ∧
      s'.log = s.log ++ [entryRecord index entry] ∧ s'.toState = s.set index entry := by
  unfold append at hx
  split at hx
  · cases hx
  cases hx
  exact ⟨by omega, by omega, rfl, rfl⟩

theorem append_logs {index : Nat} {entry : Entry} (hi : index < resetIndex)
    (hx : append index entry s = .ok () s') : s.Logs (entryRecord index entry) s' := by
  obtain ⟨hbase, hlast, hlog, hstate⟩ := append_ok hx
  have h1 : index ≠ resetIndex := by omega
  have h2 : index ≠ compactIndex := by unfold compactIndex; unfold resetIndex at hi; omega
  have h3 : index ≠ hardStateIndex := by unfold hardStateIndex; omega
  have hle : (s.base + s.data.length) % 2 ^ 64 ≤ s.base + s.data.length := Nat.mod_le _ _
  refine ⟨hlog, ?_⟩
  rw [hstate, State.replayRecord, entry_entryRecord]
  show (if index = resetIndex then _ else if index = compactIndex then _
    else if index = hardStateIndex then _ else if index ≤ s.base then _
    else if index - s.base > s.data.length then _ else _) = _
  rw [if_neg h1, if_neg h2, if_neg h3, if_neg (by omega), if_neg (by omega)]
  rfl

theorem resetBase_logs {index term : Nat} (hx : resetBase index term s = .ok () s') :
    s.Logs { index := resetIndex, term := index, command := term } s' := by
  unfold resetBase at hx
  split at hx
  · cases hx
  rename_i hrange
  cases hx
  refine ⟨rfl, ?_⟩
  rw [State.replayRecord]
  dsimp only
  rw [if_pos rfl, if_neg hrange]

/-- The replay of a compaction does not read the term that its record has. -/
theorem compactLog_logs {index : Nat} (hx : compactLog index s = .ok () s') :
    ∃ term, s'.log = s.log ++ [{ index := compactIndex, term := index, command := term }] ∧
      ∀ command, s.replayRecord { index := compactIndex, term := index, command } = .ok s'.toState := by
  unfold compactLog at hx
  split at hx
  · cases hx
  rename_i hrange
  cases hx
  refine ⟨_, rfl, fun command => ?_⟩
  rw [State.replayRecord]
  dsimp only
  rw [if_neg (show ¬ compactIndex = resetIndex by decide), if_pos rfl, if_neg (by omega)]

theorem compactLog_exact {index : Nat} (hs : s.Exact) (hx : compactLog index s = .ok () s') :
    s'.Exact := by
  obtain ⟨term, hlog, hreplay⟩ := compactLog_logs hx
  exact Logs.exact ⟨hlog, hreplay term⟩ hs

end Store

end RaftWal

end Promtact.Storage
