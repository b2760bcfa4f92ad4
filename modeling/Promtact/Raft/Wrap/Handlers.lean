import Promtact.Raft.Cluster
import Promtact.Raft.Wrap.Node

/-!
# The Raft node with 64-bit numbers (`raft/node.go`): what it does

The methods of `Promtact.Raft.Handlers` with the arithmetic of `uint64`. `run` is a call of a method
from outside.
-/

namespace Promtact.Raft.Wrap

open Refine

variable {σ : Type} [StableStore σ]

/-! ## Configurations -/

/-- The `switch` of `applyCommittedConfigurations`. -/
def applyConfiguration (entry : Entry) : NodeM σ Unit :=
  match entry.kind with
  | .jointConfig =>
    modify fun n => ensurePeers (entry.oldVoters ||| entry.newVoters)
      { n with votersOld := entry.oldVoters, votersNew := entry.newVoters }
  | .finalConfig => do
    modify fun n => { n with votersOld := entry.oldVoters, votersNew := 0 }
    let n ← get
    let voter ← isVoter n n.id
    if voter then pure ()
    else modify fun n => { n with state := .follower, leader := 0, readReady := false }
  | _ => pure ()

/-- The body of the loop of `applyCommittedConfigurations`. -/
def settleAt (index : Nat) : NodeM σ Unit := do
  let n ← get
  let entry ← entryAt n index
  applyConfiguration entry
  modify fun n => if index = n.pendingConfig then { n with pendingConfig := 0 } else n

/-- The first index that `applyCommittedConfigurations` looks at. -/
def firstSettled (n : Node σ) (first : Nat) : Nat :=
  if first ≤ n.baseIndex then wrap (n.baseIndex + 1) else first

/-- The configurations from `first` to `last` take effect. -/
def applyCommittedConfigurations (first last : Nat) : NodeM σ Unit := do
  let n ← get
  (indexes (firstSettled n first) last).forM settleAt

/-- The body of the loop of `rebuildPendingConfig`. -/
def noteAt (index : Nat) : NodeM σ Unit := do
  let n ← get
  let entry ← entryAt n index
  if entry.isConfig then
    modify fun n => ensurePeers (entry.oldVoters ||| entry.newVoters) { n with pendingConfig := index }
  else pure ()

/-- The configuration that is not committed yet is looked for again. -/
def rebuildPendingConfig : NodeM σ Unit := do
  modify fun n => { n with pendingConfig := 0 }
  let n ← get
  (indexes (firstPending n) (lastIndex n)).forM noteAt

/-! ## Leading -/

/-- A single voter commits what it appends. -/
def commitAlone : NodeM σ Bool := do
  let n ← get
  let previous := n.commit
  modify fun n => { n with commit := lastIndex n }
  let n ← get
  let persisted ← persistHardState (n.hardState n.commit)
  if persisted then do
    applyCommittedConfigurations (wrap (previous + 1)) n.commit
    pure true
  else do
    modify fun n => { n with commit := previous }
    pure false

/-- The end of `appendLocal`, when the store has the entry. -/
def extendLocal (entry : Entry) : NodeM σ Bool := do
  modify fun n => { n with log := n.log ++ [entry] }
  let n ← get
  let bit ← nodeBit n.id
  let alone ← quorumMask n bit
  if alone then commitAlone else pure true

/-- A leader appends an entry. `false` if the store failed. -/
def appendLocal (entry : Entry) : NodeM σ Bool := do
  let n ← get
  let stored ← callStoreOrFail (StableStore.append (wrap (lastIndex n + 1)) entry)
  if stored then extendLocal entry else pure false

/-- A candidate that has won. -/
def becomeLeader : NodeM σ Unit := do
  modify fun n => { n with state := .leader, leader := n.id, elapsed := 0 }
  let n ← get
  let appended ← appendLocal { term := n.term, kind := .noop }
  if appended then do
    let n ← get
    n.peers.forM fun p => modify fun m => (m.setNext p (wrap (lastIndex n + 1))).setMatch p 0
    broadcastAppend
  else pure ()

/-- The end of `Propose` and `ProposeRequest`. -/
def proposeEntry (entry : Entry) : NodeM σ Bool := do
  let appended ← appendLocal entry
  if appended then do
    broadcastAppend
    pure true
  else pure false

/-- `Propose`. -/
def propose (command : UInt64) : NodeM σ Bool := do
  let n ← get
  if n.state ≠ .leader ∨ n.faulted then pure false
  else proposeEntry { term := n.term, command }

/-- `ProposeRequest`. -/
def proposeRequest (operation : CommandOp) (clientID requestID key value : UInt64) :
    NodeM σ Bool := do
  let n ← get
  if n.state ≠ .leader ∨ n.faulted ∨ clientID = 0 ∨ requestID = 0 ∨
      (operation ≠ .put ∧ operation ≠ .delete) then pure false
  else proposeEntry { term := n.term, operation, clientID, requestID, key, value }

/-- The end of `ProposeJoint` and `ProposeFinal`. -/
def proposeConfig (entry : Entry) : NodeM σ Bool := do
  let appended ← appendLocal entry
  if appended then do
    modify fun n => { n with pendingConfig := lastIndex n }
    broadcastAppend
    pure true
  else pure false

/-- `ProposeJoint`. -/
def proposeJoint (newVoters : List Nat) : NodeM σ Bool := do
  let newMask ← voterMask newVoters
  let n ← get
  match newMask with
  | none => pure false
  | some newMask =>
    if n.state ≠ .leader ∨ n.faulted ∨ n.votersNew ≠ 0 ∨ n.pendingConfig ≠ 0 then pure false
    else do
      modify (ensurePeers newMask)
      proposeConfig { term := n.term, kind := .jointConfig
                      oldVoters := n.votersOld, newVoters := newMask }

/-- `ProposeFinal`. -/
def proposeFinal : NodeM σ Bool := do
  let n ← get
  if n.state ≠ .leader ∨ n.faulted ∨ n.votersNew = 0 ∨ n.pendingConfig ≠ 0 then pure false
  else proposeConfig { term := n.term, kind := .finalConfig, oldVoters := n.votersNew }

/-- `TransferLeadership`. -/
def transferLeadership (target : Nat) : NodeM σ Bool := do
  let n ← get
  if n.state ≠ .leader ∨ target = n.id then pure false
  else do
    let voter ← isVoter n target
    if voter then
      if n.matchIdx target < lastIndex n then do
        appendTo target
        pure false
      else do
        send { type := .timeoutNow, src := n.id, dst := target, term := n.term }
        pure true
    else pure false

/-! ## Elections -/

/-- The body of the loops of `startElection` and `startPreVote` over the peers. -/
def ask (type : MessageType) (term : Node σ → Nat) (p : Nat) : NodeM σ Unit := do
  let n ← get
  let lastTerm ← termAtMust n (lastIndex n)
  send { type, src := n.id, dst := p, term := term n, logIndex := lastIndex n, logTerm := lastTerm }

/-- The loop of `startElection` and `startPreVote` over the peers. -/
def request (type : MessageType) (term : Node σ → Nat) (peers : List Nat) : NodeM σ Unit :=
  peers.forM (ask type term)

/-- The node as a candidate of the term `nextTerm`. -/
def campaign (nextTerm : Nat) (bit : Mask) (n : Node σ) : Node σ :=
  { n with
    state := .candidate, term := nextTerm, votedFor := n.id, elapsed := 0
    voteMask := bit, preVoteMask := 0 }

/-- The node votes for itself and asks the others. -/
def startElection : NodeM σ Unit := do
  let n ← get
  let nextTerm := wrap (n.term + 1)
  let persisted ← persistHardState { term := nextTerm, votedFor := n.id, commit := n.commit }
  if persisted then do
    let bit ← nodeBit n.id
    modify (campaign nextTerm bit)
    let n ← get
    request .requestVote (·.term) n.peers
    let n ← get
    let won ← quorumMask n n.voteMask
    if won then becomeLeader else pure ()
  else pure ()

/-- The node asks whether it would win. -/
def startPreVote : NodeM σ Unit := do
  let n ← get
  let bit ← nodeBit n.id
  modify fun n => { n with
    elapsed := 0, preVoteTerm := wrap (n.term + 1), leader := 0, preVoteMask := bit }
  let n ← get
  request .preVote (·.preVoteTerm) n.peers
  let n ← get
  let won ← quorumMask n n.preVoteMask
  if won then startElection else pure ()

/-- `Tick`. -/
def tick : NodeM σ Unit := do
  let n ← get
  if n.faulted then pure ()
  else do
    modify fun n => { n with elapsed := wrap (n.elapsed + 1) }
    let n ← get
    if n.state = .leader then
      if n.elapsed ≥ 3 then do
        modify fun n => { n with elapsed := 0 }
        broadcastAppend
      else pure ()
    else if n.elapsed ≥ n.timeout then startPreVote
    else pure ()

/-- The log of the sender is at least as up to date as the node's. -/
def upToDate (n : Node σ) (m : Message) : Except Panic Bool := do
  let lastTerm ← termAtMust n (lastIndex n)
  pure (decide (m.logTerm > lastTerm) || (m.logTerm == lastTerm && decide (m.logIndex ≥ lastIndex n)))

/-- Another node asks whether it would win. -/
def onPreVote (m : Message) : NodeM σ Unit := do
  let n ← get
  let upToDate ← upToDate n m
  let leaderActive := n.leader != 0 && decide (n.elapsed < n.timeout)
  let voter ← isVoter n m.src
  let grant := voter && decide (m.term ≥ wrap (n.term + 1)) && upToDate && !leaderActive
  send { type := .preVoteResponse, src := n.id, dst := m.src, term := m.term, reject := !grant }

/-- The `case` of `Step` for a pre-vote response. -/
def onPreVoteResponse (m : Message) : NodeM σ Unit := do
  let n ← get
  if n.state = .leader then pure ()
  else do
    let voter ← isVoter n m.src
    if voter ∧ m.term = wrap (n.term + 1) ∧ m.term = n.preVoteTerm ∧ m.reject = false then do
      let bit ← nodeBit m.src
      modify fun n => { n with preVoteMask := n.preVoteMask ||| bit }
      let n ← get
      let won ← quorumMask n n.preVoteMask
      if won then startElection else pure ()
    else pure ()

/-- Another node asks for a vote. -/
def onVote (m : Message) : NodeM σ Unit := do
  let n ← get
  let upToDate ← upToDate n m
  let voter ← isVoter n m.src
  if voter ∧ m.term = n.term ∧ (n.votedFor = 0 ∨ n.votedFor = m.src) ∧ upToDate then do
    let persisted ← persistHardState { term := n.term, votedFor := m.src, commit := n.commit }
    if persisted then do
      modify fun n => { n with votedFor := m.src, elapsed := 0 }
      send (n.voteResponse m false)
    else pure ()
  else send (n.voteResponse m true)

/-- The `case` of `Step` for a vote. -/
def onVoteResponse (m : Message) : NodeM σ Unit := do
  let n ← get
  if n.state ≠ .candidate then pure ()
  else do
    let voter ← isVoter n m.src
    if voter ∧ m.term = n.term ∧ m.reject = false then do
      let bit ← nodeBit m.src
      modify fun n => { n with voteMask := n.voteMask ||| bit }
      let n ← get
      let won ← quorumMask n n.voteMask
      if won then becomeLeader else pure ()
    else pure ()

/-- The `case` of `Step` for a leader that hands over. -/
def onTimeoutNow (m : Message) : NodeM σ Unit := do
  let n ← get
  if n.state = .follower ∧ m.term = n.term ∧ m.src = n.leader then startElection else pure ()

/-! ## Replication -/

/-- A follower refuses an append. -/
def rejectsAppend (n : Node σ) (m : Message) : Bool :=
  decide (m.term < n.term) || termAt n m.logIndex != some m.logTerm ||
    (m.hasEntry && wrap (m.logIndex + 1) == wrap (lastIndex n + 1) && !n.validNewEntry m.entry)

/-- The index up to which a follower that accepted `m` agrees with the leader. -/
def matched (m : Message) : Nat := if m.hasEntry then wrap (m.logIndex + 1) else m.logIndex

/-- A retained entry of another term at `index` is cut off with everything after it. -/
def truncateConflict (index : Nat) (entry : Entry) : NodeM σ Unit := do
  let n ← get
  if (termAt n index).any (· != entry.term) then do
    modify fun n => { n with log := n.log.take (index - n.baseIndex) }
    rebuildPendingConfig
  else pure ()

/-- Stores an entry at the end of the log. `false` if the store failed. -/
def appendEntry (index : Nat) (entry : Entry) : NodeM σ Bool := do
  let stored ← callStoreOrFail (StableStore.append index entry)
  if stored then do
    modify fun n => { n with log := n.log ++ [entry] }
    modify fun n =>
      if entry.isConfig then
        ensurePeers (entry.oldVoters ||| entry.newVoters) { n with pendingConfig := index }
      else n
    pure true
  else pure false

/-- Stores the entry of `m`, if it has one, unless the log has it. -/
def storeEntry (m : Message) : NodeM σ Bool :=
  if m.hasEntry then do
    truncateConflict (wrap (m.logIndex + 1)) m.entry
    let n ← get
    if wrap (m.logIndex + 1) = wrap (lastIndex n + 1) then
      appendEntry (wrap (m.logIndex + 1)) m.entry
    else pure true
  else pure true

/-- The message moves the commit index of a follower. -/
def raisesCommit (m : Message) (n : Node σ) : Bool :=
  decide (m.commit > n.commit) &&
    (decide (m.logIndex > n.commit) || (m.hasEntry && decide (wrap (m.logIndex + 1) > n.commit)))

/-- Moves the commit index after the leader's. `false` if the store failed. -/
def followCommit (m : Message) : NodeM σ Bool := do
  let n ← get
  if raisesCommit m n then do
    let previous := n.commit
    let commit := min m.commit (matched m)
    let persisted ← persistHardState (n.hardState commit)
    if persisted then do
      modify fun n => { n with commit }
      applyCommittedConfigurations (wrap (previous + 1)) commit
      pure true
    else pure false
  else pure true

/-- The node follows the sender. -/
def follow (m : Message) (n : Node σ) : Node σ :=
  { n with state := .follower, leader := m.src, elapsed := 0 }

/-- The leader's entries. -/
def onAppend (m : Message) : NodeM σ Unit := do
  let n ← get
  if rejectsAppend n m then send (n.appendResponse m true (lastIndex n))
  else do
    modify (follow m)
    let stored ← storeEntry m
    if stored then do
      let followed ← followCommit m
      if followed then do
        let n ← get
        send (n.appendResponse m false (matched m))
      else pure ()
    else pure ()

/-- The message acknowledges the read that the leader waits for. -/
def confirmsRead (m : Message) (n : Node σ) : Bool :=
  n.state == .leader && m.term == n.term && !m.reject && m.context != 0 && m.context == n.readContext

/-- The acknowledgement of a read barrier. -/
def recordReadAck (m : Message) : NodeM σ Unit := do
  let n ← get
  if confirmsRead m n then do
    let voter ← isVoter n m.src
    if voter then do
      let bit ← nodeBit m.src
      modify fun n => { n with readAckMask := n.readAckMask ||| bit }
      let n ← get
      let ready ← quorumMask n n.readAckMask
      if ready then modify fun n => { n with readIndex := n.commit, readReady := true }
      else pure ()
    else pure ()
  else pure ()

/-- The loop of `onAppendResponse` over the indexes above the commit index, from the last one
down: the first entry of the current term that a quorum holds. -/
def commitTarget (n : Node σ) : Nat → Except Panic (Option Nat)
  | 0 => pure none
  | above + 1 => do
    let index := n.commit + (above + 1)
    let term ← termAtMust n index
    if term ≠ n.term then commitTarget n above
    else do
      let acked ← n.ackedMask index
      let ok ← canCommitIndex n index acked
      if ok then pure (some index) else commitTarget n above

/-- The commit index moves from `previous` to `index`, whose hard state is saved. -/
def settleCommit (previous index : Nat) : NodeM σ Unit := do
  modify fun n => { n with commit := index }
  applyCommittedConfigurations (wrap (previous + 1)) index

/-- The body of the loop at the index it commits. `false` if the store failed. -/
def commitIndex (index : Nat) : NodeM σ Bool := do
  let n ← get
  let persisted ← persistHardState (n.hardState index)
  if persisted then do
    settleCommit n.commit index
    let n ← get
    if n.state = .leader then do
      broadcastAppend
      pure true
    else pure true
  else pure false

/-- The loop of `onAppendResponse`. `false` if the store failed. -/
def advanceCommit : NodeM σ Bool := do
  let n ← get
  let target ← commitTarget n (lastIndex n - n.commit)
  match target with
  | some index => commitIndex index
  | none => pure true

/-- The acknowledged index of a peer is noted. -/
def acknowledge (m : Message) (n : Node σ) : Node σ :=
  (n.setMatch m.src m.matchIndex).setNext m.src (wrap (m.matchIndex + 1))

/-- The next index of a peer that has rejected an append. -/
def stepBack (m : Message) (n : Node σ) : Node σ :=
  if n.next m.src > 1 then n.setNext m.src (n.next m.src - 1) else n

/-- The answer to an append. -/
def onAppendResponse (m : Message) : NodeM σ Unit := do
  recordReadAck m
  let n ← get
  if n.state ≠ .leader ∨ m.term ≠ n.term ∨ m.matchIndex ≥ wrap (lastIndex n + 1) then pure ()
  else if m.reject then do
    modify (stepBack m)
    appendTo m.src
  else do
    modify (acknowledge m)
    let persisted ← advanceCommit
    let n ← get
    if persisted ∧ n.state = .leader ∧ n.next m.src < wrap (lastIndex n + 1) then appendTo m.src
    else pure ()

/-! ## Snapshots -/

/-- `Compact`. -/
def compact (index : Nat) (state : List UInt8) : NodeM σ Bool := do
  let n ← get
  if index ≤ n.baseIndex ∨ n.applied < index then pure false
  else match termAt n index with
    | none => pure false
    | some term => do
      let saved ← saveSnapshot (n.ownSnapshot index term state)
      if saved then do
        modify fun m => m.withSnapshot (n.ownSnapshot index term state)
          (m.log.drop (index - m.baseIndex))
        pure true
      else pure false

/-- The log above a snapshot: what was retained above the same entry, or nothing. -/
def logAbove (n : Node σ) (snapshot : Snapshot) : List Entry :=
  if termAt n snapshot.lastIndex = some snapshot.lastTerm then
    n.log.drop (snapshot.lastIndex - n.baseIndex)
  else [{ term := snapshot.lastTerm }]

/-- The node with a snapshot in place of the log below it. -/
def install (snapshot : Snapshot) (n : Node σ) : Node σ :=
  { n.withSnapshot snapshot (logAbove n snapshot) with
    votersOld := snapshot.oldVoters, votersNew := snapshot.newVoters
    commit := max n.commit snapshot.lastIndex
    applied := max n.applied snapshot.lastIndex }

/-- The leader's snapshot. -/
def onInstallSnapshot (m : Message) : NodeM σ Unit := do
  let n ← get
  if n.rejectsSnapshot m then send (n.snapshotResponse m true)
  else if m.snapshotIndex > n.baseIndex then do
    let saved ← saveSnapshot m.toSnapshot
    if saved then do
      modify (install m.toSnapshot)
      acceptSnapshot m
    else pure ()
  else acceptSnapshot m

/-- The progress of a peer that has a snapshot. -/
def acknowledgeSnapshot (m : Message) (n : Node σ) : Node σ :=
  if m.matchIndex > n.matchIdx m.src then acknowledge m n else n

/-- The answer to a snapshot. -/
def onInstallSnapshotResponse (m : Message) : NodeM σ Unit := do
  let n ← get
  if n.state ≠ .leader ∨ m.term ≠ n.term ∨ m.reject then pure ()
  else do
    let voter ← isVoter n m.src
    if voter then do
      modify (acknowledgeSnapshot m)
      let n ← get
      if n.next m.src ≤ lastIndex n then appendTo m.src else pure ()
    else pure ()

/-! ## Messages -/

/-- The `switch` of `Step`. -/
def handle (m : Message) : NodeM σ Unit :=
  match m.type with
  | .preVote => onPreVote m
  | .preVoteResponse => onPreVoteResponse m
  | .requestVote => onVote m
  | .requestVoteResponse => onVoteResponse m
  | .append => onAppend m
  | .appendResponse => onAppendResponse m
  | .installSnapshot => onInstallSnapshot m
  | .installSnapshotResponse => onInstallSnapshotResponse m
  | .timeoutNow => onTimeoutNow m
  | .other _ _ => pure ()

/-- The message is of a later term, which the node enters. -/
def newer (m : Message) (n : Node σ) : Bool := !m.type.isPreVote && decide (m.term > n.term)

/-- The node in the term of the message. -/
def enterTerm (m : Message) (n : Node σ) : Node σ :=
  { n with state := .follower, term := m.term, votedFor := 0, leader := 0, readReady := false }

/-- `Step`. -/
def step (m : Message) : NodeM σ Unit := do
  let n ← get
  if n.faulted then pure ()
  else if newer m n then do
    let persisted ← persistHardState { term := m.term, commit := n.commit }
    if persisted then do
      modify (enterTerm m)
      handle m
    else pure ()
  else handle m

/-! ## Reading and applying -/

/-- `StartReadIndex`. -/
def startReadIndex (context : UInt64) : NodeM σ Bool := do
  let n ← get
  if n.state ≠ .leader ∨ n.faulted ∨ context = 0 ∨ n.commit = 0 then pure false
  else do
    let term ← termAtMust n n.commit
    let bit ← nodeBit n.id
    let ready ← quorumMask n bit
    if term ≠ n.term ∧ ready = false then pure false
    else do
      modify fun n => { n with
        readContext := context, readAckMask := bit, readReady := ready
        readIndex := if ready then n.commit else n.readIndex }
      n.peers.forM fun p => appendToContext p context
      pure true

/-- `for n.Applied < n.Commit`, which passes `Commit - Applied` times. -/
def applyEntriesLoop : Nat → List Entry → NodeM σ (List Entry)
  | 0, dst => pure dst
  | rest + 1, dst => do
    modify fun n => { n with applied := n.applied + 1 }
    let n ← get
    let entry ← entryAt n n.applied
    applyEntriesLoop rest (if entry.kind = .normal then dst ++ [entry] else dst)

/-- `ApplyEntries`. -/
def applyEntries (dst : List Entry) : NodeM σ (List Entry) := do
  let n ← get
  applyEntriesLoop (n.commit - n.applied) dst

/-- A call of a method. -/
def run : Op → NodeM σ Unit
  | .tick => tick
  | .step m => step m
  | .propose command => do let _ ← propose command; pure ()
  | .proposeRequest operation clientID requestID key value => do
    let _ ← proposeRequest operation clientID requestID key value
    pure ()
  | .proposeJoint newVoters => do let _ ← proposeJoint newVoters; pure ()
  | .proposeFinal => do let _ ← proposeFinal; pure ()
  | .transferLeadership target => do let _ ← transferLeadership target; pure ()
  | .startReadIndex context => do let _ ← startReadIndex context; pure ()
  | .applyEntries => do let _ ← applyEntries []; pure ()
  | .compact index state => do let _ ← compact index state; pure ()

end Promtact.Raft.Wrap
