import Promtact.Raft.Node

/-!
# The Raft node (`raft/node.go`): what it does

The public methods are `tick`, `step`, the proposals (`propose`, `proposeRequest`, `proposeJoint`,
`proposeFinal`), `transferLeadership`, `startReadIndex`, `readIndex`, `compact`, `applyEntries` and
`drain`. A `return` in the middle of a Go method is a branch that ends; where it leaves a loop or a
nested block, the block is a function that returns whether to go on.
-/

namespace Promtact.Raft

open Refine

variable {σ : Type} [StableStore σ]

/-! ## Configurations -/

/-- The `switch` of `applyCommittedConfigurations`. -/
def applyConfiguration (entry : Entry) : NodeM σ Unit :=
  match entry.kind with
  | .jointConfig =>
    modify fun n => { n with votersOld := entry.oldVoters, votersNew := entry.newVoters }.ensurePeers
      (entry.oldVoters ||| entry.newVoters)
  | .finalConfig => do
    modify fun n => { n with votersOld := entry.oldVoters, votersNew := 0 }
    let n ← get
    let voter ← n.isVoter n.id
    if voter then pure ()
    else modify fun n => { n with state := .follower, leader := 0, readReady := false }
  | _ => pure ()

/-- `applyCommittedConfigurations`: the configurations in a range of the log take effect, and the
pending one is cleared when the range reaches it. -/
def applyCommittedConfigurations (first last : Nat) : NodeM σ Unit := do
  let n ← get
  forUpTo (if first ≤ n.baseIndex then n.baseIndex + 1 else first) last fun index => do
    let n ← get
    let entry ← n.entryAt index
    applyConfiguration entry
    modify fun n => if index = n.pendingConfig then { n with pendingConfig := 0 } else n

/-- `rebuildPendingConfig`: the last configuration above the commit index is pending. -/
def rebuildPendingConfig : NodeM σ Unit := do
  modify fun n => { n with pendingConfig := 0 }
  let n ← get
  forUpTo (max (n.commit + 1) (n.baseIndex + 1)) n.lastIndex fun index => do
    let n ← get
    let entry ← n.entryAt index
    if entry.isConfig then
      modify fun n => { n with pendingConfig := index }.ensurePeers
        (entry.oldVoters ||| entry.newVoters)
    else pure ()

/-! ## Leading -/

/-- The hard state of the node with another commit index. -/
def Node.hardState (n : Node σ) (commit : Nat) : HardState :=
  { term := n.term, votedFor := n.votedFor, commit }

/-- A single voter commits what it appends. -/
def commitAlone : NodeM σ Bool := do
  let n ← get
  let previous := n.commit
  modify fun n => { n with commit := n.lastIndex }
  let n ← get
  let persisted ← persistHardState (n.hardState n.commit)
  if persisted then do
    applyCommittedConfigurations (previous + 1) n.commit
    pure true
  else do
    modify fun n => { n with commit := previous }
    pure false

/-- `appendLocal`: the leader stores an entry; alone, it commits it too. -/
def appendLocal (entry : Entry) : NodeM σ Bool := do
  let n ← get
  let stored ← callStoreOrFail (StableStore.append (n.lastIndex + 1) entry)
  if stored then do
    modify fun n => { n with log := n.log ++ [entry] }
    let n ← get
    let bit ← nodeBit n.id
    let alone ← n.quorumMask bit
    if alone then commitAlone else pure true
  else pure false

/-- `becomeLeader`: a new leader appends an empty entry of its term and resets its peers. -/
def becomeLeader : NodeM σ Unit := do
  modify fun n => { n with state := .leader, leader := n.id, elapsed := 0 }
  let n ← get
  let appended ← appendLocal { term := n.term, kind := .noop }
  if appended then do
    let n ← get
    n.peers.forM fun p => modify fun m => (m.setNext p (n.lastIndex + 1)).setMatch p 0
    broadcastAppend
  else pure ()

/-- An entry is appended and sent to the peers. -/
def proposeEntry (entry : Entry) : NodeM σ Bool := do
  let appended ← appendLocal entry
  if appended then do
    broadcastAppend
    pure true
  else pure false

/-- `Propose`: a command without a client. -/
def propose (command : UInt64) : NodeM σ Bool := do
  let n ← get
  if n.state ≠ .leader ∨ n.faulted then pure false
  else proposeEntry { term := n.term, command }

/-- `ProposeRequest`: a write of a client, which must name itself and its request. -/
def proposeRequest (operation : CommandOp) (clientID requestID key value : UInt64) :
    NodeM σ Bool := do
  let n ← get
  if n.state ≠ .leader ∨ n.faulted ∨ clientID = 0 ∨ requestID = 0 ∨
      (operation ≠ .put ∧ operation ≠ .delete) then pure false
  else proposeEntry { term := n.term, operation, clientID, requestID, key, value }

/-- The body of the loop of `voterMask`. After a duplicate it has returned. -/
def addVoter : Option Mask → Nat → Except Panic (Option Mask)
  | none, _ => pure none
  | some mask, id => do
    let bit ← nodeBit id
    pure (if mask &&& bit ≠ 0 then none else some (mask ||| bit))

/-- `voterMask`: `none` for the source's `false`. -/
def voterMask (ids : List Nat) : Except Panic (Option Mask) :=
  if ids = [] then pure none else ids.foldlM addVoter (some 0)

/-- The end of `ProposeJoint` and `ProposeFinal`. -/
def proposeConfig (entry : Entry) : NodeM σ Bool := do
  let appended ← appendLocal entry
  if appended then do
    modify fun n => { n with pendingConfig := n.lastIndex }
    broadcastAppend
    pure true
  else pure false

/-- `ProposeJoint`: one change at a time. -/
def proposeJoint (newVoters : List Nat) : NodeM σ Bool := do
  let newMask ← voterMask newVoters
  let n ← get
  match newMask with
  | none => pure false
  | some newMask =>
    if n.state ≠ .leader ∨ n.faulted ∨ n.votersNew ≠ 0 ∨ n.pendingConfig ≠ 0 then pure false
    else do
      modify fun n => n.ensurePeers newMask
      proposeConfig { term := n.term, kind := .jointConfig
                      oldVoters := n.votersOld, newVoters := newMask }

/-- `ProposeFinal`: the new voters of a joint configuration that is in effect remain. -/
def proposeFinal : NodeM σ Bool := do
  let n ← get
  if n.state ≠ .leader ∨ n.faulted ∨ n.votersNew = 0 ∨ n.pendingConfig ≠ 0 then pure false
  else proposeConfig { term := n.term, kind := .finalConfig, oldVoters := n.votersNew }

/-- `TransferLeadership`: a voter that has the whole log is told to campaign; another gets an
append. -/
def transferLeadership (target : Nat) : NodeM σ Bool := do
  let n ← get
  if n.state ≠ .leader ∨ target = n.id then pure false
  else do
    let voter ← n.isVoter target
    if voter then
      if n.matchIdx target < n.lastIndex then do
        appendTo target
        pure false
      else do
        send { type := .timeoutNow, src := n.id, dst := target, term := n.term }
        pure true
    else pure false

/-! ## Elections -/

/-- `startElection`: term and vote are saved before any request is sent. -/
def startElection : NodeM σ Unit := do
  let n ← get
  let nextTerm := n.term + 1
  let persisted ← persistHardState { term := nextTerm, votedFor := n.id, commit := n.commit }
  if persisted then do
    let bit ← nodeBit n.id
    modify fun n => { n with
      state := .candidate, term := nextTerm, votedFor := n.id, elapsed := 0
      voteMask := bit, preVoteMask := 0 }
    let n ← get
    n.peers.forM fun p => do
      let n ← get
      let lastTerm ← n.termAtMust n.lastIndex
      send { type := .requestVote, src := n.id, dst := p, term := n.term
             logIndex := n.lastIndex, logTerm := lastTerm }
    let n ← get
    let won ← n.quorumMask n.voteMask
    if won then becomeLeader else pure ()
  else pure ()

/-- `startPreVote`: the peers are asked about the next term, and nothing is saved. -/
def startPreVote : NodeM σ Unit := do
  let n ← get
  let bit ← nodeBit n.id
  modify fun n => { n with
    elapsed := 0, preVoteTerm := n.term + 1, leader := 0, preVoteMask := bit }
  let n ← get
  n.peers.forM fun p => do
    let n ← get
    let lastTerm ← n.termAtMust n.lastIndex
    send { type := .preVote, src := n.id, dst := p, term := n.preVoteTerm
           logIndex := n.lastIndex, logTerm := lastTerm }
  let n ← get
  let won ← n.quorumMask n.preVoteMask
  if won then startElection else pure ()

/-- `Tick`: a leader sends appends every third tick, the others count to their timeout. -/
def tick : NodeM σ Unit := do
  let n ← get
  if n.faulted then pure ()
  else do
    modify fun n => { n with elapsed := n.elapsed + 1 }
    let n ← get
    if n.state = .leader then
      if n.elapsed ≥ 3 then do
        modify fun n => { n with elapsed := 0 }
        broadcastAppend
      else pure ()
    else if n.elapsed ≥ n.timeout then startPreVote
    else pure ()

/-- The log of the sender is at least as up to date as the node's. -/
def Node.upToDate (n : Node σ) (m : Message) : Except Panic Bool := do
  let lastTerm ← n.termAtMust n.lastIndex
  pure (decide (m.logTerm > lastTerm) || (m.logTerm == lastTerm && decide (m.logIndex ≥ n.lastIndex)))

/-- `onPreVote`: the answer commits the node to nothing. -/
def onPreVote (m : Message) : NodeM σ Unit := do
  let n ← get
  let upToDate ← n.upToDate m
  let leaderActive := n.leader != 0 && decide (n.elapsed < n.timeout)
  let voter ← n.isVoter m.src
  let grant := voter && decide (m.term ≥ n.term + 1) && upToDate && !leaderActive
  send { type := .preVoteResponse, src := n.id, dst := m.src, term := m.term, reject := !grant }

/-- `Step` for the answer to a pre-vote: a quorum of promises starts the election. -/
def onPreVoteResponse (m : Message) : NodeM σ Unit := do
  let n ← get
  if n.state = .leader then pure ()
  else do
    let voter ← n.isVoter m.src
    if voter ∧ m.term = n.term + 1 ∧ m.term = n.preVoteTerm ∧ m.reject = false then do
      let bit ← nodeBit m.src
      modify fun n => { n with preVoteMask := n.preVoteMask ||| bit }
      let n ← get
      let won ← n.quorumMask n.preVoteMask
      if won then startElection else pure ()
    else pure ()

/-- The answer to a vote request. -/
def Node.voteResponse (n : Node σ) (m : Message) (reject : Bool) : Message :=
  { type := .requestVoteResponse, src := n.id, dst := m.src, term := n.term, reject }

/-- `onVote`: the vote is saved before it is granted. -/
def onVote (m : Message) : NodeM σ Unit := do
  let n ← get
  let upToDate ← n.upToDate m
  let voter ← n.isVoter m.src
  if voter ∧ m.term = n.term ∧ (n.votedFor = 0 ∨ n.votedFor = m.src) ∧ upToDate then do
    let persisted ← persistHardState { term := n.term, votedFor := m.src, commit := n.commit }
    if persisted then do
      modify fun n => { n with votedFor := m.src, elapsed := 0 }
      send (n.voteResponse m false)
    else pure ()
  else send (n.voteResponse m true)

/-- `Step` for the answer to a vote: a quorum of votes makes a leader. -/
def onVoteResponse (m : Message) : NodeM σ Unit := do
  let n ← get
  if n.state ≠ .candidate then pure ()
  else do
    let voter ← n.isVoter m.src
    if voter ∧ m.term = n.term ∧ m.reject = false then do
      let bit ← nodeBit m.src
      modify fun n => { n with voteMask := n.voteMask ||| bit }
      let n ← get
      let won ← n.quorumMask n.voteMask
      if won then becomeLeader else pure ()
    else pure ()

/-- `Step` for a transfer: only the leader the follower knows can make it campaign. -/
def onTimeoutNow (m : Message) : NodeM σ Unit := do
  let n ← get
  if n.state = .follower ∧ m.term = n.term ∧ m.src = n.leader then startElection else pure ()

/-! ## Replication -/

/-- The appends a follower rejects: of an old term, not following its log, or with an entry it would
not append. -/
def Node.rejectsAppend (n : Node σ) (m : Message) : Bool :=
  decide (m.term < n.term) || n.termAt m.logIndex != some m.logTerm ||
    (m.hasEntry && m.logIndex + 1 == n.lastIndex + 1 && !n.validNewEntry m.entry)

/-- The index up to which a follower that accepted `m` agrees with the leader. -/
def Message.matched (m : Message) : Nat := if m.hasEntry then m.logIndex + 1 else m.logIndex

/-- The answer to an append, with the context of the read it confirms. -/
def Node.appendResponse (n : Node σ) (m : Message) (reject : Bool) (matchIndex : Nat) : Message :=
  { type := .appendResponse, src := n.id, dst := m.src, term := n.term, reject, matchIndex
    context := m.context }

/-- A retained entry of another term at `index` is cut off with everything after it. -/
def truncateConflict (index : Nat) (entry : Entry) : NodeM σ Unit := do
  let n ← get
  if (n.termAt index).any (· != entry.term) then do
    modify fun n => { n with log := n.log.take (index - n.baseIndex) }
    rebuildPendingConfig
  else pure ()

/-- Stores an entry at the end of the log. `false` if the store failed. -/
def appendEntry (index : Nat) (entry : Entry) : NodeM σ Bool := do
  let stored ← callStoreOrFail (StableStore.append index entry)
  if stored then do
    modify fun n => { n with log := n.log ++ [entry] }
    modify fun n =>
      if entry.isConfig then
        { n with pendingConfig := index }.ensurePeers (entry.oldVoters ||| entry.newVoters)
      else n
    pure true
  else pure false

/-- Stores the entry of `m`, if it has one, unless the log has it. -/
def storeEntry (m : Message) : NodeM σ Bool :=
  if m.hasEntry then do
    truncateConflict (m.logIndex + 1) m.entry
    let n ← get
    if m.logIndex + 1 = n.lastIndex + 1 then appendEntry (m.logIndex + 1) m.entry else pure true
  else pure true

/-- Moves the commit index after the leader's. `false` if the store failed. -/
def followCommit (m : Message) : NodeM σ Bool := do
  let n ← get
  if m.commit > n.commit ∧
      (m.logIndex > n.commit ∨ (m.hasEntry = true ∧ m.logIndex + 1 > n.commit)) then do
    let previous := n.commit
    let commit := min m.commit m.matched
    let persisted ← persistHardState (n.hardState commit)
    if persisted then do
      modify fun n => { n with commit }
      applyCommittedConfigurations (previous + 1) commit
      pure true
    else pure false
  else pure true

/-- `onAppend`: the entry is stored before the commit index follows and the answer is sent. -/
def onAppend (m : Message) : NodeM σ Unit := do
  let n ← get
  if n.rejectsAppend m then send (n.appendResponse m true n.lastIndex)
  else do
    modify fun n => { n with state := .follower, leader := m.src, elapsed := 0 }
    let stored ← storeEntry m
    if stored then do
      let followed ← followCommit m
      if followed then do
        let n ← get
        send (n.appendResponse m false m.matched)
      else pure ()
    else pure ()

/-- The acknowledgement of a read barrier. -/
def recordReadAck (m : Message) : NodeM σ Unit := do
  let n ← get
  if n.state = .leader ∧ m.term = n.term ∧ m.reject = false ∧ m.context ≠ 0 ∧
      m.context = n.readContext then do
    let voter ← n.isVoter m.src
    if voter then do
      let bit ← nodeBit m.src
      modify fun n => { n with readAckMask := n.readAckMask ||| bit }
      let n ← get
      let ready ← n.quorumMask n.readAckMask
      if ready then modify fun n => { n with readIndex := n.commit, readReady := true }
      else pure ()
    else pure ()
  else pure ()

/-- Adds a peer that holds `index`. -/
def Node.addAck (n : Node σ) (index : Nat) (acked : Mask) (p : Nat) : Except Panic Mask :=
  if n.matchIdx p ≥ index then do
    let bit ← nodeBit p
    pure (acked ||| bit)
  else pure acked

/-- The peers that hold `index`, and the node itself. -/
def Node.ackedMask (n : Node σ) (index : Nat) : Except Panic Mask := do
  let own ← nodeBit n.id
  n.peers.foldlM (n.addAck index) own

/-- The loop of `onAppendResponse` over the indexes above the commit index, from the last one
down: the first entry of the current term that a quorum holds. -/
def Node.commitTarget (n : Node σ) : Nat → Except Panic (Option Nat)
  | 0 => pure none
  | above + 1 => do
    let index := n.commit + (above + 1)
    let term ← n.termAtMust index
    if term ≠ n.term then n.commitTarget above
    else do
      let acked ← n.ackedMask index
      let ok ← n.canCommitIndex index acked
      if ok then pure (some index) else n.commitTarget above

omit [StableStore σ] in
/-- The index that the loop finds: an entry of the current term that a quorum holds. -/
theorem Node.commitTarget_some {n : Node σ} {above index : Nat}
    (h : n.commitTarget above = .ok (some index)) :
    n.commit < index ∧ n.termAtMust index = .ok n.term ∧
      ∃ acked, n.ackedMask index = .ok acked ∧ n.canCommitIndex index acked = .ok true := by
  induction above with
  | zero => cases h
  | succ above ih =>
    obtain ⟨t, ht, h⟩ := check_ok h
    split at h
    · exact ih h
    · rename_i hterm
      rw [not_not] at hterm
      obtain ⟨acked, hacked, h⟩ := check_ok h
      obtain ⟨ok, hok, h⟩ := check_ok h
      split at h
      · rename_i hokt
        cases h
        exact ⟨by omega, hterm ▸ ht, acked, hacked, hokt ▸ hok⟩
      · exact ih h

/-- The body of the loop at the index it commits. `false` if the store failed. -/
def commitIndex (index : Nat) : NodeM σ Bool := do
  let n ← get
  let persisted ← persistHardState (n.hardState index)
  if persisted then do
    modify fun n => { n with commit := index }
    applyCommittedConfigurations (n.commit + 1) index
    let n ← get
    if n.state = .leader then do
      broadcastAppend
      pure true
    else pure true
  else pure false

/-- The commit index moves to the entry that the loop finds. -/
def advanceCommit : NodeM σ Bool := do
  let n ← get
  let target ← n.commitTarget (n.lastIndex - n.commit)
  match target with
  | some index => commitIndex index
  | none => pure true

/-- `onAppendResponse`: the acknowledgement of a read, then the match index and the commit. -/
def onAppendResponse (m : Message) : NodeM σ Unit := do
  recordReadAck m
  let n ← get
  if n.state ≠ .leader ∨ m.term ≠ n.term ∨ m.matchIndex ≥ n.lastIndex + 1 then pure ()
  else if m.reject then do
    modify fun n => if n.next m.src > 1 then n.setNext m.src (n.next m.src - 1) else n
    appendTo m.src
  else do
    modify fun n => (n.setMatch m.src m.matchIndex).setNext m.src (m.matchIndex + 1)
    let persisted ← advanceCommit
    let n ← get
    if persisted ∧ n.state = .leader ∧ n.next m.src < n.lastIndex + 1 then appendTo m.src
    else pure ()

/-! ## Snapshots -/

/-- Publishes the snapshot before the log it covers is released. `false` if the store failed. -/
def saveSnapshot (snapshot : Snapshot) : NodeM σ Bool := do
  if StableStore.isSnapshotStore σ then do
    let saved ← callStoreOrFail (StableStore.saveSnapshot snapshot)
    if saved then callStoreOrFail (StableStore.compactLog snapshot.lastIndex) else pure false
  else do
    failStorage
    pure false

/-- The node with a snapshot as the start of its log. -/
def Node.withSnapshot (n : Node σ) (snapshot : Snapshot) (log : List Entry) : Node σ :=
  { n with log, baseIndex := snapshot.lastIndex, baseTerm := snapshot.lastTerm, snapshot }

/-- The snapshot that `Compact` makes. It records the current voters. -/
def Node.ownSnapshot (n : Node σ) (index term : Nat) (state : List UInt8) : Snapshot :=
  { lastIndex := index, lastTerm := term, state, oldVoters := n.votersOld, newVoters := n.votersNew }

/-- `Compact`: an applied prefix is replaced by a snapshot of its state. -/
def compact (index : Nat) (state : List UInt8) : NodeM σ Bool := do
  let n ← get
  if index ≤ n.baseIndex ∨ n.applied < index then pure false
  else match n.termAt index with
    | none => pure false
    | some term => do
      let saved ← saveSnapshot (n.ownSnapshot index term state)
      if saved then do
        modify fun m => m.withSnapshot (n.ownSnapshot index term state)
          (m.log.drop (index - m.baseIndex))
        pure true
      else pure false

/-- The snapshots a follower rejects. -/
def Node.rejectsSnapshot (n : Node σ) (m : Message) : Bool :=
  decide (m.term < n.term) || decide (m.snapshotIndex < n.baseIndex) || m.snapshotOld == 0 ||
    (m.snapshotIndex == n.baseIndex && m.snapshotTerm != n.baseTerm)

/-- The snapshot a message carries. -/
def Message.toSnapshot (m : Message) : Snapshot :=
  { lastIndex := m.snapshotIndex, lastTerm := m.snapshotTerm, state := m.snapshot
    oldVoters := m.snapshotOld, newVoters := m.snapshotNew }

/-- The log above a snapshot: what was retained above the same entry, or nothing. -/
def Node.logAbove (n : Node σ) (snapshot : Snapshot) : List Entry :=
  if n.termAt snapshot.lastIndex = some snapshot.lastTerm then
    n.log.drop (snapshot.lastIndex - n.baseIndex)
  else [{ term := snapshot.lastTerm }]

/-- The node after it installs a snapshot: the log above it is kept where it agrees. -/
def Node.install (n : Node σ) (snapshot : Snapshot) : Node σ :=
  { n.withSnapshot snapshot (n.logAbove snapshot) with
    votersOld := snapshot.oldVoters, votersNew := snapshot.newVoters
    commit := max n.commit snapshot.lastIndex
    applied := max n.applied snapshot.lastIndex }

/-- The answer to a snapshot. -/
def Node.snapshotResponse (n : Node σ) (m : Message) (reject : Bool) : Message :=
  { type := .installSnapshotResponse, src := n.id, dst := m.src, term := n.term, reject
    matchIndex := n.baseIndex }

/-- The end of `onInstallSnapshot` for a snapshot that was not rejected. -/
def acceptSnapshot (m : Message) : NodeM σ Unit := do
  modify fun n => { n with state := .follower, leader := m.src, elapsed := 0 }
  let n ← get
  send (n.snapshotResponse m false)

/-- `onInstallSnapshot`: a new snapshot is saved and installed before it is acknowledged. -/
def onInstallSnapshot (m : Message) : NodeM σ Unit := do
  let n ← get
  if n.rejectsSnapshot m then send (n.snapshotResponse m true)
  else if m.snapshotIndex > n.baseIndex then do
    let saved ← saveSnapshot m.toSnapshot
    if saved then do
      modify fun n => n.install m.toSnapshot
      acceptSnapshot m
    else pure ()
  else acceptSnapshot m

/-- `onInstallSnapshotResponse`: replication goes on above the snapshot. -/
def onInstallSnapshotResponse (m : Message) : NodeM σ Unit := do
  let n ← get
  if n.state ≠ .leader ∨ m.term ≠ n.term ∨ m.reject then pure ()
  else do
    let voter ← n.isVoter m.src
    if voter then do
      modify fun n =>
        if m.matchIndex > n.matchIdx m.src then
          (n.setMatch m.src m.matchIndex).setNext m.src (m.matchIndex + 1)
        else n
      let n ← get
      if n.next m.src ≤ n.lastIndex then appendTo m.src else pure ()
    else pure ()

/-! ## Messages -/

/-- The `switch` of `Step`. -/
def handle (m : Message) : NodeM σ Unit :=
  match m.type with
  | .preVote => onPreVote m
  | .preVoteResponse => onPreVoteResponse m
  | .requestVote => onVote m
  | .requestVoteResponse => onVoteResponse m
  | .append => onAppend m
  | .appendResponse => onAppendResponse m
  | .installSnapshot => onInstallSnapshot m
  | .installSnapshotResponse => onInstallSnapshotResponse m
  | .timeoutNow => onTimeoutNow m
  | .other _ _ => pure ()

/-- The messages that do not raise the term. -/
def MessageType.isPreVote (t : MessageType) : Bool := t == .preVote || t == .preVoteResponse

/-- `Step`: a higher term is saved and adopted before the message is handled. -/
def step (m : Message) : NodeM σ Unit := do
  let n ← get
  if n.faulted then pure ()
  else if m.type.isPreVote = false ∧ m.term > n.term then do
    let persisted ← persistHardState { term := m.term, commit := n.commit }
    if persisted then do
      modify fun n => { n with
        state := .follower, term := m.term, votedFor := 0, leader := 0, readReady := false }
      handle m
    else pure ()
  else handle m

/-! ## Reading and applying -/

/-- `StartReadIndex`: a read waits for a quorum to confirm the leader at its commit index. -/
def startReadIndex (context : UInt64) : NodeM σ Bool := do
  let n ← get
  if n.state ≠ .leader ∨ n.faulted ∨ context = 0 ∨ n.commit = 0 then pure false
  else do
    let term ← n.termAtMust n.commit
    let bit ← nodeBit n.id
    let ready ← n.quorumMask bit
    if term ≠ n.term ∧ ready = false then pure false
    else do
      modify fun n => { n with
        readContext := context, readAckMask := bit, readReady := ready
        readIndex := if ready then n.commit else n.readIndex }
      n.peers.forM fun p => appendToContext p context
      pure true

/-- `ReadIndex`: the index of a confirmed read. -/
def Node.readIndex? (n : Node σ) (context : UInt64) : Option Nat :=
  if n.state ≠ .leader ∨ context ≠ n.readContext ∨ n.readReady = false then none
  else some n.readIndex

/-- `for n.Applied < n.Commit`, which passes `Commit - Applied` times. -/
def applyEntriesLoop : Nat → List Entry → NodeM σ (List Entry)
  | 0, dst => pure dst
  | rest + 1, dst => do
    modify fun n => { n with applied := n.applied + 1 }
    let n ← get
    let entry ← n.entryAt n.applied
    applyEntriesLoop rest (if entry.kind = .normal then dst ++ [entry] else dst)

/-- `ApplyEntries`: the committed entries not yet applied, after those in `dst`. -/
def applyEntries (dst : List Entry) : NodeM σ (List Entry) := do
  let n ← get
  applyEntriesLoop (n.commit - n.applied) dst

end Promtact.Raft
