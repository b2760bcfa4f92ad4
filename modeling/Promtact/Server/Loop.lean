import Promtact.Protocol.Client
import Promtact.Raft.Cluster
import Promtact.StateMachine

/-!
# The server (`server/server.go`)

A server is a node, a state machine, the mutations and reads that clients wait for, and the loop
that serves them. One pass of the loop takes a message of a peer, a request of a client or a tick,
hands the messages of the node over, applies what is committed, and completes the reads that are
ready (`iterate`). Clients get their responses over channels; a channel is made for one request.

The servers run as a network (`act`). What a run shows is the list of its items: the messages
between the nodes, and the requests and responses in the order in which the servers take and give
them. A storage error ends the loop, and a panic the process; both leave the store.

The queues in front of the loop only drop and delay what is in them, and the time-out of a
connection does not reach the loop. The counters for the metrics are left out.
-/

namespace Promtact.Service

open Raft Protocol StateMachine Refine Network

/-- A request and the channel for its response. -/
structure Request where
  value : ClientRequest
  reply : Nat
  deriving DecidableEq, Repr

/-- Client and request of a mutation. -/
abbrev PendingKey := UInt64 × UInt64

/-- A read that waits for its index. -/
structure PendingRead where
  context : UInt64
  request : Request
  deriving DecidableEq, Repr

/-- What a run shows. -/
inductive Item where
  | peer (m : Message)
  | asked (id : Nat) (request : Request)
  | answered (reply : Nat) (response : ClientResponse)
  deriving DecidableEq

/-- `Server`: the fields of the loop. -/
structure Server where
  snapshotEntries : Nat
  node : Node Disk
  machine : Machine := {}
  /-- The channels that wait for a mutation. -/
  pending : List (PendingKey × List Nat) := []
  reads : List PendingRead := []
  /-- What this pass of the loop has given out. -/
  out : List Item := []

/-- Why the loop ends. -/
inductive Stop where
  | panic (p : Panic)
  | storage (e : StorageError)
  deriving DecidableEq, Repr

/-- The methods of a server. -/
abbrev ServerM := EStateM Stop Server

/-- A method of the node. -/
def onNode {α : Type} (x : NodeM Disk α) : ServerM α :=
  zoom Server.node (fun node s => { s with node }) .panic x

/-- A method of the node changes only the node. -/
theorem onNode_triple {α : Type} {x : NodeM Disk α} {s : Server} {B : Server → Prop}
    {Q : α → Server → Prop} (hb : ∀ node, B { s with node }) (hq : ∀ a node, Q a { s with node }) :
    Triple B (onNode x) s Q := by
  have hany : Triple (fun _ => True) x s.node fun _ _ => True := .intro fun _ _ => trivial
  exact Sim.zoom hany (fun _ n _ _ => hb n) fun a _ n _ _ => hq a n

/-- Something is given out. -/
def emit (items : List Item) : ServerM Unit := modify fun s => { s with out := s.out ++ items }

/-- A response with what the node knows. -/
def Server.response (s : Server) (status : Status) (request : ClientRequest) (value : UInt64) :
    ClientResponse :=
  { status, leader := s.node.leader, requestID := request.requestID, value, commit := s.node.commit }

/-- `incoming.reply <- s.response(status, req, value)`. -/
def respond (incoming : Request) (status : Status) (value : UInt64) : ServerM Unit := do
  let s ← get
  emit [.answered incoming.reply (s.response status incoming.value value)]

/-! ## Requests -/

/-- The context of a read. -/
def contextID (req : ClientRequest) : UInt64 := (req.clientID <<< 32) ^^^ req.requestID

/-- `handleRequest` for a read: one at a time. -/
def handleGet (incoming : Request) : ServerM Unit := do
  let s ← get
  if s.reads ≠ [] then respond incoming .busy 0
  else if contextID incoming.value = 0 then respond incoming .busy 0
  else do
    let started ← onNode (startReadIndex (contextID incoming.value))
    if started then
      modify fun s => { s with reads := s.reads ++ [⟨contextID incoming.value, incoming⟩] }
    else respond incoming .busy 0

/-- The operation of an entry, if the request is a mutation. -/
def commandOp : ClientOp → Option CommandOp
  | .put => some .put
  | .delete => some .delete
  | _ => none

/-- `handleRequest` for a write: a request that was applied is answered from the cache. -/
def handleMutation (incoming : Request) : ServerM Unit := do
  let s ← get
  let req := incoming.value
  let key := (req.clientID, req.requestID)
  if req.clientID = 0 ∨ req.requestID = 0 then respond incoming .invalid 0
  else match s.machine.cached req.clientID req.requestID with
    | .error _ => respond incoming .invalid 0
    | .ok (some result) => respond incoming .ok result.value
    | .ok none =>
      match s.pending.lookup key with
      | some _ => modify fun s => { s with pending := s.pending.map fun (k, waiters) =>
          (k, if k = key then waiters ++ [incoming.reply] else waiters) }
      | none =>
        match commandOp req.operation with
        | none => respond incoming .invalid 0
        | some operation => do
          let proposed ←
            onNode (proposeRequest operation req.clientID req.requestID req.key req.value)
          if proposed then
            modify fun s => { s with pending := (key, [incoming.reply]) :: s.pending }
          else respond incoming .busy 0

/-- `handleRequest`: only a leader serves more than the status. -/
def handleRequest (incoming : Request) : ServerM Unit := do
  let s ← get
  if incoming.value.operation = .status then respond incoming .ok 0
  else if s.node.state ≠ .leader then respond incoming .notLeader 0
  else if incoming.value.operation = .get then handleGet incoming
  else handleMutation incoming

/-! ## Applying -/

/-- The response to a mutation that was applied. -/
def Server.applied (s : Server) (entry : Entry) (result : Except MachineError Result) :
    ClientResponse :=
  { status := match result with
      | .ok _ => .ok
      | .error _ => .invalid
    leader := s.node.leader
    requestID := entry.requestID
    value := match result with
      | .ok result => result.value
      | .error _ => 0
    commit := s.node.commit }

/-- The body of the loop of `apply`. -/
def applyEntry (entry : Entry) : ServerM Unit := do
  let s ← get
  let (machine, result) := s.machine.apply entry
  modify fun s => { s with machine }
  match s.pending.lookup (entry.clientID, entry.requestID) with
  | none => pure ()
  | some waiters => do
    emit (waiters.map fun reply => .answered reply (s.applied entry result))
    modify fun s => { s with
      pending := s.pending.filter fun p => p.1 ≠ (entry.clientID, entry.requestID) }

/-- `apply`: the committed entries, then a snapshot where there are enough of them. -/
def apply : ServerM Unit := do
  let entries ← onNode (applyEntries [])
  entries.forM applyEntry
  let s ← get
  if s.snapshotEntries ≠ 0 ∧ s.node.applied - s.node.baseIndex ≥ s.snapshotEntries then do
    let _ ← onNode (compact s.node.applied s.machine.snapshot)
    pure ()
  else pure ()

/-! ## Reads -/

/-- The read is ready, and what it covers is applied. -/
def Server.completes (s : Server) (read : PendingRead) : Bool :=
  match s.node.readIndex? read.context with
  | none => false
  | some index => decide (index ≤ s.node.applied)

/-- The answer to a confirmed read. -/
def Server.readResponse (s : Server) (request : ClientRequest) : ClientResponse :=
  match s.machine.get request.key with
  | none => s.response .notFound request 0
  | some value => s.response .ok request value

/-- `completeReads`: the reads whose index is confirmed and applied are answered. -/
def completeReads : ServerM Unit := do
  let s ← get
  emit ((s.reads.filter s.completes).map fun read =>
    .answered read.request.reply (s.readResponse read.request.value))
  modify fun s' => { s' with reads := s.reads.filter fun read => !s.completes read }

/-! ## The loop -/

/-- What wakes the loop. -/
inductive Input where
  | message (m : Message)
  | request (r : Request)
  | tick

/-- What the loop takes from its channels. -/
def take : Input → ServerM Unit
  | .message m => onNode (step m)
  | .request r => handleRequest r
  | .tick => onNode tick

/-- `outbound = s.node.Drain(…)`, and the messages are sent. -/
def sendPeers : ServerM Unit := do
  let outbound ← onNode drain
  emit (outbound.map .peer)

/-- One pass of the loop. -/
def iterate (input : Input) : ServerM Unit := do
  take input
  let s ← get
  match s.node.storageErr with
  | some e => throw (.storage e)
  | none => do
    sendPeers
    apply
    completeReads

/-! ## Opening -/

/-- Why a server does not start. -/
inductive OpenError where
  | storage (e : StorageError)
  | panic (p : Panic)
  | machine (e : MachineError)
  deriving DecidableEq, Repr

/-- The machine of the snapshot, or a new one. -/
def openMachine (snapshot : Snapshot) : Except MachineError Machine :=
  if snapshot.lastIndex ≠ 0 ∧ snapshot.state ≠ [] then Machine.restore snapshot.state else .ok {}

/-- The loop of `Open` over the entries: the first error ends it. -/
def applyOpened (machine : Machine) (entries : List Entry) : Except MachineError Machine :=
  entries.foldlM (fun machine entry => (machine.apply entry).2.map fun _ => (machine.apply entry).1)
    machine

/-- `Open`. -/
def openServer (S : Setup Disk) (snapshotEntries : Nat → Nat) (id : Nat) (store : Disk) :
    Except OpenError Server :=
  match DurableStore.reopen store with
  | .error e => .error (.storage e)
  | .ok (store, recovery) =>
    match recover id (S.peers id) (S.timeout id) store recovery with
    | .error p => .error (.panic p)
    | .ok node =>
      match openMachine recovery.snapshot, applyEntries [] node with
      | .error e, _ => .error (.machine e)
      | .ok _, .error p _ => .error (.panic p)
      | .ok machine, .ok entries node =>
        match applyOpened machine entries with
        | .error e => .error (.machine e)
        | .ok machine => .ok { snapshotEntries := snapshotEntries id, node, machine }

/-! ## Servers in a network -/

/-- A server, or the disk of one that stopped. -/
inductive Proc where
  | up (s : Server)
  | down (store : Disk)

/-- What happens at a server. -/
inductive Event where
  | pass (input : Input)
  | crash
  | restart

/-- The channels of the requests so far. -/
def askedOn (items : List Item) : List Nat :=
  items.filterMap fun
    | .asked _ r => some r.reply
    | _ => none

/-- What the loop may take: a message that was sent to the server, or a request on a new channel. -/
def Input.Available (id : Nat) (items : List Item) : Input → Prop
  | .message m => .peer m ∈ items ∧ m.dst = id
  | .request r => r.reply ∉ askedOn items
  | .tick => True

instance (id : Nat) (items : List Item) : DecidablePred (Input.Available id items)
  | .message m => inferInstanceAs (Decidable (Item.peer m ∈ items ∧ m.dst = id))
  | .request r => inferInstanceAs (Decidable (r.reply ∉ askedOn items))
  | .tick => .isTrue trivial

/-- What a pass shows before the loop runs. -/
def Input.items (id : Nat) : Input → List Item
  | .request r => [.asked id r]
  | _ => []

/-- The end of a pass. -/
def after (items : List Item) : EStateM.Result Stop Server Unit → Proc × List Item
  | .ok _ s => (.up { s with out := [] }, items ++ s.out)
  | .error _ s => (.down s.node.store, items ++ s.out)

/-- What an event does at a server, and the items it gives out. -/
def act (S : Setup Disk) (snapshotEntries : Nat → Nat) : Behaviour Nat Proc Item Event :=
  fun id event p items =>
    match event, p with
    | .pass input, .up s =>
      if input.Available id items then some (after (input.items id) (iterate input s)) else none
    | .crash, .up s => some (.down s.node.store, [])
    | .restart, .down store =>
      (openServer S snapshotEntries id store).toOption.map fun s => (.up s, [])
    | _, _ => none

/-- The servers and every item so far. -/
abbrev Servers := Net Nat Proc Item

/-- Nothing runs yet, and the stores are empty. -/
def start (S : Setup Disk) : Servers where
  procs id := if id ∈ S.ids then some (.down (S.store id)) else none
  sent := []

/-- What an event does. -/
theorem act_some {S : Setup Disk} {snapshotEntries : Nat → Nat} {id : Nat} {event : Event}
    {p p' : Proc} {items out : List Item}
    (h : act S snapshotEntries id event p items = some (p', out)) :
    (∃ input s, event = .pass input ∧ p = .up s ∧ input.Available id items ∧
      after (input.items id) (iterate input s) = (p', out)) ∨
    (∃ s, p = .up s ∧ p' = .down s.node.store ∧ out = []) ∨
    ∃ store s, p = .down store ∧ openServer S snapshotEntries id store = .ok s ∧ p' = .up s ∧
      out = [] := by
  unfold act at h
  split at h
  · split at h
    · exact .inl ⟨_, _, rfl, rfl, ‹_›, Option.some.inj h⟩
    · cases h
  · cases h
    exact .inr (.inl ⟨_, rfl, rfl, rfl⟩)
  · rename_i store
    obtain ⟨s, hs, heq⟩ := ok_of_map h
    cases heq
    exact .inr (.inr ⟨store, s, rfl, hs, rfl, rfl⟩)
  · cases h

/-- A server that was opened has nobody waiting. -/
theorem openServer_idle {S : Setup Disk} {snapshotEntries : Nat → Nat} {id : Nat} {store : Disk}
    {s : Server} (h : openServer S snapshotEntries id store = .ok s) :
    s.pending = [] ∧ s.reads = [] ∧ s.out = [] := by
  unfold openServer at h
  split at h
  · cases h
  split at h
  · cases h
  split at h
  · cases h
  · cases h
  split at h
  · cases h
  · cases h
    exact ⟨rfl, rfl, rfl⟩

/-! ## Scripts of runs -/

/-- One step of a script. -/
abbrev Move := Servers → Option (Nat × Event)

namespace Move

/-- A pass of the loop of a server. -/
def pass (id : Nat) (input : Input) : Move := fun _ => some (id, .pass input)

/-- A server stops. -/
def crash (id : Nat) : Move := fun _ => some (id, .crash)

/-- A server starts again. -/
def restart (id : Nat) : Move := fun _ => some (id, .restart)

/-- Delivers the message that is item `k` of the run. -/
def deliver (k : Nat) : Move := fun c =>
  match c.sent[k]? with
  | some (.peer m) => some (m.dst, .pass (.message m))
  | _ => none

end Move

/-- Server 1 is elected with the vote of server 2, and they commit its first entry. -/
def opened : List Move :=
  [.restart 1, .restart 2, .pass 1 .tick] ++ [0, 2, 3, 5, 6, 8, 9, 10, 11].map Move.deliver

/-- A client writes 7 to key 3 over channel 0, and reads it over channel 1. -/
def served : List Move :=
  opened ++
  [.pass 1 (.request ⟨{ operation := .put, clientID := 5, requestID := 1, key := 3, value := 7 }, 0⟩)] ++
  [15, 17].map Move.deliver ++
  [.pass 1 (.request ⟨{ operation := .get, clientID := 5, requestID := 2, key := 3 }, 1⟩)] ++
  [22, 24].map Move.deliver

end Promtact.Service
