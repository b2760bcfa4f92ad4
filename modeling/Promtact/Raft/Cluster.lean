import Promtact.Lib.Network
import Promtact.Raft.Store
import Promtact.Raft.Recover

/-!
# Clusters of nodes (`dst/raftcluster`)

The nodes of a cluster are started with the same voters. An event is one call of a method of one
node, the collection of what it wants to send, a crash, or a restart. A message that was collected
may be delivered to its addressee at any later time, any number of times.

A crash leaves the store. A call in the middle of a method that the store refuses stops the node
there, so a crash between two calls of the store is a refused call and then a crash. A panic is a
crash.
-/

namespace Promtact.Raft

open Network

/-- The methods of a node that a caller may use. -/
inductive Op where
  | tick
  | step (m : Message)
  | propose (command : UInt64)
  | proposeRequest (operation : CommandOp) (clientID requestID key value : UInt64)
  | proposeJoint (newVoters : List Nat)
  | proposeFinal
  | transferLeadership (target : Nat)
  | startReadIndex (context : UInt64)
  | applyEntries
  | compact (index : Nat) (state : List UInt8)
  deriving DecidableEq, Repr

/-- The call. What it returns does not matter to the cluster. -/
def Op.run {σ : Type} [StableStore σ] : Op → NodeM σ Unit
  | .tick => Raft.tick
  | .step m => Raft.step m
  | .propose command => do let _ ← Raft.propose command; pure ()
  | .proposeRequest operation clientID requestID key value => do
    let _ ← Raft.proposeRequest operation clientID requestID key value
    pure ()
  | .proposeJoint newVoters => do let _ ← Raft.proposeJoint newVoters; pure ()
  | .proposeFinal => do let _ ← Raft.proposeFinal; pure ()
  | .transferLeadership target => do let _ ← Raft.transferLeadership target; pure ()
  | .startReadIndex context => do let _ ← Raft.startReadIndex context; pure ()
  | .applyEntries => do let _ ← Raft.applyEntries []; pure ()
  | .compact index state => do let _ ← Raft.compact index state; pure ()

/-- A message is delivered after it was sent, and to its addressee. -/
def Op.Deliverable (id : Nat) (sent : List Message) : Op → Prop
  | .step m => m ∈ sent ∧ m.dst = id
  | _ => True

instance (id : Nat) (sent : List Message) : DecidablePred (Op.Deliverable id sent)
  | .step m => inferInstanceAs (Decidable (m ∈ sent ∧ m.dst = id))
  | .tick | .propose _ | .proposeRequest .. | .proposeJoint _ | .proposeFinal
  | .transferLeadership _ | .startReadIndex _ | .applyEntries | .compact .. => .isTrue trivial

/-- What happens at a member. -/
inductive Event where
  | call (op : Op)
  | drain
  | crash
  | restart
  deriving DecidableEq, Repr

/-- A node that runs, or the store that a crash left. -/
inductive Proc (σ : Type) where
  | up (n : Node σ)
  | down (store : σ)

/-- The outcome of a method: a panic leaves the store. -/
def Proc.after {σ α : Type} : EStateM.Result Panic (Node σ) α → Proc σ
  | .ok _ n => .up n
  | .error _ n => .down n.store

variable {σ : Type} [DurableStore σ]

/-- How the nodes are started. -/
structure Setup (σ : Type) [DurableStore σ] [LawfulStore σ] where
  ids : List Nat
  peers : Nat → List Nat
  timeout : Nat → Nat
  store : Nat → σ
  voters : Mask
  /-- All nodes are started with the same voters. -/
  agree : ∀ id ∈ ids, (newNodeWithStore id (peers id) (timeout id) (store id)).map (·.votersOld) =
    .ok voters
  /-- The stores are empty. -/
  empty : ∀ id ∈ ids, LawfulStore.Holds (store id) {} ∧ LawfulStore.Clean (store id)

variable [LawfulStore σ] (S : Setup σ)

/-- A restart opens the store and recovers the node with its first peers. -/
def Setup.restart (id : Nat) (store : σ) : Option (Proc σ) :=
  match DurableStore.reopen store with
  | .error _ => none
  | .ok (store, d) =>
    match recover id (S.peers id) (S.timeout id) store d with
    | .error _ => none
    | .ok n => some (.up n)

/-- What an event does at a member, and the messages it releases. A crash keeps only the store. -/
def Setup.act : Behaviour Nat (Proc σ) Message Event := fun id event p sent =>
  match event, p with
  | .call op, .up n => if op.Deliverable id sent then some (.after (op.run n), []) else none
  | .drain, .up n =>
    match drain n with
    | .ok out n => some (.up n, out)
    | .error _ n => some (.down n.store, [])
  | .crash, .up n => some (.down n.store, [])
  | .restart, .down store => (S.restart id store).map fun p => (p, [])
  | _, _ => none

/-- The members and every message ever sent. -/
abbrev Cluster (σ : Type) := Net Nat (Proc σ) Message

/-- Every member up, with nothing sent. -/
def Setup.start : Cluster σ where
  procs id :=
    if id ∈ S.ids then
      (newNodeWithStore id (S.peers id) (S.timeout id) (S.store id)).toOption.map .up
    else none
  sent := []

/-- The running node at an address. -/
def nodeAt {σ : Type} (c : Cluster σ) (id : Nat) : Option (Node σ) :=
  match c.procs id with
  | some (.up n) => some n
  | _ => none

theorem procs_of_nodeAt {σ : Type} {c : Cluster σ} {i : Nat} {n : Node σ} (h : nodeAt c i = some n) :
    c.procs i = some (.up n) := by
  unfold nodeAt at h
  split at h
  · cases h
    assumption
  · cases h

/-! ## Scripts of runs -/

/-- One step of a script. -/
abbrev Move (σ : Type) := Cluster σ → Option (Nat × Event)

namespace Move

variable {σ : Type}

/-- A call of a method at a member. -/
def call (id : Nat) (op : Op) : Move σ := fun _ => some (id, .call op)

/-- The queue of a member is sent. -/
def drain (id : Nat) : Move σ := fun _ => some (id, .drain)

/-- A member stops. -/
def crash (id : Nat) : Move σ := fun _ => some (id, .crash)

/-- A member comes back from its store. -/
def restart (id : Nat) : Move σ := fun _ => some (id, .restart)

/-- A call, after which the messages are collected. -/
def calls (id : Nat) (op : Op) : List (Move σ) := [call id op, drain id]

/-- Delivers the message that was sent as number `k`. -/
def deliver (k : Nat) : Move σ := fun c => (c.sent[k]?).map fun m => (m.dst, .call (.step m))

/-- Delivers messages one after the other, and collects what they cause. -/
def deliverAll (ks : List Nat) : List (Move σ) :=
  ks.flatMap fun k => [deliver k, fun c => (c.sent[k]?).map fun m => (m.dst, .drain)]

end Move

/-- Three nodes, the first of which is the first to time out. -/
def trioOn (store : Nat → σ)
    (empty : ∀ id, LawfulStore.Holds (store id) {} ∧ LawfulStore.Clean (store id)) : Setup σ where
  ids := [1, 2, 3]
  peers id := [1, 2, 3].filter (· ≠ id)
  timeout id := id
  store := store
  voters := 7
  agree id hid := by
    simp only [List.mem_cons, List.not_mem_nil, or_false] at hid
    rcases hid with rfl | rfl | rfl <;> rfl
  empty id _ := empty id

/-- Three members on empty disks. -/
def trio : Setup Disk := trioOn (fun _ => {}) fun _ => ⟨rfl, trivial⟩

/-- Node 1 is elected with the vote of node 2, and they commit its first entry. -/
def elected {σ : Type} : List (Move σ) :=
  Move.calls 1 .tick ++ Move.deliverAll [0, 2, 3, 5, 6, 8, 9, 10, 11]

end Promtact.Raft
