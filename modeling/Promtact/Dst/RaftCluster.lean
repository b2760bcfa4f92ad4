import Promtact.Dst.Engine
import Promtact.Dst.StableStore
import Promtact.Raft.Recover

/-!
# Raft under the engine (`dst/raftcluster/cluster.go`)

A `Deployment` is the nodes of a cluster with their stores: the fields of `raftcluster.Cluster`, and
the same fields of `sim.Simulator`. The two packages do the same with them; they differ in the name
that their errors start with.

`stores[id]` is the store that node `id` writes to, and `disks[id]` is under it, until a restart
finds that the snapshot does not belong to the WAL. `Restart` has replaced the two by then, and
returns an error: the old node goes on writing to the old store. `left` is the store that is in the
map in that case.
-/

namespace Promtact.Dst

open Raft Storage

/-- A panic of a node, a node that is not in the map, and a cluster without nodes. -/
inductive NodePanic where
  | raft (p : Raft.Panic)
  | nilNode
  | noNodes
  deriving DecidableEq, Repr

/-- A panic of the package `raft`. -/
def raftPanic {α : Type} : Except Raft.Panic α → Except NodePanic α
  | .ok a => .ok a
  | .error p => .error (.raft p)

/-- The nodes of a simulated cluster, and the stores of those that did not come back. -/
structure Deployment where
  count : Nat
  nodes : Nat → Option (Node StableStore)
  left : Nat → Option StableStore := fun _ => none

/-- The election timeouts differ, so that one node campaigns first. -/
def electionTimeout (id : Nat) : Nat := 8 + id * 2

/-- The peers of a node: all others. -/
def peersOf (count id : Nat) : List Nat := (List.range' 1 count).filter (· ≠ id)

namespace Deployment

/-- `New`. -/
def new (count : Nat) : Except NodePanic Deployment :=
  if count < 1 then throw .noNodes
  else do
    let nodes ← (List.range' 1 count).foldlM (fun nodes id => do
      let n ← raftPanic (newNodeWithStore id (peersOf count id) (electionTimeout id)
        ({} : StableStore))
      pure (Function.update nodes id (some n))) fun _ => none
    pure { count, nodes }

/-- The identifiers of the nodes. -/
def ids (c : Deployment) : List Nat := List.range' 1 c.count

/-- A call of a method of node `id`. -/
def onNode {α : Type} (id : Nat) (x : NodeM StableStore α) (c : Deployment) :
    Except NodePanic (α × Deployment) :=
  match c.nodes id with
  | none => .error .nilNode
  | some n =>
    match x n with
    | .ok a n => .ok (a, { c with nodes := Function.update c.nodes id (some n) })
    | .error p _ => .error (.raft p)

/-- A tick at a node. -/
def tick (id : Nat) (c : Deployment) : Except NodePanic Deployment :=
  (c.onNode id Raft.tick).map (·.2)

/-- A message is handed to a node. -/
def deliver (id : Nat) (msg : Message) (c : Deployment) : Except NodePanic Deployment :=
  (c.onNode id (Raft.step msg)).map (·.2)

/-- The queue of a node. -/
def drain (id : Nat) (c : Deployment) : Except NodePanic (List Message × Deployment) :=
  c.onNode id Raft.drain

/-- Asks one node after the other, until one accepts. -/
def firstAccepting (x : NodeM StableStore Bool) :
    List Nat → Deployment → Except NodePanic (Bool × Deployment)
  | [], c => pure (false, c)
  | id :: ids, c => do
    let (ok, c) ← c.onNode id x
    if ok then pure (true, c) else firstAccepting x ids c

/-- `Propose` at the first node that accepts it. -/
def propose (command : UInt64) (c : Deployment) : Except NodePanic (Bool × Deployment) :=
  firstAccepting (Raft.propose command) c.ids c

/-- `ProposeJoint` at the first node that accepts it. -/
def proposeJoint (voters : List Nat) (c : Deployment) : Except NodePanic (Bool × Deployment) :=
  firstAccepting (Raft.proposeJoint voters) c.ids c

/-- `ProposeFinal` at the first node that accepts it. -/
def proposeFinal (c : Deployment) : Except NodePanic (Bool × Deployment) :=
  firstAccepting Raft.proposeFinal c.ids c

/-- `Compact`: at the applied index. -/
def compact (id : Nat) (state : List UInt8) (c : Deployment) :
    Except NodePanic (Bool × Deployment) :=
  match c.nodes id with
  | none => pure (false, c)
  | some n =>
    if n.applied ≤ n.baseIndex then pure (false, c)
    else c.onNode id (Raft.compact n.applied state)

/-- The committed entries of a node that it has not applied. -/
def applyEntries (id : Nat) (c : Deployment) : Except NodePanic (List Entry × Deployment) :=
  c.onNode id (Raft.applyEntries [])

/-- The node that a restart builds from a store. -/
def recoverNode (id : Nat) (peers : List Nat) (stable : StableStore) :
    Except Raft.Panic (Node StableStore) :=
  if stable.wal.base ≠ 0 then
    newRecoveredNodeWithSnapshot id peers (electionTimeout id) stable stable.wal.hard
      stable.snapshot stable.wal.data.tail
  else newRecoveredNode id peers (electionTimeout id) stable stable.wal.hard stable.wal.data

/-- `Restart`, and the part of `CrashRestart` that is about the node. The result is the error. -/
def restart (package : String) (id : Nat) (c : Deployment) :
    Except NodePanic (Option StorageError × Deployment) :=
  match c.nodes id with
  | none => pure (some ⟨package ++ ": unknown node " ++ toString id⟩, c)
  | some node =>
    match ((c.left id).getD node.store).reboot with
    | .error err => pure (some err, c)
    | .ok stable =>
      if stable.wal.base ≠ 0 ∧ stable.snapshot.lastIndex ≠ stable.wal.base then
        pure (some (stable.mismatch package),
          { c with left := Function.update c.left id (some stable) })
      else
        do
          let n ← raftPanic (recoverNode id node.peers stable)
          pure (none, { c with
            nodes := Function.update c.nodes id (some n)
            left := Function.update c.left id none })

end Deployment

/-! ## A new cluster -/

/-- The voters of a cluster: all nodes. -/
def voters (count : Nat) : Mask := (List.range' 1 count).foldl (fun m id => m ||| bit id) 0

theorem mem_foldl_bit {ids : List Nat} (hvalid : ∀ id ∈ ids, 0 < id ∧ id ≤ 64) {m : Mask} {k : Nat} :
    Mem k (ids.foldl (fun m id => m ||| bit id) m) ↔ Mem k m ∨ k ∈ ids := by
  induction ids generalizing m with
  | nil => simp
  | cons id ids ih =>
    obtain ⟨h0, h64⟩ := hvalid id (List.mem_cons_self ..)
    rw [List.foldl_cons, ih fun i hi => hvalid i (List.mem_cons_of_mem _ hi), mem_or,
      mem_bit h0 h64, List.mem_cons]
    tauto

theorem valid_of_mem {count id : Nat} (h64 : count ≤ 64) (h : id ∈ List.range' 1 count) :
    0 < id ∧ id ≤ 64 := by
  rw [List.mem_range'_1] at h
  omega

theorem mem_voters {count k : Nat} (h64 : count ≤ 64) :
    Mem k (voters count) ↔ k ∈ List.range' 1 count := by
  rw [voters, mem_foldl_bit fun id => valid_of_mem h64]
  exact or_iff_right fun hk => ne_zero_of_mem hk rfl

/-- Node `id` when the cluster starts. -/
def firstNode (count id : Nat) : Node StableStore :=
  { id, peers := peersOf count id, timeout := electionTimeout id, votersOld := voters count
    store := {} }

theorem newNode_eq {count id : Nat} (h64 : count ≤ 64) (h : id ∈ List.range' 1 count) :
    newNodeWithStore id (peersOf count id) (electionTimeout id) ({} : StableStore) =
      .ok (firstNode count id) := by
  obtain ⟨h0, hid⟩ := valid_of_mem h64 h
  have hpeers : ∀ p ∈ peersOf count id, p ∈ List.range' 1 count ∧ p ≠ id := by
    intro p hp
    obtain ⟨hp, hne⟩ := List.mem_filter.mp hp
    exact ⟨hp, of_decide_eq_true hne⟩
  have hnodup : (peersOf count id).Nodup := (List.nodup_range' ..).filter _
  obtain ⟨v, hv, hmem⟩ := collectVoters_of_valid hnodup (fun p hp => valid_of_mem h64 (hpeers p hp).1)
    (fun p hp (h : Mem p (bit id)) => (hpeers p hp).2 ((mem_bit h0 hid).mp h))
  have hvoters : v = voters count := by
    refine eq_of_mem_iff fun k => ?_
    rw [hmem, mem_bit h0 hid, mem_voters h64, peersOf, List.mem_filter, decide_eq_true_eq]
    constructor
    · rintro (rfl | hk)
      · exact h
      · exact hk.1
    · intro hk
      by_cases hki : k = id
      · exact .inl hki
      · exact .inr ⟨hk, hki⟩
  rw [newNodeWithStore, nodeBit_of_valid h0 hid]
  show (collectVoters (peersOf count id) (bit id) >>= _) = _
  rw [hv, hvoters]
  rfl

/-- The nodes of a new cluster. -/
def firstNodes (count id : Nat) : Option (Node StableStore) :=
  if id ∈ List.range' 1 count then some (firstNode count id) else none

theorem Deployment.new_eq {count : Nat} (h1 : 1 ≤ count) (h64 : count ≤ 64) :
    Deployment.new count = .ok { count, nodes := firstNodes count } := by
  -- the loop puts the nodes of `ids` into the map
  have hloop : ∀ (ids : List Nat) (nodes : Nat → Option (Node StableStore)),
      (∀ id ∈ ids, id ∈ List.range' 1 count) →
      ids.foldlM (fun nodes id => do
        let n ← raftPanic (newNodeWithStore id (peersOf count id) (electionTimeout id)
          ({} : StableStore))
        pure (Function.update nodes id (some n))) nodes =
      (.ok fun id => if id ∈ ids then some (firstNode count id) else nodes id : Except NodePanic _) := by
    intro ids
    induction ids with
    | nil => intro nodes _; simp; rfl
    | cons id ids ih =>
      intro nodes hids
      rw [List.foldlM_cons, newNode_eq h64 (hids id (List.mem_cons_self ..))]
      refine (ih _ fun i hi => hids i (List.mem_cons_of_mem _ hi)).trans (congrArg _ (funext fun i => ?_))
      by_cases hi : i = id
      · subst hi; simp
      · simp [hi]
  rw [Deployment.new, if_neg (by omega), hloop _ _ fun _ h => h]
  rfl

/-- The implementation of `Cluster` and `Wire`. -/
def raftCluster : Protocol Deployment Message NodePanic where
  nodes := Deployment.ids
  tick := Deployment.tick
  deliver := Deployment.deliver
  drain := Deployment.drain
  route m := (m.src, m.dst)
  digest m := (typeCode m.type, m.term)

/-! ## A deployment under test -/

/-- What a test does with the cluster. -/
inductive Action where
  | step
  | propose (command : UInt64)
  | proposeJoint (voters : List Nat)
  | proposeFinal
  | compact (id : Nat) (state : List UInt8)
  | applyEntries (id : Nat)
  | restart (id : Nat)
  deriving DecidableEq, Repr

/-- What an action returns. -/
inductive Outcome where
  | stepped
  | accepted (ok : Bool)
  | applied (entries : List Entry)
  | restarted (err : Option StorageError)
  deriving DecidableEq, Repr

/-- The results of a sequence of actions, and the state after it. -/
def runActions {S ε : Type} (act : Action → S → Except ε (Outcome × S)) :
    List Action → S → Except ε (List Outcome × S)
  | [], s => pure ([], s)
  | a :: actions, s => do
    let (outcome, s) ← act a s
    let (outcomes, s) ← runActions act actions s
    pure (outcome :: outcomes, s)

/-- The engine over a cluster of nodes. -/
abbrev RaftEngine (ρ : Type) := Engine Deployment Message ρ

namespace RaftEngine

open Engine (liftPanic)

variable {ρ : Type} (rand : Rand ρ) (sha256 : List UInt8 → List UInt8)

/-- A proposal, after which the messages are collected if it was accepted. -/
def proposal (x : Deployment → Except NodePanic (Bool × Deployment)) (e : RaftEngine ρ) :
    Except (Stop NodePanic) (Outcome × RaftEngine ρ) := do
  let (ok, cluster) ← liftPanic (x e.cluster)
  let e := { e with cluster }
  if ok then do
    let e ← e.collect raftCluster rand
    pure (.accepted true, e)
  else pure (.accepted false, e)

/-- An action on the engine and its cluster. After a restart the node is isolated, always if
`always` says so and otherwise if the restart returned no error. -/
def act (always : Bool) (passes : Nat) (a : Action) (e : RaftEngine ρ) :
    Except (Stop NodePanic) (Outcome × RaftEngine ρ) :=
  match a with
  | .step => do
    let e ← e.step raftCluster rand sha256 passes
    pure (.stepped, e)
  | .propose command => proposal rand (Deployment.propose command) e
  | .proposeJoint voters => proposal rand (Deployment.proposeJoint voters) e
  | .proposeFinal => proposal rand Deployment.proposeFinal e
  | .compact id state => do
    let (ok, cluster) ← liftPanic (e.cluster.compact id state)
    pure (.accepted ok, { e with cluster })
  | .applyEntries id => do
    let (entries, cluster) ← liftPanic (e.cluster.applyEntries id)
    pure (.applied entries, { e with cluster })
  | .restart id => do
    let (err, cluster) ← liftPanic (e.cluster.restart "raftcluster" id)
    let e := { e with cluster }
    pure (.restarted err, if always || err.isNone then (e.isolate id).2 else e)

end RaftEngine

end Promtact.Dst
