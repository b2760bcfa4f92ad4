import Promtact.Lib.Consensus.Steps
import Promtact.Raft.Store
import Promtact.Raft.Recover

/-!
# What a node means in the history of the log

`Rep w i n` relates the node `n` to member `i` of the abstract world `w`
(`Promtact.Lib.Consensus`). The world's log of a member is its whole log from index 1; a node and
its store keep the part above their snapshot.

* `params`: the entries, the masks and their majorities as parameters of the abstract protocol.
* `ValidMsg`: what a message in flight says about the record. It stays true as the record grows.
* `Stored`: the store would give member `i` back. That is all that is left of a node when it
  crashes.
* `Live` and `Failed`: a running node is what its store holds, and knows its role in its term; a
  node that stopped on a storage error only agrees with its store up to its commit index.

`Mode` says what may happen in a run: whether the membership changes, whether logs are compacted,
whether a log may hold two changes of the membership that are not committed (`serial` excludes it),
and what the state in a snapshot has to do with the log it stands for.
-/

namespace Promtact.Raft

open Refine Consensus

/-- What the runs of a result may contain: changes of membership, snapshots, and which images a
snapshot may hold. -/
structure Mode where
  members : Bool
  snapshots : Bool
  Image : List Entry → List UInt8 → Prop
  serial : Bool := false

/-! ## The parameters of the protocol -/

/-- The configuration of two masks. The new one is empty outside a transition. -/
def toCfg (old new : Mask) : Config Mask := ⟨old, if new = 0 then none else some new⟩

/-- What the entry does to the configuration. -/
def Entry.change (e : Entry) : Consensus.Change Mask :=
  match e.kind with
  | .jointConfig => .joint e.oldVoters e.newVoters
  | .finalConfig => .final e.oldVoters
  | _ => .keep

/-- The entries that leaders make: those that recovery accepts, if they come in order. -/
def Entry.Valid (e : Entry) : Prop :=
  match e.kind with
  | .normal => e.oldVoters = 0 ∧ e.newVoters = 0 ∧
      (e.operation = .legacy ∨
        (e.operation = .put ∨ e.operation = .delete) ∧ e.clientID ≠ 0 ∧ e.requestID ≠ 0)
  | .noop => e.command = 0 ∧ e.oldVoters = 0 ∧ e.newVoters = 0 ∧ e.operation = .legacy
  | .jointConfig => e.oldVoters ≠ 0 ∧ e.newVoters ≠ 0
  | .finalConfig => e.oldVoters ≠ 0 ∧ e.newVoters = 0
  | .other _ _ => False

/-- The acknowledgements `A` contain a majority of `v`. -/
def HasMajority (v : Mask) (A : Nat → Prop) : Prop :=
  ∃ a, majorityMask v a = true ∧ ∀ id, Mem id a → A id

theorem HasMajority.inter {v : Mask} {A B : Nat → Prop} (hA : HasMajority v A)
    (hB : HasMajority v B) : ∃ id, A id ∧ B id := by
  obtain ⟨a, ha, hA⟩ := hA
  obtain ⟨b, hb, hB⟩ := hB
  obtain ⟨id, h1, h2⟩ := majorityMask_inter ha hb
  exact ⟨id, hA id h1, hB id h2⟩

/-- The protocol of a cluster that starts with the voters `V`. -/
def params (mode : Mode) (V : Mask) : Params Nat Entry Mask where
  term := Entry.term
  change := Entry.change
  Ok e := e.Valid ∧ (mode.members = false → e.isConfig = false)
  init := ⟨V, none⟩
  Maj := HasMajority
  maj_inter := HasMajority.inter

/-- A vote, where the source writes `0` for none. -/
def optId (id : Nat) : Option Nat := if id = 0 then none else some id

variable {σ : Type} [DurableStore σ] [LawfulStore σ] (mode : Mode) (V : Mask)

/-- The snapshot stands for the first entries of `ℓ`. -/
structure Covers (ℓ : List Entry) (s : Snapshot) : Prop where
  le : s.lastIndex ≤ ℓ.length
  term : (params mode V).lastTerm (ℓ.take s.lastIndex) = s.lastTerm
  none : s.lastIndex = 0 → s = {}
  some : s.lastIndex ≠ 0 → mode.snapshots = true ∧ s.oldVoters ≠ 0 ∧
    toCfg s.oldVoters s.newVoters = (params mode V).cfg (ℓ.take s.lastIndex) ∧
    mode.Image (ℓ.take s.lastIndex) s.state

/-- What a message in flight says. -/
def ValidMsg (w : World Nat Entry) (m : Message) : Prop :=
  match m.type with
  | .requestVote => ∃ ℓ, w.cand m.term m.src = some ℓ ∧ ℓ.length = m.logIndex ∧
      (params mode V).lastTerm ℓ = m.logTerm
  | .requestVoteResponse => m.reject = false → ∃ ℓ, w.voted m.term m.src = some (m.dst, ℓ)
  | .append => ∃ r, w.lead m.term = some r ∧ r.leader = m.src ∧
      m.logIndex ≤ (w.llog m.term).length ∧
      (params mode V).lastTerm (w.upTo m.term m.logIndex) = m.logTerm ∧
      (m.hasEntry = true → (w.llog m.term)[m.logIndex]? = some m.entry) ∧
      w.Backed m.term (w.llog m.term) m.commit
  | .appendResponse | .installSnapshotResponse =>
      m.reject = false → w.acked m.term m.src m.matchIndex
  | .installSnapshot => m.snapshotOld ≠ 0 → ∃ r, w.lead m.term = some r ∧ r.leader = m.src ∧
      Covers mode V (w.llog m.term) m.toSnapshot ∧
      w.Backed m.term (w.llog m.term) m.snapshotIndex
  | _ => True

/-- Every message of a list is one the record accounts for. -/
def Sent (w : World Nat Entry) (out : List Message) : Prop := ∀ m ∈ out, ValidMsg mode V w m

/-- At most one change of the membership is not committed. -/
def Serial (ℓ : List Entry) (commit : Nat) : Prop :=
  ∀ j k e e', commit ≤ j → j < k → ℓ[j]? = some e → ℓ[k]? = some e' → e.isConfig = true →
    e'.isConfig = false

/-- The recovered state is that of member `i`. -/
structure Durable (w : World Nat Entry) (i : Nat) (d : Recovery) : Prop where
  term : w.term i = d.hard.term
  vote : w.vote i = optId d.hard.votedFor
  commit : w.commit i = max d.hard.commit d.base
  suffix : (w.log i).drop d.base = d.suffix
  covers : Covers mode V (w.log i) d.snapshot
  serial : mode.serial = true → Serial (w.log i) (w.commit i)

/-- What the store holds is the state of member `i`. -/
def Stored (w : World Nat Entry) (i : Nat) (s : σ) : Prop :=
  ∃ d, LawfulStore.Holds s d ∧ Durable mode V w i d

/-- The retained log at an absolute index. -/
def entryOf (log : List Entry) (base k : Nat) : Option Entry :=
  if base ≤ k then log[k - base]? else none

/-- A node and its store: everything the node knows is durable. -/
structure Held (w : World Nat Entry) (i : Nat) (store : σ) (term votedFor commit base baseTerm : Nat)
    (log : List Entry) (snapshot : Snapshot) : Prop where
  holds : ∃ hc, LawfulStore.Holds store ⟨⟨term, votedFor, hc⟩, snapshot, log.tail⟩ ∧
    commit = max hc base
  clean : LawfulStore.Clean store
  term_eq : w.term i = term
  vote_eq : w.vote i = optId votedFor
  commit_eq : w.commit i = commit
  log_eq : ∃ e, log = e :: (w.log i).drop base ∧ e.term = baseTerm
  base_eq : snapshot.lastIndex = base
  baseTerm_eq : snapshot.lastTerm = baseTerm
  covers : Covers mode V (w.log i) snapshot
  serial : mode.serial = true → Serial (w.log i) (w.commit i)

/-- The node's role in its term. -/
structure Role (w : World Nat Entry) (i : Nat) (state : State) (term : Nat) (voteMask : Mask) :
    Prop where
  candidate : state = .candidate → w.cand term i = some (w.log i) ∧
    (∀ r, w.lead term = some r → r.leader ≠ i) ∧
    ∀ v, Mem v voteMask → ∃ ℓ, w.voted term v = some (i, ℓ)
  leader : state = .leader → ∃ r, w.lead term = some r ∧ r.leader = i

/-- A leader's record of its peers. -/
def Matched (w : World Nat Entry) (state : State) (term : Nat) (peers : List Nat)
    (matchIdx : Nat → Nat) : Prop :=
  state = .leader → ∀ p ∈ peers, matchIdx p = 0 ∨ w.acked term p (matchIdx p)

/-- The entries that change the configuration and are not committed end at `pendingConfig`. -/
def Pending (ℓ : List Entry) (commit pendingConfig : Nat) : Prop :=
  ∀ k e, commit ≤ k → ℓ[k]? = some e → e.isConfig = true → k < pendingConfig

/-- A running node whose voters are those of the first `c` entries. -/
def Live (w : World Nat Entry) (i : Nat) (n : Node σ) (c : Nat) : Prop :=
  Held mode V w i n.store n.term n.votedFor n.commit n.baseIndex n.baseTerm n.log n.snapshot ∧
  (n.baseIndex ≤ n.applied ∧ n.applied ≤ n.commit) ∧
  toCfg n.votersOld n.votersNew = (params mode V).cfg ((w.log i).take c) ∧
  Role w i n.state n.term n.voteMask

/-- What is left of a node that stopped on a storage error. -/
structure Settled (w : World Nat Entry) (i : Nat) (term base applied commit : Nat)
    (log : List Entry) (old new : Mask) : Prop where
  term_eq : w.term i = term
  base_le : base ≤ applied
  applied_le : applied ≤ commit
  commit_le : commit ≤ w.commit i
  entry : ∀ k, base < k → k ≤ commit → entryOf log base k = (w.log i)[k - 1]?
  baseTerm : (entryOf log base base).map (·.term) =
    some ((params mode V).lastTerm ((w.log i).take base))
  masks : mode.members = false → toCfg old new = (params mode V).cfg ((w.log i).take commit)
  uncompacted : mode.snapshots = false → base = 0

/-- A node that stopped on a storage error: its store is that of the member, its memory may lag
behind. -/
def Failed (w : World Nat Entry) (i : Nat) (n : Node σ) : Prop :=
  Stored mode V w i n.store ∧
  Settled mode V w i n.term n.baseIndex n.applied n.commit n.log n.votersOld n.votersNew

/-- A running node in the middle of a method. Its voters may still be those of the first `c`
entries, and what it records of its peers (`M`) and of changes (`K`) may be out of date. -/
structure Ready (M K : Prop) (w : World Nat Entry) (i : Nat) (n : Node σ) (c : Nat) : Prop where
  id : n.id = i
  sent : Sent mode V w n.outbound
  faulted : n.faulted = false
  live : Live mode V w i n c
  matched : M → Matched w n.state n.term n.peers n.matchIdx
  pending : K → Pending (w.log i) n.commit n.pendingConfig

/-- The node `n` is member `i` of the world. -/
def Rep (w : World Nat Entry) (i : Nat) (n : Node σ) : Prop :=
  Ready mode V True True w i n n.commit ∨
  n.id = i ∧ n.outbound = [] ∧ n.faulted = true ∧ n.state = .follower ∧ Failed mode V w i n

end Promtact.Raft
