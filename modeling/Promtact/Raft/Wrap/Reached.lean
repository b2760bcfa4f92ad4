import Promtact.Raft.Changes.Runs
import Promtact.Raft.Wrap.Crash

/-!
# The states of a node that gets messages from anyone

`Reached` are the states that calls of the methods lead to from `NewNode`, with any messages. All of
them are `Good` (`Reached.good`), so `Step` panics exactly if `Crashes` (`Reached.step_panics_iff`).
-/

namespace Promtact.Raft.Wrap

open Refine

namespace Good

variable {k : Nat} {n : Node MemoryStore}

/-! ## What the other methods keep -/

theorem keepsSend (h : Good k n) (m : Message) : Triple (fun _ => True) (send m) n fun _ => Good k :=
  (h.send_good m).triple

theorem keepsAppendToContext (h : Good k n) (p : Nat) (context : UInt64) :
    Triple (fun _ => True) (appendToContext p context) n fun _ => Good k := by
  unfold appendToContext
  refine Sim.seq_get (Sim.ite (fun _ => h.keepsSend _) fun _ => Sim.seq_update (Sim.seq_get ?_))
  have h₁ : Good k
      (if n.next p > wrap (lastIndex n + 1) then n.setNext p (wrap (lastIndex n + 1)) else n) := by
    split
    · exact { h with }
    · exact h
  exact Sim.seq_check_of trivial fun m _ => h₁.keepsSend m

theorem keepsBroadcastAppend (h : Good k n) :
    Triple (fun _ => True) broadcastAppend n fun _ => Good k := by
  unfold broadcastAppend
  refine Sim.seq_get (Sim.each h fun p _ _ n h => Sim.seq_get (Sim.seq_check_of trivial fun voter _ => ?_))
  exact Sim.ite (fun _ => h.keepsAppendToContext p 0) fun _ => Sim.ret h

theorem keepsAppendLocal (h : Good (k + 1) n) (e : Entry) :
    Triple (fun _ => True) (appendLocal e) n fun _ => Good k :=
  ((h.appendLocal_exact e).mono fun _ _ _ hq => hq.2.1).triple

theorem keepsProposeEntry (h : Good (k + 1) n) (e : Entry) :
    Triple (fun _ => True) (proposeEntry e) n fun _ => Good k := by
  refine Sim.seq (h.keepsAppendLocal e) fun ok _ n _ h => Sim.ite (fun _ => ?_) fun _ => Sim.ret h
  exact Sim.seq h.keepsBroadcastAppend fun _ _ n _ h => Sim.ret h

theorem keepsPropose (h : Good (k + 1) n) (command : UInt64) :
    Triple (fun _ => True) (propose command) n fun _ => Good k :=
  Sim.seq_get (Sim.ite (fun _ => Sim.ret h.weaken) fun _ => h.keepsProposeEntry _)

theorem keepsProposeRequest (h : Good (k + 1) n) (operation : CommandOp)
    (clientID requestID key value : UInt64) :
    Triple (fun _ => True) (proposeRequest operation clientID requestID key value) n fun _ => Good k :=
  Sim.seq_get (Sim.ite (fun _ => Sim.ret h.weaken) fun _ => h.keepsProposeEntry _)

theorem keepsProposeConfig (h : Good (k + 1) n) (e : Entry) :
    Triple (fun _ => True) (proposeConfig e) n fun _ => Good k := by
  refine Sim.seq (h.keepsAppendLocal e) fun ok _ n _ h => Sim.ite (fun _ => ?_) fun _ => Sim.ret h
  have h₁ : Good k { n with pendingConfig := lastIndex n } := { h with }
  exact Sim.seq_update (Sim.seq h₁.keepsBroadcastAppend fun _ _ n _ h => Sim.ret h)

theorem keepsProposeJoint (h : Good (k + 1) n) (newVoters : List Nat) :
    Triple (fun _ => True) (proposeJoint newVoters) n fun _ => Good k := by
  refine Sim.seq_check_of trivial fun mask _ => Sim.seq_get ?_
  cases mask with
  | none => exact Sim.ret h.weaken
  | some mask =>
    have hmodify : Triple (fun _ => True) (modify (Wrap.ensurePeers mask) : NodeM MemoryStore Unit) n
        fun _ => Good (k + 1) := Sim.update ((Configured.ensurePeers n mask).good h)
    refine Sim.ite (fun _ => Sim.ret h.weaken) fun _ => ?_
    -- the loop over the 64 identifiers stays folded
    generalize Wrap.ensurePeers mask = enlist at hmodify ⊢
    exact Sim.seq hmodify fun _ _ n _ h => h.keepsProposeConfig _

theorem keepsProposeFinal (h : Good (k + 1) n) :
    Triple (fun _ => True) proposeFinal n fun _ => Good k :=
  Sim.seq_get (Sim.ite (fun _ => Sim.ret h.weaken) fun _ => h.keepsProposeConfig _)

theorem keepsTransferLeadership (h : Good k n) (target : Nat) :
    Triple (fun _ => True) (transferLeadership target) n fun _ => Good k := by
  refine Sim.seq_get (Sim.ite (fun _ => Sim.ret h) fun _ => Sim.seq_check_of trivial fun voter _ => ?_)
  refine Sim.ite (fun _ => Sim.ite (fun _ => ?_) fun _ => ?_) fun _ => Sim.ret h
  · exact Sim.seq (h.keepsAppendToContext target 0) fun _ _ n _ h => Sim.ret h
  · exact Sim.seq (h.keepsSend _) fun _ _ n _ h => Sim.ret h

theorem keepsStartPreVote (h : Good (k + 1) n) :
    Triple (fun _ => True) startPreVote n fun _ => Good k := by
  unfold startPreVote
  refine Sim.seq_get (Sim.seq_check_of trivial fun bit _ => Sim.seq_update (Sim.seq_get ?_))
  have h₁ : Good (k + 1) { n with
      elapsed := 0, preVoteTerm := wrap (n.term + 1), leader := 0, preVoteMask := bit } := { h with }
  have hask := (h₁.request_exact .preVote (·.preVoteTerm) n.peers).mono
    fun hok _ _ hs => hs.good h₁ (not_not.mp fun hr => hok (.inr hr))
  refine Sim.seq hask.triple fun _ _ n₂ _ h₂ => Sim.seq_get (Sim.seq_check_of trivial fun won _ => ?_)
  exact Sim.ite (fun _ => h₂.startElection_exact.triple) fun _ => Sim.ret h₂.weaken

theorem keepsTick (h : Good (k + 1) n) : Triple (fun _ => True) tick n fun _ => Good k := by
  unfold tick
  refine Sim.seq_get (Sim.ite (fun _ => Sim.ret h.weaken) fun _ => Sim.seq_update (Sim.seq_get ?_))
  have h₁ : Good (k + 1) { n with elapsed := wrap (n.elapsed + 1) } := { h with }
  have h₀ : Good k { n with elapsed := 0 } := { h.weaken with }
  refine Sim.ite (fun _ => Sim.ite (fun _ => ?_) fun _ => Sim.ret h₁.weaken) fun _ => ?_
  · exact Sim.seq_update h₀.keepsBroadcastAppend
  · exact Sim.ite (fun _ => h₁.keepsStartPreVote) fun _ => Sim.ret h₁.weaken

theorem keepsStartReadIndex (h : Good k n) (context : UInt64) :
    Triple (fun _ => True) (startReadIndex context) n fun _ => Good k := by
  unfold startReadIndex
  refine Sim.seq_get (Sim.ite (fun _ => Sim.ret h) fun _ => Sim.seq_check_of trivial fun term _ => ?_)
  refine Sim.seq_check_of trivial fun bit _ => Sim.seq_check_of trivial fun ready _ => ?_
  refine Sim.ite (fun _ => Sim.ret h) fun _ => Sim.seq_update ?_
  have h₁ : Good k { n with
      readContext := context, readAckMask := bit, readReady := ready
      readIndex := if ready then n.commit else n.readIndex } := { h with }
  exact Sim.seq (Sim.each h₁ fun p _ _ n h => h.keepsAppendToContext p context) fun _ _ n _ h => Sim.ret h

theorem keepsApplyEntries (h : Good k n) (rest : Nat) (dst : List Entry) :
    Triple (fun _ => True) (applyEntriesLoop rest dst) n fun _ => Good k := by
  induction rest generalizing n dst with
  | zero => exact Sim.ret h
  | succ rest ih =>
    have h₁ : Good k { n with applied := n.applied + 1 } := { h with }
    exact Sim.seq_update (Sim.seq_get (Sim.seq_check_of trivial fun e _ => ih h₁ _))

end Good

/-! ## Runs -/

/-- `NewNode`. -/
def newNode (id : Nat) (peers : List Nat) (electionTimeout : Nat) : Except Panic (Node MemoryStore) :=
  newNodeWithStore id peers electionTimeout {}

/-- The states of a node that is ticked, stepped with any message, asked to propose, to transfer its
leadership, to read or to apply, and drained. -/
inductive Reached (id : Nat) (peers : List Nat) (timeout : Nat) : Node MemoryStore → Prop
  | new {n : Node MemoryStore} (h : newNode id peers timeout = .ok n) : Reached id peers timeout n
  | call {n n' : Node MemoryStore} {op : Op} (h : Reached id peers timeout n)
      (hm : ∀ m, op = .step m → Indexed m) (hop : ∀ index state, op ≠ .compact index state)
      (hx : run op n = .ok () n')
      -- a slice has less than `2 ^ 63` elements
      (hlen : n'.log.length < 2 ^ 63) : Reached id peers timeout n'
  | drain {n : Node MemoryStore} (h : Reached id peers timeout n) :
      Reached id peers timeout { n with outbound := [] }

variable {id timeout : Nat} {peers : List Nat} {n n' : Node MemoryStore} {m : Message}

theorem newNode_good (h : newNode id peers timeout = .ok n) : Good 1 n := by
  obtain ⟨hid, -, hpeers, -⟩ := newNodeWithStore_ids h
  obtain ⟨-, -, heq⟩ := newNodeWithStore_ok h
  rw [heq]
  exact
    { log := List.cons_ne_nil _ _
      length := show 1 + 1 < 2 ^ 64 by decide
      id := hid
      peers := fun p hp => (hpeers p hp).1
      base := Nat.two_pow_pos 64
      commit := Nat.two_pow_pos 64
      base_le := fun _ => Nat.le_refl _
      last_base := nofun
      outbound := Nat.zero_le _
      running := rfl
      store := Nat.le_refl _ }

theorem Good.run {k : Nat} {op : Op} (h : Good (k + 1) n) (hm : ∀ m, op = .step m → Indexed m)
    (hop : ∀ index state, op ≠ .compact index state) :
    Triple (fun _ => True) (run op) n fun _ => Good k := by
  cases op with
  | tick => exact h.keepsTick
  | step m => exact (h.step_exact (hm m rfl)).triple
  | propose command => exact (h.keepsPropose command).discard
  | proposeRequest operation clientID requestID key value =>
    exact (h.keepsProposeRequest operation clientID requestID key value).discard
  | proposeJoint newVoters => exact (h.keepsProposeJoint newVoters).discard
  | proposeFinal => exact h.keepsProposeFinal.discard
  | transferLeadership target => exact (h.weaken.keepsTransferLeadership target).discard
  | startReadIndex context => exact (h.weaken.keepsStartReadIndex context).discard
  | applyEntries => exact (h.weaken.keepsApplyEntries _ _).discard
  | compact index state => exact absurd rfl (hop index state)

theorem Reached.good (h : Reached id peers timeout n) : Good 1 n := by
  induction h with
  | new h => exact newNode_good h
  | call h hm hop hx hlen ih => exact { (ih.run hm hop).ok hx with length := by omega }
  | drain h ih => exact { ih with outbound := Nat.zero_le _ }

end Promtact.Raft.Wrap
