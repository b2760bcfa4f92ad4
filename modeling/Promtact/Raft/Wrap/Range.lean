import Promtact.Lib.Exact
import Promtact.Raft.Changes.Config
import Promtact.Raft.Wrap.Handlers

/-!
# Where no number wraps around

As long as the terms and the indexes stay below the largest `uint64`, the node with 64-bit numbers
and the one with natural numbers do the same (`run_eq`). `InRange n op` says so for a call of a
method: it bounds the node before the call and the message.

`Low k n` is what the proofs use: the log of `n` may get `k` more entries, and its last index is
still below the largest.
-/

namespace Promtact.Raft.Wrap

open Refine

/-- The loop ends by its condition. -/
theorem indexes_of_lt {first last : Nat} (h : last + 1 < 2 ^ 64) :
    indexes first last = List.range' first (last + 1 - first) := by
  rw [indexes, if_neg (by unfold maxUint64; omega), List.append_nil]

variable {σ : Type} {n n' : Node σ} {k : Nat}

/-- No index of the log wraps around, also after `k` more entries. -/
structure Low (k : Nat) (n : Node σ) : Prop where
  log : n.log ≠ []
  last : n.lastIndex + k + 1 < 2 ^ 64
  commit : n.commit + 1 < 2 ^ 64

namespace Low

theorem of_same (h : Low k n) (hlog : n'.log = n.log) (hb : n'.baseIndex = n.baseIndex)
    (hc : n'.commit = n.commit) : Low k n' := by
  refine ⟨hlog ▸ h.log, ?_, hc ▸ h.commit⟩
  rw [Node.lastIndex, hlog, hb]
  exact h.last

theorem weaken (h : Low (k + 1) n) : Low k n := ⟨h.log, by have := h.last; omega, h.commit⟩

theorem base_le (h : Low k n) : n.baseIndex ≤ n.lastIndex := Node.baseIndex_le_lastIndex h.log

theorem frame (h : Low k n) (hf : Frame n n') : Low k n' := h.of_same hf.log hf.baseIndex hf.commit

/-! ## The log and the voters -/

theorem lastIndex_eq (h : Low k n) : lastIndex n = n.lastIndex := by
  have hpos := List.length_pos_of_ne_nil h.log
  have hlast := h.last
  unfold Node.lastIndex at hlast ⊢
  unfold lastIndex wrap maxUint64
  omega

theorem wrap_last (h : Low k n) : wrap (lastIndex n + 1) = n.lastIndex + 1 := by
  rw [h.lastIndex_eq, wrap_of_lt (by have := h.last; omega)]

theorem wrap_base (h : Low k n) : wrap (n.baseIndex + 1) = n.baseIndex + 1 :=
  wrap_of_lt (by have := h.last; have := h.base_le; omega)

theorem wrap_commit (h : Low k n) : wrap (n.commit + 1) = n.commit + 1 := wrap_of_lt h.commit

theorem entryAt?_eq (h : Low k n) : entryAt? n = n.entryAt? := by
  funext index
  rw [entryAt?, Node.entryAt?, offset, Node.offset, h.lastIndex_eq]

theorem termAt_eq (h : Low k n) : termAt n = n.termAt := by
  funext index
  rw [termAt, Node.termAt, h.entryAt?_eq]

theorem termAtMust_eq (h : Low k n) : termAtMust n = n.termAtMust := by
  funext index
  cases hx : n.termAt index with
  | none | some _ => simp only [termAtMust, Node.termAtMust, h.termAt_eq, hx]

theorem entryAt_eq (h : Low k n) : entryAt n = n.entryAt := by
  funext index
  cases hx : n.entryAt? index with
  | none | some _ => simp only [entryAt, Node.entryAt, h.entryAt?_eq, hx]

theorem jointVoters_eq (h : Low k n) {first last : Nat} (hl : last ≤ n.lastIndex) :
    jointVoters n first last = n.jointVoters first last := by
  rw [jointVoters, Node.jointVoters, indexes_of_lt (by have := h.last; omega), h.entryAt_eq]

theorem firstPending_eq (h : Low k n) : firstPending n = max (n.commit + 1) (n.baseIndex + 1) := by
  rw [firstPending, h.wrap_commit, h.wrap_base]

theorem effectiveVoters_eq (h : Low k n) : effectiveVoters n = n.effectiveVoters := by
  rw [effectiveVoters, Node.effectiveVoters, h.firstPending_eq, h.lastIndex_eq,
    h.jointVoters_eq (Nat.le_refl _)]

theorem canCommitIndex_eq (h : Low k n) {index : Nat} (hl : index ≤ n.lastIndex) (acked : Mask) :
    canCommitIndex n index acked = n.canCommitIndex index acked := by
  rw [canCommitIndex, Node.canCommitIndex, h.wrap_commit, h.jointVoters_eq hl]

theorem quorumMask_eq (h : Low k n) : quorumMask n = n.quorumMask := by
  funext mask
  rw [quorumMask, Node.quorumMask, h.effectiveVoters_eq]

theorem isVoter_eq (h : Low k n) : isVoter n = n.isVoter := by
  funext id
  rw [isVoter, Node.isVoter, h.effectiveVoters_eq]

theorem commitTarget_eq (h : Low k n) {above : Nat} (hl : above ≤ n.lastIndex - n.commit) :
    commitTarget n above = n.commitTarget above := by
  induction above with
  | zero => rfl
  | succ above ih =>
    have hindex : n.commit + (above + 1) ≤ n.lastIndex := by omega
    simp only [commitTarget, Node.commitTarget, h.termAtMust_eq, ih (by omega),
      h.canCommitIndex_eq hindex]

/-! ## Peers -/

theorem ensurePeer_eq (h : Low k n) (mask : Mask) (id : Nat) :
    ensurePeer mask id n = n.ensurePeer mask id := by
  rw [ensurePeer, Node.ensurePeer, h.wrap_last]

theorem ensurePeers_eq (h : Low k n) (mask : Mask) : ensurePeers mask n = n.ensurePeers mask := by
  suffices ∀ (ids : List Nat) (n : Node σ), Low k n →
      ids.foldl (fun n id => ensurePeer mask id n) n =
        ids.foldl (fun n id => n.ensurePeer mask id) n by
    unfold Wrap.ensurePeers Node.ensurePeers
    exact this _ n h
  intro ids
  induction ids with
  | nil =>
    intro n _
    rw [List.foldl_nil, List.foldl_nil]
  | cons id ids ih =>
    intro n h
    rw [List.foldl_cons, List.foldl_cons, h.ensurePeer_eq]
    exact ih _ (h.frame (.ensurePeer n mask id))

theorem ensurePeers (h : Low k n) (mask : Mask) : Low k (n.ensurePeers mask) :=
  h.frame (.ensurePeers n mask)

theorem extend (h : Low (k + 1) n) (e : Entry) : Low k { n with log := n.log ++ [e] } := by
  refine ⟨List.append_ne_nil_of_right_ne_nil _ (List.cons_ne_nil _ _), ?_, h.commit⟩
  have hpos := List.length_pos_of_ne_nil h.log
  have hlast := h.last
  unfold Node.lastIndex at hlast
  show n.baseIndex + (n.log ++ [e]).length - 1 + k + 1 < 2 ^ 64
  rw [List.length_append, List.length_singleton]
  omega

end Low

/-! ## The store and sending -/

theorem Low.callStoreOrFail (h : Low k n) (x : EStateM StorageError σ Unit) :
    Twin (callStoreOrFail x) (callStoreOrFail x) n fun _ => Low k :=
  .same (callStoreOrFail_sim (fun _ _ => ⟨(), .refl, h.of_same rfl rfl rfl⟩) fun _ _ _ =>
    h.of_same rfl rfl rfl)

theorem Low.persistHardState [StableStore σ] (h : Low k n) (hard : HardState) :
    Twin (persistHardState hard) (persistHardState hard) n fun _ => Low k := h.callStoreOrFail _

theorem Low.send (h : Low k n) (m : Message) : Twin (send m) (send m) n fun _ => Low k :=
  .same (send_rule trivial (h.of_same rfl rfl rfl))

theorem Low.appendMessage_eq (h : Low k n) (p next : Nat) (context : UInt64) :
    appendMessage n p next context = n.appendMessage p next context := by
  rw [appendMessage, Node.appendMessage, h.termAtMust_eq, h.entryAt_eq, h.wrap_last]

theorem Low.appendToContext (h : Low k n) (p : Nat) (context : UInt64) :
    Twin (appendToContext p context) (Raft.appendToContext p context) n fun _ => Low k := by
  unfold Wrap.appendToContext Raft.appendToContext
  refine .seq_get (.ite Iff.rfl (fun _ => h.send _) fun _ => .seq_update ?_ (.seq_get ?_))
  · rw [h.wrap_last]
  · have h' : Low k (if n.next p > n.lastIndex + 1 then n.setNext p (n.lastIndex + 1) else n) := by
      split
      · exact h.of_same rfl rfl rfl
      · exact h
    exact .seq_check (h'.appendMessage_eq ..) fun m _ => h'.send m

theorem Low.appendTo (h : Low k n) (p : Nat) :
    Twin (appendTo p) (Raft.appendTo p) n fun _ => Low k := h.appendToContext p 0

theorem Low.broadcastAppend (h : Low k n) :
    Twin broadcastAppend Raft.broadcastAppend n fun _ => Low k := by
  unfold Wrap.broadcastAppend Raft.broadcastAppend
  refine .seq_get (.each h fun p _ n h => .seq_get (.seq_check (by rw [h.isVoter_eq]) fun b _ => ?_))
  exact .ite Iff.rfl (fun _ => h.appendTo p) fun _ => .ret h

/-! ## Configurations -/

theorem Low.applyConfiguration (h : Low k n) (e : Entry) :
    Twin (applyConfiguration e) (Raft.applyConfiguration e) n fun _ => Low k := by
  unfold Wrap.applyConfiguration Raft.applyConfiguration
  cases e.kind with
  | jointConfig =>
    have h' : Low k { n with votersOld := e.oldVoters, votersNew := e.newVoters } :=
      h.of_same rfl rfl rfl
    refine .update ?_ ?_
    · exact h'.ensurePeers_eq _
    · exact h'.ensurePeers _
  | finalConfig =>
    have h' : Low k { n with votersOld := e.oldVoters, votersNew := 0 } := h.of_same rfl rfl rfl
    refine .seq_update rfl (.seq_get (.seq_check ?_ fun b _ => ?_))
    · rw [h'.isVoter_eq]
    · exact .ite Iff.rfl (fun _ => .ret h') fun _ => .update rfl (h'.of_same rfl rfl rfl)
  | normal => exact .ret h
  | noop => exact .ret h
  | other code unnamed => exact .ret h

theorem Low.settleAt (h : Low k n) (index : Nat) :
    Twin (settleAt index)
      (do let n ← get
          let entry ← n.entryAt index
          Raft.applyConfiguration entry
          modify fun n => if index = n.pendingConfig then { n with pendingConfig := 0 } else n)
      n fun _ => Low k := by
  refine .seq_get (.seq_check (by rw [h.entryAt_eq]) fun e _ => ?_)
  refine (h.applyConfiguration e).seq fun _ n h => .update rfl ?_
  split
  · exact h.of_same rfl rfl rfl
  · exact h

theorem Low.applyCommittedConfigurations (h : Low k n) (first : Nat) {last : Nat}
    (hl : last + 1 < 2 ^ 64) :
    Twin (applyCommittedConfigurations first last) (Raft.applyCommittedConfigurations first last) n
      fun _ => Low k := by
  unfold Wrap.applyCommittedConfigurations Raft.applyCommittedConfigurations
  refine .seq_get ?_
  rw [indexes_of_lt hl, firstSettled, h.wrap_base]
  exact .each h fun index _ n h => h.settleAt index

theorem Low.rebuildPendingConfig (h : Low k n) :
    Twin rebuildPendingConfig Raft.rebuildPendingConfig n fun _ => Low k := by
  unfold Wrap.rebuildPendingConfig Raft.rebuildPendingConfig
  have h' : Low k { n with pendingConfig := 0 } := h.of_same rfl rfl rfl
  refine .seq_update rfl (.seq_get ?_)
  rw [h'.lastIndex_eq, h'.firstPending_eq, indexes_of_lt (by have := h'.last; omega)]
  refine .each h' fun index _ n h => .seq_get (.seq_check (by rw [h.entryAt_eq]) fun e _ => ?_)
  have hp : Low k { n with pendingConfig := index } := h.of_same rfl rfl rfl
  exact .ite Iff.rfl (fun _ => .update (hp.ensurePeers_eq _) (hp.ensurePeers _)) fun _ => .ret h

variable [StableStore σ]

/-! ## Leading -/

theorem Low.commitAlone (h : Low k n) : Twin commitAlone Raft.commitAlone n fun _ => Low k := by
  unfold Wrap.commitAlone Raft.commitAlone
  have hlast : n.lastIndex + 1 < 2 ^ 64 := by have := h.last; omega
  have h' : Low k { n with commit := n.lastIndex } := ⟨h.log, h.last, hlast⟩
  refine .seq_get (.seq_update (by rw [h.lastIndex_eq]) (.seq_get ?_))
  refine (h'.persistHardState _).seq fun ok n₁ h₁ => .ite Iff.rfl (fun _ => ?_) fun _ => ?_
  · rw [h.wrap_commit]
    exact (h₁.applyCommittedConfigurations _ hlast).seq fun _ _ h₂ => .ret h₂
  · exact .seq_update rfl (.ret ⟨h₁.log, h₁.last, h.commit⟩)

theorem Low.appendLocal (h : Low (k + 1) n) (e : Entry) :
    Twin (appendLocal e) (Raft.appendLocal e) n fun _ => Low k := by
  unfold Wrap.appendLocal Raft.appendLocal extendLocal
  refine .seq_get ?_
  rw [h.wrap_last]
  refine (h.callStoreOrFail _).seq fun ok n h => .ite Iff.rfl (fun _ => ?_) fun _ => ?_
  · have h' := h.extend e
    refine .seq_update rfl (.seq_get (.seq_check rfl fun bit _ => ?_))
    refine .seq_check (by rw [h'.quorumMask_eq]) fun alone _ => ?_
    exact .ite Iff.rfl (fun _ => h'.commitAlone) fun _ => .ret h'
  · exact .ret ⟨h.log, by have := h.last; omega, h.commit⟩

theorem Low.becomeLeader (h : Low (k + 1) n) :
    Twin becomeLeader Raft.becomeLeader n fun _ => Low k := by
  unfold Wrap.becomeLeader Raft.becomeLeader
  have h' : Low (k + 1) { n with state := .leader, leader := n.id, elapsed := 0 } :=
    h.of_same rfl rfl rfl
  refine .seq_update rfl (.seq_get ((h'.appendLocal _).seq fun ok n h => ?_))
  refine .ite Iff.rfl (fun _ => .seq_get ?_) fun _ => .ret h
  rw [h.wrap_last]
  have hloop := Twin.each (l := n.peers) (I := Low k) (ε := Panic)
    (f := fun p => modify fun m => (m.setNext p (n.lastIndex + 1)).setMatch p 0)
    (g := fun p => modify fun m => (m.setNext p (n.lastIndex + 1)).setMatch p 0) h
    fun p _ n h => .update rfl (h.of_same rfl rfl rfl)
  exact hloop.seq fun _ n h => h.broadcastAppend

theorem Low.proposeEntry (h : Low (k + 1) n) (e : Entry) :
    Twin (proposeEntry e) (Raft.proposeEntry e) n fun _ => Low k := by
  unfold Wrap.proposeEntry Raft.proposeEntry
  refine (h.appendLocal e).seq fun ok n h => .ite Iff.rfl (fun _ => ?_) fun _ => .ret h
  exact h.broadcastAppend.seq fun _ n h => .ret h

theorem Low.propose (h : Low (k + 1) n) (command : UInt64) :
    Twin (propose command) (Raft.propose command) n fun _ => Low k := by
  refine .seq_get (.ite Iff.rfl (fun _ => .ret ?_) fun _ => h.proposeEntry _)
  exact ⟨h.log, by have := h.last; omega, h.commit⟩

theorem Low.proposeRequest (h : Low (k + 1) n) (operation : CommandOp)
    (clientID requestID key value : UInt64) :
    Twin (proposeRequest operation clientID requestID key value)
      (Raft.proposeRequest operation clientID requestID key value) n fun _ => Low k :=
  .seq_get (.ite Iff.rfl (fun _ => .ret h.weaken) fun _ => h.proposeEntry _)

theorem Low.proposeConfig (h : Low (k + 1) n) (e : Entry) :
    Twin (proposeConfig e) (Raft.proposeConfig e) n fun _ => Low k := by
  unfold Wrap.proposeConfig Raft.proposeConfig
  refine (h.appendLocal e).seq fun ok n h => .ite Iff.rfl (fun _ => .seq_update ?_ ?_) fun _ => .ret h
  · rw [h.lastIndex_eq]
  · have h' : Low k { n with pendingConfig := n.lastIndex } := h.of_same rfl rfl rfl
    exact h'.broadcastAppend.seq fun _ n h => .ret h

theorem Low.proposeJoint (h : Low (k + 1) n) (newVoters : List Nat) :
    Twin (proposeJoint newVoters) (Raft.proposeJoint newVoters) n fun _ => Low k := by
  refine .seq_check rfl fun mask _ => .seq_get ?_
  cases mask with
  | none => exact .ret h.weaken
  | some mask =>
    refine .ite Iff.rfl (fun _ => .ret h.weaken) fun _ => .seq_update ?_ ?_
    · exact h.ensurePeers_eq mask
    · exact (h.ensurePeers mask).proposeConfig _

theorem Low.proposeFinal (h : Low (k + 1) n) :
    Twin proposeFinal Raft.proposeFinal n fun _ => Low k :=
  .seq_get (.ite Iff.rfl (fun _ => .ret h.weaken) fun _ => h.proposeConfig _)

omit [StableStore σ] in
theorem Low.transferLeadership (h : Low k n) (target : Nat) :
    Twin (transferLeadership target) (Raft.transferLeadership target) n fun _ => Low k := by
  unfold Wrap.transferLeadership Raft.transferLeadership
  refine .seq_get (.ite Iff.rfl (fun _ => .ret h) fun _ => .seq_check (by rw [h.isVoter_eq]) ?_)
  refine fun voter _ => .ite Iff.rfl (fun _ => ?_) fun _ => .ret h
  rw [h.lastIndex_eq]
  exact .ite Iff.rfl (fun _ => (h.appendTo target).seq fun _ _ h => .ret h) fun _ =>
    (h.send _).seq fun _ _ h => .ret h

/-! ## Elections -/

omit [StableStore σ] in
/-- The loop over the peers of a node in the term `t`. -/
theorem Low.request (h : Low k n) (type : MessageType) (term : Node σ → Nat) (peers : List Nat) :
    Twin (request type term peers)
      (peers.forM fun p => do
        let n ← get
        let lastTerm ← n.termAtMust n.lastIndex
        Raft.send { type, src := n.id, dst := p, term := term n
                    logIndex := n.lastIndex, logTerm := lastTerm })
      n fun _ n' => Low k n' ∧ n'.term = n.term := by
  refine .each ⟨h, rfl⟩ fun p _ n₁ ⟨h, ht⟩ => .seq_get (.seq_check ?_ fun t _ => ?_)
  · rw [h.termAtMust_eq, h.lastIndex_eq]
  · rw [h.lastIndex_eq]
    exact .same (send_rule trivial ⟨h.of_same rfl rfl rfl, ht⟩)

theorem Low.startElection (h : Low (k + 1) n) (ht : n.term + 1 < 2 ^ 64) :
    Twin startElection Raft.startElection n fun _ => Low k := by
  unfold Wrap.startElection Raft.startElection
  refine .seq_get ?_
  rw [wrap_of_lt ht]
  refine (h.persistHardState _).seq fun ok n₁ h => .ite Iff.rfl (fun _ => ?_) fun _ => .ret h.weaken
  refine .seq_check rfl fun bit _ => .seq_update rfl (.seq_get ?_)
  have h' : Low (k + 1) (campaign (n.term + 1) bit n₁) := h.of_same rfl rfl rfl
  refine (h'.request .requestVote (·.term) _).seq fun _ n₂ ⟨h, _⟩ => .seq_get ?_
  refine .seq_check (by rw [h.quorumMask_eq]) fun won _ => ?_
  exact .ite Iff.rfl (fun _ => h.becomeLeader) fun _ => .ret h.weaken

theorem Low.startPreVote (h : Low (k + 1) n) (ht : n.term + 1 < 2 ^ 64) :
    Twin startPreVote Raft.startPreVote n fun _ => Low k := by
  unfold Wrap.startPreVote Raft.startPreVote
  refine .seq_get (.seq_check rfl fun bit _ => .seq_update (by rw [wrap_of_lt ht]) (.seq_get ?_))
  have h' : Low (k + 1) { n with
      elapsed := 0, preVoteTerm := n.term + 1, leader := 0, preVoteMask := bit } :=
    h.of_same rfl rfl rfl
  refine (h'.request .preVote (·.preVoteTerm) _).seq fun _ n₁ ⟨h, ht₁⟩ => .seq_get ?_
  refine .seq_check (by rw [h.quorumMask_eq]) fun won _ => ?_
  exact .ite Iff.rfl (fun _ => h.startElection (ht₁ ▸ ht)) fun _ => .ret h.weaken

theorem Low.tick (h : Low (k + 1) n) (ht : n.term + 1 < 2 ^ 64) (he : n.elapsed + 1 < 2 ^ 64) :
    Twin tick Raft.tick n fun _ => Low k := by
  unfold Wrap.tick Raft.tick
  refine .seq_get (.ite Iff.rfl (fun _ => .ret h.weaken) fun _ => .seq_update (by rw [wrap_of_lt he]) ?_)
  have h' : Low (k + 1) { n with elapsed := n.elapsed + 1 } := h.of_same rfl rfl rfl
  have h₀ : Low k { n with elapsed := 0 } := h.weaken.of_same rfl rfl rfl
  refine .seq_get (.ite Iff.rfl (fun _ => ?_) fun _ => ?_)
  · exact .ite Iff.rfl (fun _ => .seq_update rfl h₀.broadcastAppend) fun _ => .ret h'.weaken
  · exact .ite Iff.rfl (fun _ => h'.startPreVote ht) fun _ => .ret h'.weaken

omit [StableStore σ] in
theorem Low.upToDate_eq (h : Low k n) (m : Message) : upToDate n m = n.upToDate m := by
  rw [upToDate, Node.upToDate, h.termAtMust_eq, h.lastIndex_eq]

omit [StableStore σ] in
theorem Low.onPreVote (h : Low k n) (ht : n.term + 1 < 2 ^ 64) (m : Message) :
    Twin (onPreVote m) (Raft.onPreVote m) n fun _ => Low k := by
  unfold Wrap.onPreVote Raft.onPreVote
  refine .seq_get (.seq_check (h.upToDate_eq m) fun new _ => ?_)
  refine .seq_check (by rw [h.isVoter_eq]) fun voter _ => ?_
  rw [wrap_of_lt ht]
  exact h.send _

theorem Low.onPreVoteResponse (h : Low (k + 1) n) (ht : n.term + 1 < 2 ^ 64) (m : Message) :
    Twin (onPreVoteResponse m) (Raft.onPreVoteResponse m) n fun _ => Low k := by
  unfold Wrap.onPreVoteResponse Raft.onPreVoteResponse
  refine .seq_get (.ite Iff.rfl (fun _ => .ret h.weaken) fun _ => ?_)
  refine .seq_check (by rw [h.isVoter_eq]) fun voter _ => ?_
  rw [wrap_of_lt ht]
  refine .ite Iff.rfl (fun _ => .seq_check rfl fun bit _ => ?_) fun _ => .ret h.weaken
  have h' : Low (k + 1) { n with preVoteMask := n.preVoteMask ||| bit } := h.of_same rfl rfl rfl
  refine .seq_update rfl (.seq_get (.seq_check ?_ fun won _ => ?_))
  · rw [h'.quorumMask_eq]
  · exact .ite Iff.rfl (fun _ => h'.startElection ht) fun _ => .ret h'.weaken

theorem Low.onVote (h : Low k n) (m : Message) :
    Twin (onVote m) (Raft.onVote m) n fun _ => Low k := by
  unfold Wrap.onVote Raft.onVote
  refine .seq_get (.seq_check (h.upToDate_eq m) fun new _ => ?_)
  refine .seq_check (by rw [h.isVoter_eq]) fun voter _ => ?_
  refine .ite Iff.rfl (fun _ => ?_) fun _ => h.send _
  refine (h.persistHardState _).seq fun ok n₁ h => .ite Iff.rfl (fun _ => ?_) fun _ => .ret h
  have h' : Low k { n₁ with votedFor := m.src, elapsed := 0 } := h.of_same rfl rfl rfl
  exact .seq_update rfl (h'.send _)

theorem Low.onVoteResponse (h : Low (k + 1) n) (m : Message) :
    Twin (onVoteResponse m) (Raft.onVoteResponse m) n fun _ => Low k := by
  unfold Wrap.onVoteResponse Raft.onVoteResponse
  refine .seq_get (.ite Iff.rfl (fun _ => .ret h.weaken) fun _ => ?_)
  refine .seq_check (by rw [h.isVoter_eq]) fun voter _ => ?_
  refine .ite Iff.rfl (fun _ => .seq_check rfl fun bit _ => ?_) fun _ => .ret h.weaken
  have h' : Low (k + 1) { n with voteMask := n.voteMask ||| bit } := h.of_same rfl rfl rfl
  refine .seq_update rfl (.seq_get (.seq_check ?_ fun won _ => ?_))
  · rw [h'.quorumMask_eq]
  · exact .ite Iff.rfl (fun _ => h'.becomeLeader) fun _ => .ret h'.weaken

theorem Low.onTimeoutNow (h : Low (k + 1) n) (ht : n.term + 1 < 2 ^ 64) (m : Message) :
    Twin (onTimeoutNow m) (Raft.onTimeoutNow m) n fun _ => Low k :=
  .seq_get (.ite Iff.rfl (fun _ => h.startElection ht) fun _ => .ret h.weaken)

/-! ## Replication -/

omit [StableStore σ] in
theorem Low.wrap_log (h : Low k n) {m : Message} (hl : m.logIndex ≤ n.lastIndex) :
    wrap (m.logIndex + 1) = m.logIndex + 1 := wrap_of_lt (by have := h.last; omega)

omit [StableStore σ] in
theorem Low.rejectsAppend_eq (h : Low k n) (m : Message) :
    rejectsAppend n m = n.rejectsAppend m := by
  rw [rejectsAppend, Node.rejectsAppend, h.termAt_eq, h.wrap_last]
  by_cases ht : n.termAt m.logIndex = some m.logTerm
  · rw [h.wrap_log (Node.termAt_range ht).2]
  · rw [show (n.termAt m.logIndex != some m.logTerm) = true from bne_iff_ne.mpr ht]
    simp only [Bool.or_true, Bool.true_or]

theorem matched_eq {m : Message} (hm : wrap (m.logIndex + 1) = m.logIndex + 1) :
    matched m = m.matched := by rw [matched, Message.matched, hm]

omit [StableStore σ] in
theorem Low.trim (h : Low k n) {index : Nat} (hb : n.baseIndex < index) :
    Low k { n with log := n.log.take (index - n.baseIndex) } := by
  have hpos := List.length_pos_of_ne_nil h.log
  refine ⟨List.ne_nil_of_length_pos ?_, ?_, h.commit⟩
  · rw [List.length_take]
    omega
  · have hlast := h.last
    have hle := List.length_take_le' (index - n.baseIndex) n.log
    unfold Node.lastIndex at hlast
    show n.baseIndex + (n.log.take (index - n.baseIndex)).length - 1 + k + 1 < 2 ^ 64
    omega

omit [StableStore σ] in
theorem Low.truncateConflict (h : Low k n) {index : Nat} (hb : n.baseIndex < index) (e : Entry) :
    Twin (truncateConflict index e) (Raft.truncateConflict index e) n fun _ => Low k := by
  unfold Wrap.truncateConflict Raft.truncateConflict
  refine .seq_get (.ite (by rw [h.termAt_eq]) (fun _ => ?_) fun _ => .ret h)
  exact .seq_update rfl (h.trim hb).rebuildPendingConfig

theorem Low.appendEntry (h : Low (k + 1) n) (index : Nat) (e : Entry) :
    Twin (appendEntry index e) (Raft.appendEntry index e) n fun _ => Low k := by
  unfold Wrap.appendEntry Raft.appendEntry
  refine (h.callStoreOrFail _).seq fun ok n h => .ite Iff.rfl (fun _ => ?_) fun _ => .ret h.weaken
  have h' : Low k { n with log := n.log ++ [e], pendingConfig := index } :=
    (h.extend e).of_same rfl rfl rfl
  refine .seq_update rfl (.seq_update ?_ (.ret ?_))
  · split
    · exact h'.ensurePeers_eq _
    · rfl
  · split
    · exact h'.ensurePeers _
    · exact h.extend e

theorem Low.storeEntry (h : Low (k + 1) n) {m : Message} (hb : n.baseIndex ≤ m.logIndex)
    (hl : m.logIndex ≤ n.lastIndex) :
    Twin (storeEntry m) (Raft.storeEntry m) n fun _ => Low k := by
  unfold Wrap.storeEntry Raft.storeEntry
  rw [h.wrap_log hl]
  refine .ite Iff.rfl (fun _ => ?_) fun _ => .ret h.weaken
  refine (h.truncateConflict (Nat.lt_succ_of_le hb) m.entry).seq fun _ n h => .seq_get ?_
  rw [h.wrap_last]
  exact .ite Iff.rfl (fun _ => h.appendEntry _ _) fun _ => .ret h.weaken

theorem Low.followCommit (h : Low k n) {m : Message} (hm : m.logIndex + 2 < 2 ^ 64) :
    Twin (followCommit m) (Raft.followCommit m) n fun _ => Low k := by
  have hw : wrap (m.logIndex + 1) = m.logIndex + 1 := wrap_of_lt (by omega)
  have hc : min m.commit m.matched + 1 < 2 ^ 64 := by
    unfold Message.matched
    split <;> omega
  unfold Wrap.followCommit Raft.followCommit raisesCommit
  refine .seq_get (.ite ?_ (fun _ => ?_) fun _ => .ret h)
  · rw [hw]
    simp only [Bool.and_eq_true, Bool.or_eq_true, decide_eq_true_eq]
  · rw [matched_eq hw]
    refine (h.persistHardState _).seq fun ok n₁ h₁ => .ite Iff.rfl (fun _ => ?_) fun _ => .ret h₁
    have h' : Low k { n₁ with commit := min m.commit m.matched } := ⟨h₁.log, h₁.last, hc⟩
    rw [h.wrap_commit]
    refine .seq_update rfl ?_
    exact (h'.applyCommittedConfigurations _ hc).seq fun _ _ h => .ret h

theorem Low.onAppend (h : Low (k + 1) n) (m : Message) :
    Twin (onAppend m) (Raft.onAppend m) n fun _ => Low k := by
  unfold Wrap.onAppend Raft.onAppend
  refine .seq_get (.ite (by rw [h.rejectsAppend_eq]) (fun _ => ?_) fun hr => ?_)
  · rw [h.lastIndex_eq]
    exact h.weaken.send _
  · simp only [Node.rejectsAppend, Bool.or_eq_true, not_or, bne_iff_ne, not_not] at hr
    obtain ⟨hb, hl⟩ := Node.termAt_range hr.1.2
    have h' : Low (k + 1) (follow m n) := h.of_same rfl rfl rfl
    have hm : m.logIndex + 2 < 2 ^ 64 := by have := h.last; omega
    refine .seq_update rfl ((h'.storeEntry hb hl).seq fun ok n₁ h₁ => ?_)
    refine .ite Iff.rfl (fun _ => (h₁.followCommit hm).seq fun ok n₂ h₂ => ?_) fun _ => .ret h₁
    rw [matched_eq (wrap_of_lt (by omega))]
    exact .ite Iff.rfl (fun _ => .seq_get (h₂.send _)) fun _ => .ret h₂

omit [StableStore σ] in
theorem Low.recordReadAck (h : Low k n) (m : Message) :
    Twin (recordReadAck m) (Raft.recordReadAck m) n fun _ => Low k := by
  unfold Wrap.recordReadAck Raft.recordReadAck confirmsRead
  refine .seq_get (.ite ?_ (fun _ => .seq_check (by rw [h.isVoter_eq]) fun voter _ => ?_) fun _ => .ret h)
  · simp only [Bool.and_eq_true, beq_iff_eq, bne_iff_ne, Bool.not_eq_true', and_assoc]
  · refine .ite Iff.rfl (fun _ => .seq_check rfl fun bit _ => ?_) fun _ => .ret h
    have h' : Low k { n with readAckMask := n.readAckMask ||| bit } := h.of_same rfl rfl rfl
    refine .seq_update rfl (.seq_get (.seq_check ?_ fun ready _ => ?_))
    · rw [h'.quorumMask_eq]
    · exact .ite Iff.rfl (fun _ => .update rfl (h'.of_same rfl rfl rfl)) fun _ => .ret h'

theorem Low.commitIndex (h : Low k n) {index : Nat} (hi : index + 1 < 2 ^ 64) :
    Twin (commitIndex index) (Raft.commitIndex index) n fun _ => Low k := by
  unfold Wrap.commitIndex Raft.commitIndex settleCommit
  simp only [bind_assoc]
  refine .seq_get ?_
  rw [h.wrap_commit]
  refine (h.persistHardState _).seq fun ok n₁ h₁ => .ite Iff.rfl (fun _ => ?_) fun _ => .ret h₁
  have h' : Low k { n₁ with commit := index } := ⟨h₁.log, h₁.last, hi⟩
  refine .seq_update rfl ((h'.applyCommittedConfigurations _ hi).seq fun _ n h => .seq_get ?_)
  exact .ite Iff.rfl (fun _ => h.broadcastAppend.seq fun _ _ h => .ret h) fun _ => .ret h

theorem Low.advanceCommit (h : Low k n) :
    Twin advanceCommit Raft.advanceCommit n fun _ => Low k := by
  unfold Wrap.advanceCommit Raft.advanceCommit
  refine .seq_get ?_
  rw [h.lastIndex_eq]
  refine .seq_check (h.commitTarget_eq (Nat.le_refl _)) fun target ht => ?_
  cases target with
  | none => exact .ret h
  | some index =>
    obtain ⟨_, ht, _⟩ := Node.commitTarget_some ht
    unfold Node.termAtMust at ht
    split at ht
    · have hi := (Node.termAt_range ‹_›).2
      exact h.commitIndex (by have := h.last; omega)
    · cases ht

theorem Low.onAppendResponse (h : Low k n) (m : Message) :
    Twin (onAppendResponse m) (Raft.onAppendResponse m) n fun _ => Low k := by
  unfold Wrap.onAppendResponse Raft.onAppendResponse
  refine (h.recordReadAck m).seq fun _ n h => .seq_get ?_
  rw [h.wrap_last]
  refine .ite Iff.rfl (fun _ => .ret h) fun hm => .ite Iff.rfl (fun _ => ?_) fun _ => ?_
  · have h' : Low k (stepBack m n) := by
      unfold stepBack
      split
      · exact h.of_same rfl rfl rfl
      · exact h
    exact .seq_update rfl (h'.appendTo m.src)
  · have hw : wrap (m.matchIndex + 1) = m.matchIndex + 1 :=
      wrap_of_lt (by have := h.last; omega)
    have h' : Low k ((n.setMatch m.src m.matchIndex).setNext m.src (m.matchIndex + 1)) :=
      h.of_same rfl rfl rfl
    refine .seq_update (by rw [acknowledge, hw]) (h'.advanceCommit.seq fun ok n h => .seq_get ?_)
    rw [h.wrap_last]
    exact .ite Iff.rfl (fun _ => h.appendTo m.src) fun _ => .ret h

/-! ## Snapshots -/

theorem Low.saveSnapshot (h : Low k n) (snapshot : Snapshot) :
    Twin (saveSnapshot snapshot) (saveSnapshot snapshot) n fun _ => Low k := by
  unfold Raft.saveSnapshot
  refine .ite Iff.rfl (fun _ => (h.callStoreOrFail _).seq fun ok n h => ?_) fun _ => ?_
  · exact .ite Iff.rfl (fun _ => h.callStoreOrFail _) fun _ => .ret h
  · exact .seq_update rfl (.ret (h.of_same rfl rfl rfl))

theorem Low.compact (h : Low k n) (index : Nat) (state : List UInt8) :
    Twin (compact index state) (Raft.compact index state) n fun _ _ => True := by
  unfold Wrap.compact Raft.compact
  refine .seq_get (.ite Iff.rfl (fun _ => .refl _ _) fun _ => ?_)
  rw [h.termAt_eq]
  exact .refl _ _

omit [StableStore σ] in
theorem Low.install_eq (h : Low k n) (snapshot : Snapshot) :
    install snapshot n = n.install snapshot := by
  rw [install, Node.install, logAbove, Node.logAbove, h.termAt_eq]

theorem Low.onInstallSnapshot (h : Low k n) (m : Message) :
    Twin (onInstallSnapshot m) (Raft.onInstallSnapshot m) n fun _ _ => True := by
  unfold Wrap.onInstallSnapshot Raft.onInstallSnapshot
  refine .seq_get (.ite Iff.rfl (fun _ => .refl _ _) fun _ => .ite Iff.rfl (fun _ => ?_) fun _ => .refl _ _)
  refine (h.saveSnapshot _).seq fun ok n h => .ite Iff.rfl (fun _ => ?_) fun _ => .refl _ _
  exact .seq_update (h.install_eq _) (.refl _ _)

omit [StableStore σ] in
theorem Low.onInstallSnapshotResponse (h : Low k n) {m : Message} (hm : m.matchIndex + 1 < 2 ^ 64) :
    Twin (onInstallSnapshotResponse m) (Raft.onInstallSnapshotResponse m) n fun _ => Low k := by
  unfold Wrap.onInstallSnapshotResponse Raft.onInstallSnapshotResponse
  refine .seq_get (.ite Iff.rfl (fun _ => .ret h) fun _ => ?_)
  refine .seq_check (by rw [h.isVoter_eq]) fun voter _ => ?_
  refine .ite Iff.rfl (fun _ => .seq_update ?_ (.seq_get ?_)) fun _ => .ret h
  · rw [acknowledgeSnapshot, acknowledge, wrap_of_lt hm]
  · have h' : Low k (if m.matchIndex > n.matchIdx m.src then
        (n.setMatch m.src m.matchIndex).setNext m.src (m.matchIndex + 1) else n) := by
      split
      · exact h.of_same rfl rfl rfl
      · exact h
    rw [h'.lastIndex_eq]
    exact .ite Iff.rfl (fun _ => h'.appendTo m.src) fun _ => .ret h'

/-! ## Messages -/

theorem Low.handle (h : Low 1 n) (ht : n.term + 1 < 2 ^ 64) {m : Message}
    (hm : m.matchIndex + 1 < 2 ^ 64) :
    Twin (handle m) (Raft.handle m) n fun _ _ => True := by
  have any {x y : NodeM σ Unit} {Q} (hxy : Twin x y n Q) : Twin x y n fun _ _ => True :=
    hxy.mono fun _ _ _ => trivial
  unfold Wrap.handle Raft.handle
  cases m.type with
  | preVote => exact any (h.onPreVote ht m)
  | preVoteResponse => exact any (h.onPreVoteResponse ht m)
  | requestVote => exact any (h.onVote m)
  | requestVoteResponse => exact any (h.onVoteResponse m)
  | append => exact any (h.onAppend m)
  | appendResponse => exact any (h.onAppendResponse m)
  | installSnapshot => exact h.onInstallSnapshot m
  | installSnapshotResponse => exact any (h.onInstallSnapshotResponse hm)
  | timeoutNow => exact any (h.onTimeoutNow ht m)
  | other code unnamed => exact .refl _ _

theorem Low.step (h : Low 1 n) (ht : n.term + 1 < 2 ^ 64) {m : Message}
    (hm : m.term + 1 < 2 ^ 64) (hmatch : m.matchIndex + 1 < 2 ^ 64) :
    Twin (step m) (Raft.step m) n fun _ _ => True := by
  unfold Wrap.step Raft.step newer
  refine .seq_get (.ite Iff.rfl (fun _ => .refl _ _) fun _ => .ite ?_ (fun _ => ?_) fun _ => ?_)
  · simp only [Bool.and_eq_true, Bool.not_eq_true', decide_eq_true_eq]
  · refine (h.persistHardState _).seq fun ok n h => .ite Iff.rfl (fun _ => ?_) fun _ => .refl _ _
    have h' : Low 1 (enterTerm m n) := h.of_same rfl rfl rfl
    exact .seq_update rfl (h'.handle hm hmatch)
  · exact h.handle ht hmatch

/-! ## Reading and applying -/

omit [StableStore σ] in
theorem Low.startReadIndex (h : Low k n) (context : UInt64) :
    Twin (startReadIndex context) (Raft.startReadIndex context) n fun _ => Low k := by
  unfold Wrap.startReadIndex Raft.startReadIndex
  refine .seq_get (.ite Iff.rfl (fun _ => .ret h) fun _ => ?_)
  refine .seq_check (by rw [h.termAtMust_eq]) fun term _ => .seq_check rfl fun bit _ => ?_
  refine .seq_check (by rw [h.quorumMask_eq]) fun ready _ => ?_
  refine .ite Iff.rfl (fun _ => .ret h) fun _ => .seq_update rfl ?_
  have h' : Low k { n with
      readContext := context, readAckMask := bit, readReady := ready
      readIndex := if ready then n.commit else n.readIndex } := h.of_same rfl rfl rfl
  exact (Twin.each h' fun p _ n h => h.appendToContext p context).seq fun _ _ h => .ret h

omit [StableStore σ] in
theorem Low.applyEntriesLoop (h : Low k n) (rest : Nat) (dst : List Entry) :
    Twin (applyEntriesLoop rest dst) (Raft.applyEntriesLoop rest dst) n fun _ => Low k := by
  induction rest generalizing n dst with
  | zero => exact .ret h
  | succ rest ih =>
    have h' : Low k { n with applied := n.applied + 1 } := h.of_same rfl rfl rfl
    exact .seq_update rfl (.seq_get (.seq_check (by rw [h'.entryAt_eq]) fun e _ => ih h' _))

/-- The numbers of a message that the node adds to. -/
def received : Op → List Nat
  | .step m => [m.term, m.matchIndex]
  | _ => []

/-- The numbers that the method `op` adds to are below the largest `uint64`. -/
structure InRange (n : Node σ) (op : Op) : Prop where
  /-- The method may append one entry. -/
  last : n.lastIndex + 2 < 2 ^ 64
  commit : n.commit + 1 < 2 ^ 64
  term : n.term + 1 < 2 ^ 64
  elapsed : n.elapsed + 1 < 2 ^ 64
  message : ∀ x ∈ received op, x + 1 < 2 ^ 64

instance (n : Node σ) (op : Op) : Decidable (InRange n op) :=
  decidable_of_iff (n.lastIndex + 2 < 2 ^ 64 ∧ n.commit + 1 < 2 ^ 64 ∧ n.term + 1 < 2 ^ 64 ∧
      n.elapsed + 1 < 2 ^ 64 ∧ ∀ x ∈ received op, x + 1 < 2 ^ 64)
    ⟨fun ⟨hl, hc, ht, he, hm⟩ => ⟨hl, hc, ht, he, hm⟩,
      fun h => ⟨h.last, h.commit, h.term, h.elapsed, h.message⟩⟩

/-- In range, the node with 64-bit numbers is the one with natural numbers. -/
theorem run_eq {op : Op} (hlog : n.log ≠ []) (hr : InRange n op) :
    (run op : NodeM σ Unit) n = op.run n := by
  have h : Low 1 n := ⟨hlog, hr.last, hr.commit⟩
  have drop {α} {x y : NodeM σ α} {Q} (hxy : Twin x y n Q) :
      (do let _ ← x; pure () : NodeM σ Unit) n = (do let _ ← y; pure () : NodeM σ Unit) n :=
    (hxy.seq (R := fun _ _ => True) fun _ _ _ => .refl _ _).1
  cases op with
  | tick => exact (h.tick hr.term hr.elapsed).1
  | step m =>
    have hterm := hr.message m.term List.mem_cons_self
    have hmatch := hr.message m.matchIndex (List.mem_cons_of_mem _ List.mem_cons_self)
    exact (h.step hr.term hterm hmatch).1
  | propose command => exact drop (h.propose command)
  | proposeRequest operation clientID requestID key value =>
    exact drop (h.proposeRequest operation clientID requestID key value)
  | proposeJoint newVoters => exact drop (h.proposeJoint newVoters)
  | proposeFinal => exact drop h.proposeFinal
  | transferLeadership target => exact drop (h.transferLeadership target)
  | startReadIndex context => exact drop (h.startReadIndex context)
  | applyEntries => exact drop (h.applyEntriesLoop (n.commit - n.applied) [])
  | compact index state => exact drop (h.compact index state)

end Promtact.Raft.Wrap
