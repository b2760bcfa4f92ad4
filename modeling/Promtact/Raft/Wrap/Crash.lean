import Promtact.Raft.Wrap.Good

/-!
# When a message panics a node

`Crashes m n` is the condition under which `Step` panics on the message `m` in the state `n`,
handler by handler (`step_exact`). `Reached` are the states that calls of the methods lead to from
`NewNode`; they are `Good` (`Reached.good`), whatever the messages were.
-/

namespace Promtact.Raft.Wrap

open Refine

/-- The sender of the message cannot be looked up. -/
def SenderFails (m : Message) (n : Node MemoryStore) : Prop := Exhausted n ∨ ¬ Valid m.src

instance (m : Message) (n : Node MemoryStore) : Decidable (SenderFails m n) :=
  inferInstanceAs (Decidable (_ ∨ _))

/-- A request for a vote or a pre-vote panics. -/
def VoteFails (m : Message) (n : Node MemoryStore) : Prop := Wrapped n ∨ SenderFails m n ∨ ¬ Room 1 n

instance (m : Message) (n : Node MemoryStore) : Decidable (VoteFails m n) :=
  inferInstanceAs (Decidable (_ ∨ _))

/-- The answer to a pre-vote panics. -/
def PreVoteResponseFails (m : Message) (n : Node MemoryStore) : Prop :=
  n.state ≠ .leader ∧
    (SenderFails m n ∨
      (votes n m.src ∧ m.term = wrap (n.term + 1) ∧ m.term = n.preVoteTerm ∧ m.reject = false) ∧
        wins n (n.preVoteMask ||| bit m.src) ∧
        ElectionFails { n with preVoteMask := n.preVoteMask ||| bit m.src })

instance (m : Message) (n : Node MemoryStore) : Decidable (PreVoteResponseFails m n) :=
  inferInstanceAs (Decidable (_ ∧ _))

/-- A vote panics. -/
def VoteResponseFails (m : Message) (n : Node MemoryStore) : Prop :=
  n.state = .candidate ∧
    (SenderFails m n ∨
      (votes n m.src ∧ m.term = n.term ∧ m.reject = false) ∧
        wins n (n.voteMask ||| bit m.src) ∧
        LeadFails { n with voteMask := n.voteMask ||| bit m.src })

instance (m : Message) (n : Node MemoryStore) : Decidable (VoteResponseFails m n) :=
  inferInstanceAs (Decidable (_ ∧ _))

/-- The follower when it has stored the entry of the message. -/
def stored (m : Message) (n : Node MemoryStore) : Node MemoryStore :=
  finalState (storeEntry m (follow m n))

/-- The leader's entries panic: the configurations that they commit cannot take effect, or there is
no room for the answer. -/
def AppendFails (m : Message) (n : Node MemoryStore) : Prop :=
  rejectsAppend n m = false ∧ raisesCommit m (stored m n) ∧
      SettleFails (stored m n) (wrap ((stored m n).commit + 1)) (min m.commit (matched m)) ∨
    ¬ Room 1 n

instance (m : Message) (n : Node MemoryStore) : Decidable (AppendFails m n) :=
  inferInstanceAs (Decidable (_ ∨ _))

/-- The index that a leader commits, if there is one. -/
def target (n : Node MemoryStore) : Option Nat :=
  (commitTarget n (lastIndex n - n.commit)).toOption.join

/-- The leader when it has committed that index. -/
def advanced (n : Node MemoryStore) : Node MemoryStore :=
  match target n with
  | some index => finalState (settleCommit n.commit index (saved (n.hardState index) n))
  | none => n

/-- The appends with which a leader announces a new commit index. -/
def announcements (n : Node MemoryStore) : Nat :=
  if (target n).isSome ∧ (advanced n).state = .leader then
    (advanced n).peers.countP (votes (advanced n))
  else 0

/-- The append that the leader answers `src` with, which does not have all of the log. -/
def continuations (src : Nat) (n : Node MemoryStore) : Nat :=
  if (advanced n).state = .leader ∧ (advanced n).next src < wrap (lastIndex n + 1) then 1 else 0

/-- A leader that takes the answer to an append into account panics. -/
def AnswerFails (m : Message) (n : Node MemoryStore) : Prop :=
  (n.state = .leader ∧ m.term = n.term ∧ m.matchIndex < wrap (lastIndex n + 1)) ∧
    if m.reject then ¬ Room 1 n ∨ Wrapped n ∧ n.baseIndex < (stepBack m n).next m.src
    else Wrapped n ∧ n.commit < lastIndex n ∨
      ¬ Room (announcements (acknowledge m n) + continuations m.src (acknowledge m n)) n

instance (m : Message) (n : Node MemoryStore) : Decidable (AnswerFails m n) :=
  inferInstanceAs (Decidable (_ ∧ _))

/-- The answer to an append panics: it confirms a read and its sender cannot be looked up, or the
leader panics then. -/
def AppendResponseFails (m : Message) (n : Node MemoryStore) : Prop :=
  confirmsRead m n ∧ SenderFails m n ∨ AnswerFails m (finalState (recordReadAck m n))

instance (m : Message) (n : Node MemoryStore) : Decidable (AppendResponseFails m n) :=
  inferInstanceAs (Decidable (_ ∨ _))

/-- The answer to a snapshot panics. -/
def SnapshotResponseFails (m : Message) (n : Node MemoryStore) : Prop :=
  (n.state = .leader ∧ m.term = n.term ∧ m.reject = false) ∧
    (SenderFails m n ∨
      votes n m.src ∧ (acknowledgeSnapshot m n).next m.src ≤ lastIndex n ∧ ¬ Room 1 n)

instance (m : Message) (n : Node MemoryStore) : Decidable (SnapshotResponseFails m n) :=
  inferInstanceAs (Decidable (_ ∧ _))

/-- A leader that hands over panics. -/
def TimeoutNowFails (m : Message) (n : Node MemoryStore) : Prop :=
  (n.state = .follower ∧ m.term = n.term ∧ m.src = n.leader) ∧ ElectionFails n

instance (m : Message) (n : Node MemoryStore) : Decidable (TimeoutNowFails m n) :=
  inferInstanceAs (Decidable (_ ∧ _))

namespace Good

variable {k : Nat} {n n' : Node MemoryStore} {m : Message}

theorem send_good (h : Good k n) (m : Message) : FailsIff (¬ Room 1 n) (send m) n fun _ => Good k :=
  (h.send_exact m).mono fun hr _ _ hn => hn ▸ (Sent.enqueue n m).good h (not_not.mp hr)

/-- A sender that is looked up. -/
theorem sender_checks (h : Good k n) (m : Message) : Checks (SenderFails m n) (isVoter n m.src) :=
  h.isVoter_checks m.src

theorem upToDate_checks (h : Good k n) (m : Message) : Checks (Wrapped n) (upToDate n m) :=
  h.lastTerm_checks.map _

theorem votes_of_ok {id : Nat} {b : Bool} (h : isVoter n id = .ok b) : votes n id = b := by
  rw [votes, h]
  rfl

/-- What is known once the sender was looked up. -/
theorem sender_ok (h : Good k n) {b : Bool} (hv : isVoter n m.src = .ok b) :
    ¬ Exhausted n ∧ nodeBit m.src = .ok (bit m.src) ∧ votes n m.src = b := by
  obtain ⟨hex, hsrc⟩ := not_or.mp ((h.sender_checks m).not_of_ok hv)
  exact ⟨hex, nodeBit_of_valid (not_not.mp hsrc).1 (not_not.mp hsrc).2, votes_of_ok hv⟩

/-! ## Elections -/

theorem onPreVote_exact (h : Good k n) (m : Message) :
    FailsIff (VoteFails m n) (onPreVote m) n fun _ => Good k :=
  .seq_get (.seq_check (h.upToDate_checks m) fun _ _ =>
    .seq_check (h.sender_checks m) fun _ _ => h.send_good _)

theorem onVote_exact (h : Good k n) (m : Message) :
    FailsIff (VoteFails m n) (onVote m) n fun _ => Good k := by
  refine .seq_get (.seq_check (h.upToDate_checks m) fun _ _ => .seq_check (h.sender_checks m) fun _ _ => ?_)
  split
  · refine .seq_ok (persistHardState_exact _) ?_
    rintro ok n₁ ⟨rfl, rfl⟩
    have h₁ : Good k { saved { term := n.term, votedFor := m.src, commit := n.commit } n with
      votedFor := m.src, elapsed := 0 } := { h with store := h.store }
    exact .seq_update (h₁.send_good _)
  · exact h.send_good _

theorem onPreVoteResponse_exact (h : Good (k + 1) n) (m : Message) :
    FailsIff (PreVoteResponseFails m n) (onPreVoteResponse m) n fun _ => Good k := by
  unfold onPreVoteResponse
  refine .seq_get (.ite_right (fun _ => .ret h.weaken) fun _ => .seq_check (h.sender_checks m) ?_)
  intro voter hv
  obtain ⟨hex, hbit, rfl⟩ := h.sender_ok hv
  refine .ite_left (fun _ => ?_) fun _ => .ret h.weaken
  have h₁ : Good (k + 1) { n with preVoteMask := n.preVoteMask ||| bit m.src } := { h with }
  refine .seq_pass hbit (.seq_update (.seq_get (.seq_pass (h₁.quorumMask_eq hex _) ?_)))
  exact .ite_left (fun _ => h₁.startElection_exact) fun _ => .ret h₁.weaken

theorem onVoteResponse_exact (h : Good (k + 1) n) (m : Message) :
    FailsIff (VoteResponseFails m n) (onVoteResponse m) n fun _ => Good k := by
  unfold onVoteResponse
  refine .seq_get (.congr (.ite_right (fun _ => .ret h.weaken) fun _ => .seq_check (h.sender_checks m) ?_)
    (and_congr_left' not_not))
  intro voter hv
  obtain ⟨hex, hbit, rfl⟩ := h.sender_ok hv
  refine .ite_left (fun _ => ?_) fun _ => .ret h.weaken
  have h₁ : Good (k + 1) { n with voteMask := n.voteMask ||| bit m.src } := { h with }
  refine .seq_pass hbit (.seq_update (.seq_get (.seq_pass (h₁.quorumMask_eq hex _) ?_)))
  exact .ite_left (fun _ => h₁.becomeLeader_exact) fun _ => .ret h₁.weaken

theorem onTimeoutNow_exact (h : Good (k + 1) n) (m : Message) :
    FailsIff (TimeoutNowFails m n) (onTimeoutNow m) n fun _ => Good k :=
  .seq_get (.ite_left (fun _ => h.startElection_exact) fun _ => .ret h.weaken)

/-! ## Snapshots -/

/-- A snapshot above the last one is not refused. -/
theorem saveSnapshot_exact {snapshot : Snapshot} (hb : n.store.base ≤ snapshot.lastIndex) :
    FailsIff False (saveSnapshot snapshot) n fun ok n' => ok = true ∧
      n' = { n with store := { n.store with snapshot, base := snapshot.lastIndex } } := by
  have hcompact : (StableStore.compactLog snapshot.lastIndex : EStateM StorageError MemoryStore Unit)
      { n.store with snapshot } = .ok () { n.store with snapshot, base := snapshot.lastIndex } := by
    show (if snapshot.lastIndex < n.store.base then _ else _ : EStateM StorageError MemoryStore Unit) _ = _
    rw [if_neg (Nat.not_lt.mpr hb)]
    rfl
  have hsave : FailsIff False (callStoreOrFail (StableStore.saveSnapshot snapshot)) n
      fun ok n' => ok = true ∧ n' = { n with store := { n.store with snapshot } } := ⟨not_false, rfl, rfl⟩
  unfold saveSnapshot
  refine FailsIff.seq_ok hsave ?_
  rintro ok n₁ ⟨rfl, rfl⟩
  show FailsIff False (callStoreOrFail _) _ _
  unfold FailsIff callStoreOrFail callStore
  simp only [Bind.bind, EStateM.bind, hcompact]
  exact ⟨not_false, rfl, rfl⟩

/-- The log above a snapshot. -/
theorem logAbove_length (h : Good k n) (snapshot : Snapshot) :
    0 < (logAbove n snapshot).length ∧ (logAbove n snapshot).length ≤ n.log.length := by
  have hpos := List.length_pos_of_ne_nil h.log
  unfold logAbove
  split
  · rename_i ht
    have hrange := h.range_of_termAt ht
    have hlast := h.last
    rw [List.length_drop]
    unfold Wrapped at hlast
    omega
  · exact ⟨Nat.one_pos, hpos⟩

theorem install (h : Good k n) {snapshot : Snapshot} (hm : snapshot.lastIndex < 2 ^ 64) :
    Good k (install snapshot
      { n with store := { n.store with snapshot, base := snapshot.lastIndex } }) := by
  obtain ⟨hpos, hlen⟩ := h.logAbove_length snapshot
  have hcommit := h.commit
  refine { h with
    log := List.ne_nil_of_length_pos hpos
    length := Nat.lt_of_le_of_lt (Nat.add_le_add_right hlen k) h.length
    base := hm
    commit := Nat.max_lt.mpr ⟨hcommit, hm⟩
    base_le := fun _ => Nat.le_max_right ..
    last_base := fun hmax => ?_
    store := Nat.le_refl _ }
  have hmax' : snapshot.lastIndex = maxUint64 := hmax
  show max n.commit snapshot.lastIndex = maxUint64
  unfold maxUint64 at *
  omega

theorem acceptSnapshot_exact (h : Good k n) (m : Message) :
    FailsIff (¬ Room 1 n) (acceptSnapshot m) n fun _ => Good k := by
  have h₁ : Good k { n with state := .follower, leader := m.src, elapsed := 0 } := { h with }
  exact .seq_update (.seq_get (h₁.send_good _))

theorem onInstallSnapshot_exact (h : Good k n) {m : Message} (hm : m.snapshotIndex < 2 ^ 64) :
    FailsIff (¬ Room 1 n) (onInstallSnapshot m) n fun _ => Good k := by
  unfold onInstallSnapshot
  refine .seq_get ?_
  split
  · exact h.send_good _
  split
  · rename_i hb
    have hs : n.store.base ≤ m.toSnapshot.lastIndex := Nat.le_trans h.store (Nat.le_of_lt hb)
    refine .seq_ok (saveSnapshot_exact hs) ?_
    rintro ok n₁ ⟨rfl, rfl⟩
    exact .seq_update ((h.install hm).acceptSnapshot_exact m)
  · exact h.acceptSnapshot_exact m

theorem onInstallSnapshotResponse_exact (h : Good k n) (m : Message) :
    FailsIff (SnapshotResponseFails m n) (onInstallSnapshotResponse m) n fun _ => Good k := by
  unfold onInstallSnapshotResponse
  refine .seq_get (.congr (.ite_right (fun _ => .ret h) fun _ => .seq_check (h.sender_checks m) ?_)
    (and_congr_left' (by simp)))
  intro voter hv
  obtain ⟨hex, -, rfl⟩ := h.sender_ok hv
  refine .ite_left (fun _ => .seq_update (.seq_get ?_)) fun _ => .ret h
  have hsame : acknowledgeSnapshot m n = { n with
      next := (acknowledgeSnapshot m n).next, matchIdx := (acknowledgeSnapshot m n).matchIdx } := by
    unfold acknowledgeSnapshot
    split <;> rfl
  generalize acknowledgeSnapshot m n = n₁ at hsame
  have h₁ : Good k n₁ := by
    rw [hsame]
    exact { h with }
  have hlast : lastIndex n₁ = lastIndex n := by rw [hsame]; rfl
  have hl : lastIndex n₁ ≠ maxUint64 := fun hmax => hex (.inr (hlast ▸ hmax))
  refine (FailsIff.ite_left (fun hle => (h₁.appendToContext_exact hl m.src 0).mono fun hok _ n₂ hs => ?_)
    fun _ => .ret h₁).congr ?_
  · exact hs.good h₁ (not_not.mp fun hr => hok (.inl hr))
  · rw [hlast]
    refine and_congr_right fun hle => ?_
    have hno : ¬ (Wrapped n₁ ∧ n₁.baseIndex < n₁.next m.src) := by
      rintro ⟨hw, hb⟩
      unfold Wrapped at hw
      omega
    rw [or_iff_left hno, hsame]
    rfl

/-! ## Entries -/

/-- The index that the leader's append follows is in the log, so the log has not wrapped around. -/
theorem place (h : Good k n) {m : Message} (hr : rejectsAppend n m = false) :
    n.baseIndex ≤ m.logIndex ∧ m.logIndex ≤ lastIndex n := by
  simp only [rejectsAppend, Bool.or_eq_false_iff, bne_eq_false_iff_eq] at hr
  exact h.range_of_termAt hr.1.2

/-- The index of the leader's entry. It is `0` if the last index is the largest. -/
theorem at_place (h : Good k n) {m : Message} (hb : n.baseIndex ≤ m.logIndex)
    (hl : m.logIndex ≤ lastIndex n) :
    n.baseIndex < wrap (m.logIndex + 1) ∨
      wrap (m.logIndex + 1) = 0 ∧ 0 < n.baseIndex ∧ m.logIndex = lastIndex n := by
  have hlast := h.last
  have hlt := last_lt n
  have hlen := h.length
  unfold Wrapped at hlast
  unfold wrap
  omega

/-- A conflicting entry is cut off, and the log ends before it. -/
theorem truncateConflict_exact (h : Good k n) {index : Nat}
    (hi : n.baseIndex < index ∨ index = 0 ∧ 0 < n.baseIndex) (e : Entry) :
    FailsIff False (truncateConflict index e) n fun _ n' => Good k n' ∧ n'.commit = n.commit ∧
      n'.baseIndex = n.baseIndex ∧ n'.outbound = n.outbound ∧ (index = 0 → n'.log = n.log) := by
  unfold truncateConflict
  refine .seq_get ?_
  split
  · rename_i hany
    obtain ⟨t, ht, -⟩ := (Option.any_eq_true _ _).mp hany
    have hrange := h.range_of_termAt ht
    have hlast := h.last
    have hlen := h.length
    have hpos := List.length_pos_of_ne_nil h.log
    have hlt := last_lt n
    have hlog : (n.log.take (index - n.baseIndex)).length = index - n.baseIndex := by
      rw [List.length_take]
      unfold Wrapped at hlast
      omega
    have h₁ : Good k { n with log := n.log.take (index - n.baseIndex) } := { h with
      log := List.ne_nil_of_length_pos (show 0 < (n.log.take (index - n.baseIndex)).length by omega)
      length := by
        show (n.log.take (index - n.baseIndex)).length + k < 2 ^ 64
        unfold Wrapped at hlast
        omega
      base_le := fun _ => h.base_le (by unfold Wrapped; omega) }
    have hex : ¬ Exhausted { n with log := n.log.take (index - n.baseIndex) } := by
      show ¬ (n.baseIndex = maxUint64 ∨
        wrap (maxUint64 + (n.baseIndex + (n.log.take (index - n.baseIndex)).length)) = maxUint64)
      rw [hlog]
      unfold wrap maxUint64
      omega
    refine .seq_update ((h₁.rebuildPendingConfig_exact.congr (iff_false_intro hex)).mono ?_)
    intro _ _ n₂ hc
    exact ⟨hc.good h₁, hc.commit, hc.baseIndex, hc.outbound, fun h0 => by omega⟩
  · exact .ret ⟨h, rfl, rfl, rfl, fun _ => rfl⟩

/-- The leader's entry is stored. -/
theorem appendEntry_exact (h : Good (k + 1) n) (index : Nat) (e : Entry) :
    FailsIff False (appendEntry index e) n fun ok n' => ok = true ∧ Good k n' ∧ n'.commit = n.commit ∧
      n'.baseIndex = n.baseIndex ∧ n'.outbound = n.outbound ∧ n'.log = n.log ++ [e] := by
  unfold appendEntry
  refine .seq_ok (h.storeAppend_exact index e) ?_
  rintro ok n₁ ⟨rfl, rfl, h₁⟩
  have h₂ := h₁.extend e
  refine .seq_update (.seq_update (.ret ?_))
  split
  · have hp : Configured (Wrap.extend { n with store := { n.store with log := n.store.log ++ [e] } } e)
        { n with
          store := { n.store with log := n.store.log ++ [e] }, log := n.log ++ [e]
          pendingConfig := index } := ⟨rfl, fun _ => .inl, fun _ => .inl rfl⟩
    have hc := hp.trans (.ensurePeers _ (e.oldVoters ||| e.newVoters))
    exact ⟨rfl, hc.good h₂, hc.commit, hc.baseIndex, hc.outbound, hc.log⟩
  · exact ⟨rfl, h₂, rfl, rfl, rfl, rfl⟩

/-- The entry of an append that was accepted is stored. If its index has wrapped around, so has the
log. -/
theorem storeEntry_exact (h : Good (k + 1) n) {m : Message} (hb : n.baseIndex ≤ m.logIndex)
    (hl : m.logIndex ≤ lastIndex n) :
    FailsIff False (storeEntry m) n fun ok n' => ok = true ∧ Good k n' ∧ n'.outbound = n.outbound ∧
      (¬ Wrapped n' → n'.baseIndex ≤ matched m) := by
  unfold storeEntry matched
  split
  · have hi := h.at_place hb hl
    refine FailsIff.seq_ok (h.truncateConflict_exact (hi.imp_right fun hi => ⟨hi.1, hi.2.1⟩) m.entry) ?_
    rintro _ n₁ ⟨h₁, hc₁, hb₁, ho₁, hlog₁⟩
    refine .seq_get ?_
    split
    · rename_i hindex
      refine (h₁.appendEntry_exact _ _).mono ?_
      rintro _ ok n₂ ⟨rfl, h₂, hc₂, hb₂, ho₂, hlog₂⟩
      refine ⟨rfl, h₂, ho₂.trans ho₁, fun hw => ?_⟩
      rcases hi with hi | ⟨h0, -, hend⟩
      · rw [hb₂, hb₁]
        exact Nat.le_of_lt hi
      · refine absurd ?_ hw
        have hlast := h.last
        have hlt := last_lt n
        have hlength := h.length
        have hlen : n₂.log.length = n.log.length + 1 := by
          rw [hlog₂, hlog₁ h0, List.length_append, List.length_singleton]
        rw [Wrapped, lastIndex, hlen, hb₂, hb₁]
        unfold Wrapped at hlast
        unfold wrap maxUint64 at *
        omega
    · rename_i hindex
      refine .ret ⟨rfl, h₁.weaken, ho₁, fun hw => ?_⟩
      rcases hi with hi | ⟨h0, -, hend⟩
      · rw [hb₁]
        exact Nat.le_of_lt hi
      · rw [lastIndex_congr (hlog₁ h0) hb₁, ← hend] at hindex
        exact absurd rfl hindex
  · exact .ret ⟨rfl, h.weaken, rfl, fun _ => hb⟩

/-- The commit index follows the leader's. -/
theorem followCommit_exact (h : Good k n) {m : Message} (hc : m.commit < 2 ^ 64)
    (hb : ¬ Wrapped n → n.baseIndex ≤ matched m) :
    FailsIff (raisesCommit m n ∧ SettleFails n (wrap (n.commit + 1)) (min m.commit (matched m)))
      (followCommit m) n fun ok n' => ok = true ∧ Good k n' ∧ n'.outbound = n.outbound := by
  unfold followCommit
  refine .seq_get (.ite_left (fun hr => ?_) fun _ => .ret ⟨rfl, h, rfl⟩)
  refine .seq_ok (persistHardState_exact _) ?_
  rintro ok n₁ ⟨rfl, rfl⟩
  have hgt : n.commit < m.commit := by
    simp only [raisesCommit, Bool.and_eq_true, decide_eq_true_eq] at hr
    exact hr.1
  have hmax := h.last_base
  have hle : min m.commit (matched m) ≤ m.commit := Nat.min_le_left ..
  have hb' : ¬ Wrapped n → n.baseIndex ≤ min m.commit (matched m) := by
    intro hw
    have := h.base_le hw
    have := hb hw
    omega
  generalize min m.commit (matched m) = index at hle hb'
  have h₁ : Good k { saved (n.hardState index) n with commit := index } :=
    { h with
      commit := Nat.lt_of_le_of_lt hle hc
      base_le := hb'
      last_base := fun hbase => by
        have := hmax hbase
        unfold maxUint64 at *
        omega
      store := h.store }
  refine .seq_update (FailsIff.seq_then (h₁.applyCommittedConfigurations_exact _ _)
    fun _ _ n₂ hc₂ => .ret ?_)
  exact ⟨rfl, hc₂.good h₁, hc₂.outbound⟩

theorem onAppend_exact (h : Good (k + 1) n) {m : Message} (hc : m.commit < 2 ^ 64) :
    FailsIff (AppendFails m n) (onAppend m) n fun _ => Good k := by
  unfold onAppend AppendFails
  refine .seq_get ?_
  cases hr : rejectsAppend n m with
  | true =>
    refine (h.weaken.send_good _).congr ?_
    simp
  | false =>
    obtain ⟨hb, hl⟩ := h.place hr
    have h₁ : Good (k + 1) (follow m n) := { h with }
    refine FailsIff.congr (.seq_update (.seq_ok (h₁.storeEntry_exact hb hl).final ?_))
      (P := raisesCommit m (stored m n) ∧
        SettleFails (stored m n) (wrap ((stored m n).commit + 1)) (min m.commit (matched m)) ∨ ¬ Room 1 n)
      ?_
    · rintro ok n₂ ⟨⟨rfl, h₂, ho₂, hb₂⟩, hn₂⟩
      rw [show stored m n = n₂ from hn₂.symm]
      refine FailsIff.seq (h₂.followCommit_exact hc hb₂) ?_
      rintro _ ok n₃ ⟨rfl, h₃, ho₃⟩
      refine .seq_get ((h₃.send_good _).congr ?_)
      rw [Room, Room, ho₃, ho₂]
      rfl
    · simp

/-! ## Answers -/

/-- The acknowledgement of a read. -/
theorem recordReadAck_exact (h : Good k n) (m : Message) :
    FailsIff (confirmsRead m n ∧ SenderFails m n) (recordReadAck m) n fun _ => Good k := by
  unfold recordReadAck
  refine .seq_get (.ite_left (fun _ => .seq_check_then (h.sender_checks m) ?_) fun _ => .ret h)
  intro voter hv
  obtain ⟨hex, hbit, rfl⟩ := h.sender_ok hv
  split
  · have h₁ : Good k { n with readAckMask := n.readAckMask ||| bit m.src } := { h with }
    refine .seq_pass hbit (.seq_update (.seq_get (.seq_pass (h₁.quorumMask_eq hex _) ?_)))
    split
    · exact .update { h₁ with }
    · exact .ret h₁
  · exact .ret h

theorem ackedMask_checks (h : Good k n) (index : Nat) : Checks False (n.ackedMask index) := by
  unfold Node.ackedMask
  rw [nodeBit_of_valid h.id.1 h.id.2]
  have hloop : Checks (∃ p ∈ n.peers, n.matchIdx p ≥ index ∧ ¬ Valid p)
      (n.peers.foldlM (n.addAck index) (bit n.id)) := by
    refine Checks.foldlM (fun acked p => ?_) _
    unfold Node.addAck
    split
    · rename_i hge
      exact ((nodeBit_checks p).map _).congr (and_iff_right hge).symm
    · rename_i hlt
      exact fun hp => hlt hp.1
  exact hloop.congr (iff_false_intro fun ⟨p, hp, _, hv⟩ => hv (h.peers p hp))

theorem canCommitIndex_checks (h : Good k n) (hl : lastIndex n ≠ maxUint64) (hw : ¬ Wrapped n)
    {index : Nat} (hlt : n.commit < index) (hle : index ≤ lastIndex n) (acked : Mask) :
    Checks False (canCommitIndex n index acked) := by
  refine ((jointVoters_checks n _ _).map _).congr (iff_false_intro ?_)
  rintro ⟨j, hj, hnone⟩
  rw [h.entryAt?_eq_none] at hnone
  rw [mem_indexes] at hj
  have hb := h.base_le hw
  have hc := h.commit
  have hlast := last_lt n
  unfold wrap maxUint64 at *
  omega

/-- The walk down from the last index. -/
theorem commitTarget_checks (h : Good k n) (hl : lastIndex n ≠ maxUint64) {above : Nat}
    (ha : above ≤ lastIndex n - n.commit) :
    Checks (Wrapped n ∧ 0 < above) (commitTarget n above) := by
  induction above with
  | zero => exact fun hp => Nat.lt_irrefl _ hp.2
  | succ above ih =>
    have hcheck : Checks (Wrapped n) (termAtMust n (n.commit + (above + 1))) := by
      refine (h.termAtMust_checks _).congr ?_
      have hb := h.base_le
      unfold Wrapped at *
      omega
    rw [commitTarget]
    refine (hcheck.seq (F := False) fun t ht => ?_).congr (by simp)
    have hw := hcheck.not_of_ok ht
    have hrest : Checks False (commitTarget n above) :=
      (ih (by omega)).congr (iff_false_intro fun hp => hw hp.1)
    split
    · exact hrest
    · refine ((h.ackedMask_checks _).seq (F := False) fun acked _ => ?_).congr (or_self _).to_iff
      refine ((h.canCommitIndex_checks hl hw (by omega) (by omega) acked).seq (F := False)
        fun ok _ => ?_).congr (or_self _).to_iff
      split
      · exact fun hf => hf
      · exact hrest

omit n' m in
theorem commitTarget_range {above index : Nat} (h : commitTarget n above = .ok (some index)) :
    n.commit < index ∧ index ≤ n.commit + above := by
  induction above with
  | zero => cases h
  | succ above ih =>
    obtain ⟨t, -, h⟩ := check_ok h
    split at h
    · have := ih h
      omega
    · obtain ⟨acked, -, h⟩ := check_ok h
      obtain ⟨ok, -, h⟩ := check_ok h
      split at h
      · cases h
        omega
      · have := ih h
        omega

theorem target_range (h : Good k n) (hl : lastIndex n ≠ maxUint64) (hw : ¬ Wrapped n) {index : Nat}
    (ht : commitTarget n (lastIndex n - n.commit) = .ok (some index)) :
    ¬ Exhausted n ∧ n.baseIndex ≤ index ∧ index ≤ lastIndex n := by
  obtain ⟨hlt, hle⟩ := commitTarget_range ht
  have hb := h.base_le hw
  have hlast := last_lt n
  refine ⟨?_, by omega, by omega⟩
  unfold Exhausted maxUint64 at *
  omega

/-- What the leader is like when it has committed the index it could. -/
structure Advanced (k : Nat) (n : Node MemoryStore) : Prop where
  good : Good k (advanced n)
  outbound : (advanced n).outbound = n.outbound
  lastIndex_eq : lastIndex (advanced n) = lastIndex n
  next : ∀ p, (advanced n).next p = n.next p ∨ (advanced n).next p = wrap (lastIndex n + 1)

/-- An index is committed, and announced if the node still leads. -/
theorem commitIndex_exact (h : Good k n) (hw : ¬ Wrapped n) (hex : ¬ Exhausted n) {index : Nat}
    (hb : n.baseIndex ≤ index) (hl : index ≤ lastIndex n) (ht : target n = some index) :
    FailsIff (¬ Room (announcements n) n) (commitIndex index) n fun ok n' =>
      ok = true ∧ Advanced k n ∧ Sent (announcements n) (advanced n) n' := by
  have hsettle : FailsIff False (settleCommit n.commit index) (saved (n.hardState index) n) fun _ =>
      Configured { saved (n.hardState index) n with commit := index } :=
    .seq_update (h.commitAt_exact hex hl (fun _ => hb) _ _)
  unfold commitIndex
  refine .seq_get (.seq_ok (persistHardState_exact _) ?_)
  rintro ok n₁ ⟨rfl, rfl⟩
  refine .seq_ok hsettle.final fun _ n₂ ⟨hc, hn₂⟩ => .seq_get ?_
  have hadv : advanced n = n₂ := by
    rw [advanced, ht]
    exact hn₂.symm
  have h₂ := hc.good (h.commitAt hex hl (fun _ => hb) (n.hardState index))
  have hout : n₂.outbound = n.outbound := hc.outbound
  have hlast : lastIndex n₂ = lastIndex n := lastIndex_congr hc.log hc.baseIndex
  have hadvanced : Advanced k n := by
    constructor <;> rw [hadv]
    · exact h₂
    · exact hout
    · exact hlast
    · exact hc.next
  have hann : announcements n = if n₂.state = .leader then n₂.peers.countP (votes n₂) else 0 := by
    rw [announcements, hadv, ht, Option.isSome_some]
    simp only [true_and]
  rw [hann, hadv]
  split
  · have hex₂ : ¬ Exhausted n₂ := by rwa [Exhausted, hlast, hc.baseIndex]
    have hw₂ : ¬ Wrapped n₂ := by rwa [Wrapped, hlast, hc.baseIndex]
    have hbroad := h₂.broadcastAppend_exact hex₂ fun hx => absurd hx hw₂
    refine (FailsIff.seq_then hbroad fun _ _ n₃ hs => .ret ⟨rfl, hadvanced, hs⟩).congr ?_
    rw [Room, Room, hout]
  · refine FailsIff.congr (P := False) (.ret ⟨rfl, hadvanced, .refl n₂⟩) ?_
    rw [false_iff, not_not]
    exact h.outbound

/-- Nothing is committed. -/
theorem advanced_none (h : Good k n) (ht : target n = none) :
    Advanced k n ∧ advanced n = n ∧ announcements n = 0 := by
  have hadv : advanced n = n := by rw [advanced, ht]
  refine ⟨?_, hadv, ?_⟩
  · constructor <;> rw [hadv]
    · exact h
    · exact fun p => .inl rfl
  · rw [announcements, ht, if_neg (by simp)]

/-- The commit index moves as far as it can. -/
theorem advanceCommit_exact (h : Good k n) (hl : lastIndex n ≠ maxUint64) :
    FailsIff (Wrapped n ∧ n.commit < lastIndex n ∨ ¬ Room (announcements n) n) advanceCommit n fun ok n' =>
      ok = true ∧ Advanced k n ∧ Sent (announcements n) (advanced n) n' := by
  have hcheck := (h.commitTarget_checks hl (Nat.le_refl _)).congr
    (and_congr_right' (Nat.sub_pos_iff_lt (m := n.commit) (n := lastIndex n)))
  unfold advanceCommit
  refine .seq_get (.seq_check hcheck fun result hresult => ?_)
  have ht : target n = result := by
    rw [target, hresult]
    rfl
  have hw := hcheck.not_of_ok hresult
  cases result with
  | none =>
    obtain ⟨hadv, heq, hnone⟩ := h.advanced_none ht
    rw [hnone, heq]
    refine FailsIff.congr (P := False) (.ret ⟨rfl, hadv, .refl n⟩) ?_
    rw [false_iff, not_not]
    exact h.outbound
  | some index =>
    obtain ⟨hlt, hle⟩ := commitTarget_range hresult
    have hw' : ¬ Wrapped n := fun hw' => hw ⟨hw', by omega⟩
    obtain ⟨hex, hb, hle'⟩ := h.target_range hl hw' hresult
    exact h.commitIndex_exact hw' hex hb hle' ht

/-- A leader that steps a peer back. -/
theorem rejected_exact (h : Good k n) (hl : lastIndex n ≠ maxUint64) (m : Message) :
    FailsIff (¬ Room 1 n ∨ Wrapped n ∧ n.baseIndex < (stepBack m n).next m.src)
      (do modify (stepBack m); appendTo m.src) n fun _ => Good k := by
  have hsame : stepBack m n = { n with next := (stepBack m n).next } := by
    unfold stepBack
    split <;> rfl
  refine .seq_update ?_
  generalize stepBack m n = n₁ at hsame
  have h₁ : Good k n₁ := by
    rw [hsame]
    exact { h with }
  have hl₁ : lastIndex n₁ ≠ maxUint64 := by
    rw [hsame]
    exact hl
  refine ((h₁.appendToContext_exact hl₁ m.src 0).mono fun hok _ n₂ hs => ?_).congr ?_
  · exact hs.good h₁ (not_not.mp fun hr => hok (.inl hr))
  · rw [hsame]
    rfl

/-- A leader that takes an acknowledgement of a peer into account, whose next index is in the log or
just after it. -/
theorem acknowledged_exact (h : Good k n) (hl : lastIndex n ≠ maxUint64) {src : Nat}
    (hnext : n.next src ≤ wrap (lastIndex n + 1)) :
    FailsIff (Wrapped n ∧ n.commit < lastIndex n ∨ ¬ Room (announcements n + continuations src n) n)
      (do
        let persisted ← advanceCommit
        let n ← get
        if persisted ∧ n.state = .leader ∧ n.next src < wrap (lastIndex n + 1) then appendTo src
        else pure ())
      n fun _ => Good k := by
  refine ((h.advanceCommit_exact hl).seq
    (F := ¬ Room (announcements n + continuations src n) n) fun hok ok n₁ hq => ?_).congr ?_
  · obtain ⟨rfl, hadv, hs⟩ := hq
    have hroom : Room (announcements n) (advanced n) := by
      rw [Room, hadv.outbound]
      exact not_not.mp fun hr => hok (.inr hr)
    have h₁ := hs.good hadv.good hroom
    have hle : (advanced n).next src ≤ wrap (lastIndex n + 1) :=
      (hadv.next src).elim (fun h => h ▸ hnext) fun h => h ▸ Nat.le_refl _
    have hlast : lastIndex n₁ = lastIndex n := hs.lastIndex.trans hadv.lastIndex_eq
    have hsame : n₁.next src = (advanced n).next src :=
      hs.next src (.inr (by rwa [hadv.lastIndex_eq]))
    have hstate : n₁.state = (advanced n).state := by rw [hs.same]
    refine .seq_get ((FailsIff.ite_left (fun _ => (h₁.appendToContext_exact (by rwa [hlast]) src 0).mono
      fun hok _ n₂ hs => hs.good h₁ (not_not.mp fun hr => hok (.inl hr))) fun _ => .ret h₁).congr ?_)
    have hno : ¬ (Wrapped (advanced n) ∧ (advanced n).baseIndex < (advanced n).next src) := by
      rintro ⟨hw, hb⟩
      rw [Wrapped, hadv.lastIndex_eq] at hw
      rw [wrap_last hl] at hle
      omega
    rw [hlast, hsame, hstate, hs.wrapped, hs.room, hs.baseIndex, or_iff_left hno, Room, hadv.outbound,
      Room, continuations]
    have hfits : n.outbound.length + announcements n ≤ outboundCapacity := by
      rw [← hadv.outbound]
      exact hroom
    by_cases hc : (advanced n).state = .leader ∧ (advanced n).next src < wrap (lastIndex n + 1)
    · rw [if_pos hc]
      exact and_iff_right ⟨rfl, hc⟩
    · rw [if_neg hc]
      exact iff_of_false (fun hp => hc hp.1.2) (not_not.mpr hfits)
  · have hmono : ¬ Room (announcements n) n → ¬ Room (announcements n + continuations src n) n := by
      unfold Room
      omega
    tauto

/-- The answer to an append of the leader. -/
theorem onAppendResponse_exact (h : Good k n) (m : Message) :
    FailsIff (AppendResponseFails m n) (onAppendResponse m) n fun _ => Good k := by
  unfold onAppendResponse
  refine (h.recordReadAck_exact m).final.seq ?_
  rintro - - n₁ ⟨h₁, hn₁⟩
  rw [show finalState (recordReadAck m n) = n₁ from hn₁.symm]
  refine .seq_get (.congr (.ite_right (fun _ => .ret h₁) fun hguard => ?_) (and_congr_left' (by simp)))
  have hl : lastIndex n₁ ≠ maxUint64 := by
    intro hmax
    refine hguard (.inr (.inr ?_))
    rw [hmax]
    unfold wrap maxUint64
    omega
  cases hrej : m.reject with
  | true => exact h₁.rejected_exact hl m
  | false =>
    have hmatch : m.matchIndex < lastIndex n₁ + 1 := by
      rw [← wrap_last hl]
      exact Nat.lt_of_not_le fun hge => hguard (.inr (.inr hge))
    have h₂ : Good k (acknowledge m n₁) := { h₁ with }
    refine .seq_update (h₂.acknowledged_exact hl ?_)
    have hlt := last_lt n₁
    have hnext : (acknowledge m n₁).next m.src = wrap (m.matchIndex + 1) := Function.update_self ..
    rw [hnext, wrap_of_lt (by unfold maxUint64 at hl; omega)]
    exact (wrap_last hl).symm ▸ hmatch

end Good

/-! ## Messages -/

/-- The handler of the message panics. -/
def HandleFails (m : Message) (n : Node MemoryStore) : Prop :=
  match m.type with
  | .preVote => VoteFails m n
  | .preVoteResponse => PreVoteResponseFails m n
  | .requestVote => VoteFails m n
  | .requestVoteResponse => VoteResponseFails m n
  | .append => AppendFails m n
  | .appendResponse => AppendResponseFails m n
  | .installSnapshot => ¬ Room 1 n
  | .installSnapshotResponse => SnapshotResponseFails m n
  | .timeoutNow => TimeoutNowFails m n
  | .other _ _ => False

instance (m : Message) (n : Node MemoryStore) : Decidable (HandleFails m n) := by
  unfold HandleFails
  cases m.type <;> exact inferInstance

/-- The node in the term of the message. -/
def entered (m : Message) (n : Node MemoryStore) : Node MemoryStore :=
  if newer m n then enterTerm m (saved { term := m.term, commit := n.commit } n) else n

/-- `Step` panics on the message. -/
def Crashes (m : Message) (n : Node MemoryStore) : Prop := HandleFails m (entered m n)

instance (m : Message) (n : Node MemoryStore) : Decidable (Crashes m n) :=
  inferInstanceAs (Decidable (HandleFails m _))

/-- The indexes of a message are `uint64`. -/
structure Indexed (m : Message) : Prop where
  commit : m.commit < 2 ^ 64
  snapshotIndex : m.snapshotIndex < 2 ^ 64

namespace Good

variable {k : Nat} {n n' : Node MemoryStore} {m : Message}

theorem handle_exact (h : Good (k + 1) n) (hm : Indexed m) :
    FailsIff (HandleFails m n) (handle m) n fun _ => Good k := by
  have weaken {P : Prop} {x : NodeM MemoryStore Unit} (hx : FailsIff P x n fun _ => Good (k + 1)) :
      FailsIff P x n fun _ => Good k := hx.mono fun _ _ _ h => h.weaken
  unfold HandleFails handle
  cases m.type with
  | preVote => exact weaken (h.onPreVote_exact m)
  | preVoteResponse => exact h.onPreVoteResponse_exact m
  | requestVote => exact weaken (h.onVote_exact m)
  | requestVoteResponse => exact h.onVoteResponse_exact m
  | append => exact h.onAppend_exact hm.commit
  | appendResponse => exact weaken (h.onAppendResponse_exact m)
  | installSnapshot => exact weaken (h.onInstallSnapshot_exact hm.snapshotIndex)
  | installSnapshotResponse => exact weaken (h.onInstallSnapshotResponse_exact m)
  | timeoutNow => exact h.onTimeoutNow_exact m
  | other code unnamed => exact .ret h.weaken

/-- The exact condition under which `Step` panics. -/
theorem step_exact (h : Good (k + 1) n) (hm : Indexed m) :
    FailsIff (Crashes m n) (step m) n fun _ => Good k := by
  have hf : ¬ n.faulted = true := by rw [h.running]; decide
  unfold step Crashes entered
  refine .seq_get ?_
  rw [if_neg hf]
  by_cases hnew : newer m n = true
  · have h₁ : Good (k + 1) (enterTerm m (saved { term := m.term, commit := n.commit } n)) :=
      { h with store := h.store }
    rw [if_pos hnew, if_pos hnew]
    refine .seq_ok (persistHardState_exact _) ?_
    rintro ok n₁ ⟨rfl, rfl⟩
    exact .seq_update (h₁.handle_exact hm)
  · rw [if_neg hnew, if_neg hnew]
    exact h.handle_exact hm

end Good

end Promtact.Raft.Wrap
