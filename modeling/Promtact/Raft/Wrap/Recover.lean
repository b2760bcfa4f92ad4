import Promtact.Raft.Recover
import Promtact.Raft.Wrap.Range

/-!
# Recovery with 64-bit numbers (`raft/recover.go`)

`restoreConfigurationState` counts with a `uint64` and looks every entry up, which panics if the
first index wraps around. `recover_eq`: if the last index of what is restored is in range, the node
is the one of `Promtact.Raft.recover`.
-/

namespace Promtact.Raft.Wrap

variable {σ : Type}

/-- The loop of `restoreConfigurationState` over the indexes. -/
def restoreEntries : List Nat → Restored → Node σ → Except Panic (Option Restored × Node σ)
  | [], r, n => pure (some r, n)
  | index :: rest, r, n => do
    let entry ← entryAt n index
    match restoreEntry n.commit index entry r with
    | none => pure (none, n)
    | some r => restoreEntries rest r (ensurePeers (entry.oldVoters ||| entry.newVoters) n)

/-- The end of `restoreConfigurationState` and of both constructors. -/
def settleRestored : Option Restored × Node σ → Node σ
  | (none, n) => n.fail none
  | (some r, n) =>
    { n with votersOld := r.oldVoters, votersNew := r.newVoters, pendingConfig := r.pending }

/-- The end of both constructors. -/
def checkRecovered (n : Node σ) : Except Panic (Node σ) :=
  if n.commit > lastIndex n then pure (n.fail none)
  else do
    let restored ← restoreEntries (indexes (wrap (n.baseIndex + 1)) (lastIndex n))
      ⟨n.votersOld, n.votersNew, 0⟩ n
    pure (settleRestored restored)

/-- `NewRecoveredNode`. -/
def newRecoveredNode (id : Nat) (peers : List Nat) (electionTimeout : Nat) (store : σ)
    (hard : HardState) (log : List Entry) : Except Panic (Node σ) := do
  let n ← newNodeWithStore id peers electionTimeout store
  checkRecovered { n with
    term := hard.term, votedFor := hard.votedFor, commit := hard.commit
    log := if log = [] then n.log else log }

/-- `NewRecoveredNodeWithSnapshot`. -/
def newRecoveredNodeWithSnapshot (id : Nat) (peers : List Nat) (electionTimeout : Nat) (store : σ)
    (hard : HardState) (snapshot : Snapshot) (suffix : List Entry) : Except Panic (Node σ) := do
  let n ← newNodeWithStore id peers electionTimeout store
  let n := { n with
    term := hard.term, votedFor := hard.votedFor
    baseIndex := snapshot.lastIndex, baseTerm := snapshot.lastTerm, snapshot
    votersOld := snapshot.oldVoters, votersNew := snapshot.newVoters }
  if n.votersOld = 0 then pure (n.fail none)
  else checkRecovered { ensurePeers (n.votersOld ||| n.votersNew) n with
    log := { term := snapshot.lastTerm } :: suffix
    commit := max hard.commit snapshot.lastIndex
    applied := snapshot.lastIndex }

/-- The node after a restart. -/
def recover (id : Nat) (peers : List Nat) (electionTimeout : Nat) (store : σ) (d : Recovery) :
    Except Panic (Node σ) :=
  if d.snapshot.lastIndex ≠ 0 then
    newRecoveredNodeWithSnapshot id peers electionTimeout store d.hard d.snapshot d.suffix
  else newRecoveredNode id peers electionTimeout store d.hard ({} :: d.suffix)

/-! ## In range -/

variable {n : Node σ} {k : Nat}

/-- The entries above `done` are at the indexes that the loop passes. -/
theorem Low.restoreEntries_eq (h : Low k n) (done : List Entry) {rest : List Entry}
    (hlog : n.log = done ++ rest) (hdone : done ≠ []) (r : Restored) :
    restoreEntries (List.range' (n.baseIndex + done.length) rest.length) r n =
      .ok (Raft.restoreEntries n.commit (n.baseIndex + done.length) rest r n) := by
  induction rest generalizing n done r with
  | nil => rfl
  | cons e rest ih =>
    have he : n.entryAt (n.baseIndex + done.length) = .ok e := by
      have hpos := List.length_pos_of_ne_nil hdone
      have hlen : n.log.length = done.length + (rest.length + 1) := by
        rw [hlog, List.length_append, List.length_cons]
      rw [Node.entryAt, Node.entryAt?, Node.offset, if_neg (by unfold Node.lastIndex; omega)]
      rw [Nat.add_sub_cancel_left, Option.bind_some, hlog, List.getElem?_append_right (Nat.le_refl _),
        Nat.sub_self, List.getElem?_cons_zero]
      rfl
    rw [List.length_cons, List.range'_succ, restoreEntries, Raft.restoreEntries, h.entryAt_eq, he]
    show (match restoreEntry n.commit (n.baseIndex + done.length) e r with
      | none => pure (none, n)
      | some r => restoreEntries _ r (Wrap.ensurePeers (e.oldVoters ||| e.newVoters) n)) = _
    cases restoreEntry n.commit (n.baseIndex + done.length) e r with
    | none => rfl
    | some r =>
      have hf := Frame.ensurePeers n (e.oldVoters ||| e.newVoters)
      have hnext := ih (h.frame hf) (done ++ [e]) (by rw [hf.log, hlog]; simp) (by simp) r
      rw [hf.baseIndex, hf.commit, List.length_append, List.length_singleton, ← Nat.add_assoc] at hnext
      dsimp only
      rw [h.ensurePeers_eq]
      exact hnext

theorem checkRecovered_eq (hlog : n.log ≠ []) (hl : n.lastIndex + 1 < 2 ^ 64) :
    checkRecovered n = .ok n.checkRecovered := by
  have hlow : Low 0 { n with commit := 0 } := ⟨hlog, hl, Nat.one_lt_two_pow (by decide)⟩
  have hlast : lastIndex n = n.lastIndex := hlow.lastIndex_eq
  unfold checkRecovered Node.checkRecovered
  rw [hlast]
  by_cases hc : n.commit > n.lastIndex
  · rw [if_pos hc, if_pos hc]
    rfl
  · rw [if_neg hc, if_neg hc]
    have h : Low 0 n := ⟨hlog, hl, by omega⟩
    obtain ⟨e, rest, hcons⟩ := List.exists_cons_of_ne_nil hlog
    have hlen : n.lastIndex + 1 - (n.baseIndex + 1) = rest.length := by
      rw [Node.lastIndex, hcons, List.length_cons]
      omega
    have hrest := h.restoreEntries_eq [e] hcons (List.cons_ne_nil _ _)
      ⟨n.votersOld, n.votersNew, 0⟩
    rw [List.length_singleton] at hrest
    rw [h.wrap_base, indexes_of_lt hl, hlen, hrest, Node.restoreConfigurationState, hcons, List.tail_cons]
    show Except.ok (settleRestored _) = _
    cases Raft.restoreEntries n.commit (n.baseIndex + 1) rest ⟨n.votersOld, n.votersNew, 0⟩ n with
    | mk restored n' => cases restored <;> rfl

theorem newRecoveredNode_eq {id timeout : Nat} {peers : List Nat} {store : σ} {hard : HardState}
    {suffix : List Entry} (hl : suffix.length + 1 < 2 ^ 64) :
    newRecoveredNode id peers timeout store hard ({} :: suffix) =
      Raft.newRecoveredNode id peers timeout store hard ({} :: suffix) := by
  unfold newRecoveredNode Raft.newRecoveredNode
  cases hn : newNodeWithStore id peers timeout store with
  | error e => exact (rfl : _ = Except.error e)
  | ok n =>
    obtain ⟨_, _, hn⟩ := newNodeWithStore_ok hn
    have hbase : n.baseIndex = 0 := by rw [hn]
    rw [show (Except.ok n : Except Panic (Node σ)) = pure n from rfl, pure_bind, pure_bind]
    refine checkRecovered_eq ?_ ?_
    · rw [if_neg (List.cons_ne_nil _ _)]
      exact List.cons_ne_nil _ _
    · rw [Node.lastIndex, if_neg (List.cons_ne_nil _ _), hbase, List.length_cons]
      omega

theorem newRecoveredNodeWithSnapshot_eq {id timeout : Nat} {peers : List Nat} {store : σ}
    {hard : HardState} {snapshot : Snapshot} {suffix : List Entry}
    (hl : snapshot.lastIndex + suffix.length + 1 < 2 ^ 64) :
    newRecoveredNodeWithSnapshot id peers timeout store hard snapshot suffix =
      Raft.newRecoveredNodeWithSnapshot id peers timeout store hard snapshot suffix := by
  unfold newRecoveredNodeWithSnapshot Raft.newRecoveredNodeWithSnapshot
  cases hn : newNodeWithStore id peers timeout store with
  | error e => rfl
  | ok n =>
    obtain ⟨_, _, hn⟩ := newNodeWithStore_ok hn
    have h : Low 0 { n with
        term := hard.term, votedFor := hard.votedFor
        baseIndex := snapshot.lastIndex, baseTerm := snapshot.lastTerm, snapshot
        votersOld := snapshot.oldVoters, votersNew := snapshot.newVoters } := by
      rw [hn]
      refine ⟨List.cons_ne_nil _ _, ?_, Nat.one_lt_two_pow (by decide)⟩
      show snapshot.lastIndex + 1 - 1 + 0 + 1 < 2 ^ 64
      omega
    show (if snapshot.oldVoters = 0 then _ else _) = Except.ok (if snapshot.oldVoters = 0 then _ else _)
    by_cases hv : snapshot.oldVoters = 0
    · rw [if_pos hv, if_pos hv]
      rfl
    · rw [if_neg hv, if_neg hv, h.ensurePeers_eq]
      refine checkRecovered_eq (List.cons_ne_nil _ _) ?_
      rw [Node.lastIndex, (Frame.ensurePeers _ _).baseIndex, List.length_cons]
      dsimp only
      omega

/-- In range, a restart with 64-bit numbers is the one with natural numbers. -/
theorem recover_eq {id timeout : Nat} {peers : List Nat} {store : σ} {d : Recovery}
    (hl : d.lastIndex + 1 < 2 ^ 64) :
    recover id peers timeout store d = Raft.recover id peers timeout store d := by
  unfold Recovery.lastIndex Recovery.base at hl
  unfold recover Raft.recover
  split
  · exact newRecoveredNodeWithSnapshot_eq hl
  · exact newRecoveredNode_eq (by omega)

end Promtact.Raft.Wrap
