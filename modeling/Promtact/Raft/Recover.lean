import Promtact.Raft.Handlers

/-!
# Recovery (`raft/recover.go` and `restoreConfigurationState` of `raft/node.go`)

A node is built again from a hard state and a log (`newRecoveredNode`), or from a hard state, a
snapshot and the log above it (`newRecoveredNodeWithSnapshot`). Both check the retained entries
again. `recover` is how the callers choose between them, by the index of the snapshot.
-/

namespace Promtact.Raft

open Refine

/-- The local variables of `restoreConfigurationState`. -/
structure Restored where
  oldVoters : Mask
  newVoters : Mask
  pending : Nat := 0
  deriving DecidableEq, Repr

/-- The `switch` of `restoreConfigurationState` for the entry at `index`. `none` for the source's
`return false`. -/
def restoreEntry (commit index : Nat) (entry : Entry) (r : Restored) : Option Restored :=
  match entry.kind with
  | .normal => if entry.oldVoters ≠ 0 ∨ entry.newVoters ≠ 0 then none else some r
  | .noop =>
    if entry.command ≠ 0 ∨ entry.oldVoters ≠ 0 ∨ entry.newVoters ≠ 0 ∨ entry.operation ≠ .legacy
    then none else some r
  | .jointConfig =>
    if r.pending ≠ 0 ∨ r.newVoters ≠ 0 ∨ entry.oldVoters ≠ r.oldVoters ∨
        entry.oldVoters = 0 ∨ entry.newVoters = 0 then none
    else if index ≤ commit then
      some { r with oldVoters := entry.oldVoters, newVoters := entry.newVoters }
    else some { r with pending := index }
  | .finalConfig =>
    if r.pending ≠ 0 ∨ r.newVoters = 0 ∨ entry.oldVoters ≠ r.newVoters ∨ entry.newVoters ≠ 0 then
      none
    else if index ≤ commit then some { r with oldVoters := entry.oldVoters, newVoters := 0 }
    else some { r with pending := index }
  | .other _ _ => none

variable {σ : Type}

/-- The loop of `restoreConfigurationState` over the retained entries, the first of which is at
`index`. The peers it adds stay when it fails. -/
def restoreEntries (commit : Nat) : Nat → List Entry → Restored → Node σ → Option Restored × Node σ
  | _, [], r, n => (some r, n)
  | index, entry :: entries, r, n =>
    match restoreEntry commit index entry r with
    | none => (none, n)
    | some r =>
      restoreEntries commit (index + 1) entries r
        (n.ensurePeers (entry.oldVoters ||| entry.newVoters))

/-- `restoreConfigurationState`. The entries from `baseIndex + 1` to the last index are the
retained log without its first element. -/
def Node.restoreConfigurationState (n : Node σ) : Bool × Node σ :=
  match restoreEntries n.commit (n.baseIndex + 1) n.log.tail ⟨n.votersOld, n.votersNew, 0⟩ n with
  | (none, n) => (false, n)
  | (some r, n) =>
    (true, { n with votersOld := r.oldVoters, votersNew := r.newVoters, pendingConfig := r.pending })

/-- The end of both constructors. -/
def Node.checkRecovered (n : Node σ) : Node σ :=
  if n.commit > n.lastIndex then n.fail none
  else
    let (ok, n) := n.restoreConfigurationState
    if ok then n else n.fail none

/-- `NewRecoveredNode`: from a log without a snapshot. -/
def newRecoveredNode (id : Nat) (peers : List Nat) (electionTimeout : Nat) (store : σ)
    (hard : HardState) (log : List Entry) : Except Panic (Node σ) := do
  let n ← newNodeWithStore id peers electionTimeout store
  pure { n with
    term := hard.term, votedFor := hard.votedFor, commit := hard.commit
    log := if log = [] then n.log else log }.checkRecovered

/-- `NewRecoveredNodeWithSnapshot`: from a snapshot and the log above it. -/
def newRecoveredNodeWithSnapshot (id : Nat) (peers : List Nat) (electionTimeout : Nat) (store : σ)
    (hard : HardState) (snapshot : Snapshot) (suffix : List Entry) : Except Panic (Node σ) := do
  let n ← newNodeWithStore id peers electionTimeout store
  let n := { n with
    term := hard.term, votedFor := hard.votedFor
    baseIndex := snapshot.lastIndex, baseTerm := snapshot.lastTerm, snapshot
    votersOld := snapshot.oldVoters, votersNew := snapshot.newVoters }
  pure <|
    if n.votersOld = 0 then n.fail none
    else
      { n.ensurePeers (n.votersOld ||| n.votersNew) with
        log := { term := snapshot.lastTerm } :: suffix
        commit := max hard.commit snapshot.lastIndex
        applied := snapshot.lastIndex }.checkRecovered

theorem collectVoters_mem {id : Nat} {peers : List Nat} {voters v : Mask} (hm : Mem id voters)
    (h : collectVoters peers voters = .ok v) : Mem id v := by
  induction peers generalizing voters with
  | nil => cases h; exact hm
  | cons p peers ih =>
    obtain ⟨bit, -, h⟩ := check_ok h
    split at h
    · cases h
    · exact ih (mem_or.mpr (.inl hm)) h

/-- Peers that are valid identifiers and not seen before are accepted. -/
theorem collectVoters_of_valid {peers : List Nat} {voters : Mask} (hnodup : peers.Nodup)
    (hvalid : ∀ p ∈ peers, 0 < p ∧ p ≤ 64) (hnew : ∀ p ∈ peers, ¬Mem p voters) :
    ∃ v, collectVoters peers voters = .ok v ∧ ∀ k, Mem k v ↔ Mem k voters ∨ k ∈ peers := by
  induction peers generalizing voters with
  | nil => exact ⟨voters, rfl, fun k => by simp⟩
  | cons p peers ih =>
    obtain ⟨hp, hnodup⟩ := List.nodup_cons.mp hnodup
    obtain ⟨h0, h64⟩ := hvalid p (List.mem_cons_self ..)
    have hdisj : voters &&& bit p = 0 := by
      refine eq_of_mem_iff fun k => ?_
      rw [mem_and, mem_bit h0 h64]
      constructor
      · rintro ⟨hk, rfl⟩
        exact absurd hk (hnew k (List.mem_cons_self ..))
      · exact fun hk => absurd rfl (ne_zero_of_mem hk)
    have hnew' : ∀ q ∈ peers, ¬Mem q (voters ||| bit p) := by
      intro q hq
      rw [mem_or, mem_bit h0 h64]
      rintro (hm | rfl)
      · exact hnew q (List.mem_cons_of_mem _ hq) hm
      · exact hp hq
    obtain ⟨v, hv, hmem⟩ := ih hnodup (fun q hq => hvalid q (List.mem_cons_of_mem _ hq)) hnew'
    refine ⟨v, ?_, fun k => ?_⟩
    · rw [collectVoters, nodeBit_of_valid h0 h64]
      show (if voters &&& bit p ≠ 0 then _ else _) = _
      rw [if_neg (not_not.mpr hdisj)]
      exact hv
    · rw [hmem, mem_or, mem_bit h0 h64, List.mem_cons]
      tauto

/-- A new node, which is one of its voters. -/
theorem newNodeWithStore_ok {id timeout : Nat} {peers : List Nat} {s : σ} {n : Node σ}
    (h : newNodeWithStore id peers timeout s = .ok n) :
    0 < id ∧ Mem id n.votersOld ∧
      n = { id := id, peers := peers, timeout := timeout, votersOld := n.votersOld, store := s } := by
  obtain ⟨seen, hseen, h⟩ := check_ok h
  obtain ⟨voters, hv, h⟩ := check_ok h
  cases h
  obtain ⟨rfl, hid, hid'⟩ := nodeBit_ok hseen
  exact ⟨hid, collectVoters_mem ((mem_bit hid hid').mpr rfl) hv, rfl⟩

/-- The node after a restart (`server.Open`, `dst/raftcluster`): from the snapshot if there is one,
and otherwise from the log with its first element put back. -/
def recover (id : Nat) (peers : List Nat) (electionTimeout : Nat) (store : σ) (d : Recovery) :
    Except Panic (Node σ) :=
  if d.snapshot.lastIndex ≠ 0 then
    newRecoveredNodeWithSnapshot id peers electionTimeout store d.hard d.snapshot d.suffix
  else newRecoveredNode id peers electionTimeout store d.hard ({} :: d.suffix)

end Promtact.Raft
