import Promtact.Raft.Refine.Snapshot

/-!
# The methods of a node, and its recovery

Every public method of a node is matched by steps of its member (`step_sim` for messages,
`applyEntries_sim` for what the node hands to its state machine), and a node that is recovered from
its store is the member that it was (`recover_rep`).
-/

namespace Promtact.Raft

open Refine Consensus

variable {σ : Type} [DurableStore σ] [LawfulStore σ] {mode : Mode} {V : Mask}
  {w : World Nat Entry} {i : Nat} {n : Node σ}

/-! ## Messages -/

/-- The message does not bring the node's membership into disorder, in the runs that exclude it. -/
structure Safe (mode : Mode) (n : Node σ) (m : Message) : Prop where
  install : mode.members = true → mode.snapshots = true → n.faulted = false →
    m.type = .installSnapshot → n.rejectsSnapshot m = false → n.baseIndex < m.snapshotIndex →
    InstallSafe n m
  append : mode.serial = true → n.faulted = false → m.type = .append → n.rejectsAppend m = false →
    AppendSafe n m

/-- A message that may be delivered to the node. -/
structure Deliverable (mode : Mode) (V : Mask) (w : World Nat Entry) (i : Nat) (n : Node σ)
    (m : Message) : Prop where
  valid : ValidMsg mode V w m
  dst : m.dst = i
  safe : Safe mode n m

omit [DurableStore σ] [LawfulStore σ] in
/-- Only where logs are compacted is there a snapshot to install. -/
theorem ValidMsg.snapshots {m : Message} (h : ValidMsg mode V w m) (hty : m.type = .installSnapshot)
    (hrej : n.rejectsSnapshot m = false) (hb : n.baseIndex < m.snapshotIndex) :
    mode.snapshots = true := by
  unfold ValidMsg at h
  rw [hty] at h
  simp only [Node.rejectsSnapshot, Bool.or_eq_false_iff, beq_eq_false_iff_ne] at hrej
  obtain ⟨r, -, -, hcov, -⟩ := h hrej.1.2
  exact (hcov.some (by show m.snapshotIndex ≠ 0; omega)).1

theorem handle_sim {m : Message} (h : Ready mode V True True w i n n.commit)
    (hinv : Inv (params mode V) w) (hi : 0 < i) (hm : Deliverable mode V w i n m)
    (hle : m.type.isPreVote = false → m.term ≤ n.term) :
    NSim mode V i w (handle m) n fun _ w' n' => Rep mode V w' i n' := by
  have hvalid := hm.valid
  unfold ValidMsg at hvalid
  unfold handle
  cases hty : m.type <;> simp only [hty] at hvalid hle ⊢
  case preVote => exact onPreVote_sim h
  case preVoteResponse => exact onPreVoteResponse_sim h hinv hi
  case requestVote => exact onVote_sim h hinv hty hm.valid
  case requestVoteResponse =>
    rw [hm.dst] at hvalid
    exact onVoteResponse_sim h hinv hvalid
  case append => exact onAppend_sim h hinv (hle rfl) hty hm.valid fun hs =>
    hm.safe.append hs h.faulted hty
  case appendResponse => exact onAppendResponse_sim h hinv hvalid
  case timeoutNow => exact onTimeoutNow_sim h hinv hi
  case installSnapshot =>
    exact onInstallSnapshot_sim h hinv (hle rfl) hty hm.valid fun hmem hrej hb =>
      hm.safe.install hmem (hm.valid.snapshots hty hrej hb) h.faulted hty hrej hb
  case installSnapshotResponse => exact onInstallSnapshotResponse_sim h hinv hvalid
  case other => exact Sim.ret h.rep

theorem step_sim {m : Message} (h : Rep mode V w i n) (hinv : Inv (params mode V) w) (hi : 0 < i)
    (hm : Deliverable mode V w i n m) :
    NSim mode V i w (step m) n fun _ w' n' => Rep mode V w' i n' := by
  unfold step
  refine Sim.seq_get (Sim.ite (fun _ => Sim.ret h) fun hf => ?_)
  have hr := h.ready (by simpa using hf)
  refine Sim.ite (fun hc => ?_) fun hc => ?_
  · -- a message of a later term: the node enters it first
    have hstep : Step (params mode V) i w (w.bump i m.term) :=
      .bump (by rw [hr.live.1.term_eq]; exact hc.2)
    have hx := hinv.ext_step hstep
    refine Sim.seq (Q := fun b w' n' => if b then w' = w.bump i m.term ∧ ∃ s,
        n' = { n with store := s } ∧
        Held mode V w' i s m.term 0 n.commit n.baseIndex n.baseTerm n.log n.snapshot
      else Rep mode V w' i n') (callStoreOrFail_sim ?_ ?_) ?_
    · intro s hs
      refine ⟨_, .single hstep, rfl, s, rfl, hr.live.1.persist hs (Function.update_self ..)
        (Function.update_self ..) rfl hr.live.1.commit_eq le_rfl⟩
    · exact fun e s hs => hr.fail (hr.live.stored.saveHardState_error hs)
    · rintro (_ | _) w' n' - hQ
      · exact Sim.ret hQ
      obtain ⟨rfl, s, rfl, hheld⟩ := hQ
      refine Sim.seq_update (handle_sim ⟨hr.id, hr.sent.ext hinv hx, hr.faulted, ⟨hheld, hr.live.2.1,
        hr.live.2.2.1, nofun, nofun⟩, fun _ => nofun, hr.pending⟩ (hinv.step hstep) hi
        ⟨hm.valid.ext hinv hx, hm.dst,
          fun hmem hs hf hty hrej hb => hm.safe.install hmem hs hf hty ?_ hb,
          fun hs hf hty hrej => hm.safe.append hs hf hty ?_⟩
        fun _ => le_rfl)
      -- a message of a later term was not rejected for its term before either
      · simp only [Node.rejectsSnapshot, Bool.or_eq_false_iff, decide_eq_false_iff_not] at hrej ⊢
        exact ⟨⟨⟨by have := hc.2; omega, hrej.1.1.2⟩, hrej.1.2⟩, hrej.2⟩
      · simp only [Node.rejectsAppend, Bool.or_eq_false_iff, decide_eq_false_iff_not] at hrej ⊢
        exact ⟨⟨by have := hc.2; omega, hrej.1.2⟩, hrej.2⟩
  · refine handle_sim hr hinv hi hm fun hpre => ?_
    rw [not_and] at hc
    have := hc hpre
    omega

/-! ## Applying -/

/-- What a node has committed is what its member has. -/
theorem Rep.entryAt?_eq (h : Rep mode V w i n) {k : Nat} (hb : n.baseIndex < k)
    (hk : k ≤ n.commit) : n.entryAt? k = (w.log i)[k - 1]? := by
  rcases h with h | ⟨-, -, -, -, -, h⟩
  · exact h.live.entryAt?_eq hb
  · rw [Raft.entryAt?_eq]; exact h.entry k hb hk

theorem Rep.termAt_base (h : Rep mode V w i n) :
    n.termAt n.baseIndex = some ((params mode V).lastTerm ((w.log i).take n.baseIndex)) := by
  rcases h with h | ⟨-, -, -, -, -, h⟩
  · exact h.live.termAt_eq le_rfl h.live.1.base_le
  · rw [Node.termAt, Raft.entryAt?_eq]; exact h.baseTerm

theorem Rep.bounds (h : Rep mode V w i n) :
    n.baseIndex ≤ n.applied ∧ n.applied ≤ n.commit ∧ n.commit ≤ w.commit i := by
  rcases h with h | ⟨-, -, -, -, -, h⟩
  · exact ⟨h.live.2.1.1, h.live.2.1.2, h.live.1.commit_eq.ge⟩
  · exact ⟨h.base_le, h.applied_le, h.commit_le⟩

theorem Rep.setApplied (h : Rep mode V w i n) {a : Nat} (ha : n.baseIndex ≤ a) (ha' : a ≤ n.commit) :
    Rep mode V w i { n with applied := a } := by
  refine h.imp (fun h => ?_) ?_
  · exact ⟨h.id, h.sent, h.faulted, ⟨h.live.1, ⟨ha, ha'⟩, h.live.2.2⟩, h.matched, h.pending⟩
  · rintro ⟨hid, hout, hf, hst, hs, hset⟩
    exact ⟨hid, hout, hf, hst, hs, { hset with base_le := ha, applied_le := ha' }⟩

/-- The commands among the entries above `a` and up to `b`. -/
def commands (ℓ : List Entry) (a b : Nat) : List Entry :=
  ((ℓ.take b).drop a).filter fun e => e.kind = .normal

theorem commands_succ {ℓ : List Entry} {a b : Nat} {e : Entry} (hab : a < b)
    (he : ℓ[a]? = some e) :
    commands ℓ a b = (if e.kind = .normal then [e] else []) ++ commands ℓ (a + 1) b := by
  have hlt : a < (ℓ.take b).length := by
    have := getElem?_lt he
    rw [List.length_take]; omega
  have hget : (ℓ.take b)[a] = e := by
    rw [List.getElem_take]; exact (List.getElem?_eq_some_iff.mp he).2
  unfold commands
  rw [List.drop_eq_getElem_cons hlt, hget, List.filter_cons]
  split <;> simp_all

theorem applyEntriesLoop_sim {rest : Nat} {dst : List Entry} (h : Rep mode V w i n)
    (hinv : Inv (params mode V) w) (hr : n.applied + rest ≤ n.commit) :
    NSim mode V i w (applyEntriesLoop rest dst) n fun out w' n' =>
      w' = w ∧ n' = { n with applied := n.applied + rest } ∧
      out = dst ++ commands (w.log i) n.applied (n.applied + rest) := by
  induction rest generalizing n dst with
  | zero =>
    refine Sim.ret ⟨rfl, rfl, ?_⟩
    simp [commands]
  | succ rest ih =>
    have hb := h.bounds
    have hcl := (hinv.commit_ev i).1
    have hlt : n.applied < (w.log i).length := by omega
    have hget := List.getElem?_eq_getElem hlt
    have hrep := h.setApplied (a := n.applied + 1) (by omega) (by omega)
    have hentry : { n with applied := n.applied + 1 }.entryAt (n.applied + 1) =
        .ok (w.log i)[n.applied] := by
      rw [Node.entryAt, hrep.entryAt?_eq (by show n.baseIndex < _; omega) (by show _ ≤ n.commit; omega),
        Nat.add_sub_cancel, hget]
      rfl
    unfold applyEntriesLoop
    refine Sim.seq_update (Sim.seq_get (Sim.seq_check hentry ?_))
    refine (ih hrep (by show n.applied + 1 + rest ≤ n.commit; omega)).mono ?_
    rintro out w' n' - ⟨rfl, rfl, rfl⟩
    refine ⟨rfl, ?_, ?_⟩
    · show ({ n with applied := n.applied + 1 + rest } : Node σ) = _
      rw [show n.applied + 1 + rest = n.applied + (rest + 1) by omega]
    · show _ ++ commands (w'.log i) (n.applied + 1) (n.applied + 1 + rest) = _
      rw [commands_succ (a := n.applied) (b := n.applied + (rest + 1)) (by omega) hget,
        show n.applied + 1 + rest = n.applied + (rest + 1) by omega]
      split <;> simp

theorem applyEntries_sim {dst : List Entry} (h : Rep mode V w i n)
    (hinv : Inv (params mode V) w) :
    NSim mode V i w (applyEntries dst) n fun out w' n' =>
      w' = w ∧ n' = { n with applied := n.commit } ∧ Rep mode V w i n' ∧
      out = dst ++ commands (w.log i) n.applied n.commit := by
  have hb := h.bounds
  unfold applyEntries
  refine Sim.seq_get ((applyEntriesLoop_sim h hinv (by omega)).mono ?_)
  rintro out w' n' - ⟨rfl, rfl, rfl⟩
  rw [show n.applied + (n.commit - n.applied) = n.commit by omega]
  exact ⟨rfl, rfl, h.setApplied (by omega) le_rfl, rfl⟩

theorem drain_sim (h : Rep mode V w i n) :
    NSim mode V i w drain n fun out w' n' => w' = w ∧ n' = { n with outbound := [] } ∧
      Rep mode V w i n' ∧ out = n.outbound := by
  unfold drain
  refine Sim.seq_get (Sim.seq_update (Sim.ret ⟨rfl, rfl, ?_, rfl⟩))
  refine h.imp (fun h => ?_) ?_
  · exact ⟨h.id, Sent.nil, h.faulted, h.live, h.matched, h.pending⟩
  · rintro ⟨hid, -, hf, hst, hfail⟩
    exact ⟨hid, rfl, hf, hst, hfail⟩

end Promtact.Raft
