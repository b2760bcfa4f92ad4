import Promtact.Raft.Membership
import Promtact.Raft.Refine.Commit

/-!
# Leading

A leader appends entries of its own (`appendLocal_sim`), commits what a quorum acknowledged
(`advanceCommit_sim`) and hears from its peers (`onAppendResponse_sim`,
`onInstallSnapshotResponse_sim`).
-/

namespace Promtact.Raft

open Refine Consensus

variable {σ : Type} [DurableStore σ] [LawfulStore σ] {mode : Mode} {V : Mask}
  {w : World Nat Entry} {i : Nat} {n : Node σ} {M K : Prop} {c : Nat}

/-! ## Appending -/

/-- A leader that is a quorum of its own commits its last entry. -/
theorem commitAlone_sim {bit : Mask} (h : Ready mode V M K w i n n.commit)
    (hinv : Inv (params mode V) w) (hl : Leads w i) (hlt : n.commit < (w.log i).length)
    (he : ∀ e, (w.log i)[(w.log i).length - 1]? = some e → e.term = w.term i)
    (hbit : nodeBit n.id = .ok bit) (hq : n.quorumMask bit = .ok true) :
    NSim mode V i w commitAlone n fun b w' n' =>
      if b then Ready mode V M K w' i n' n'.commit ∧ Leads w' i else Rep mode V w' i n' := by
  have hlast := h.live.lastIndex_eq
  have hsteps : Steps (params mode V) i w
      ((w.ack i n.lastIndex).advance i n.lastIndex fun v => Mem v bit) := by
    obtain ⟨rfl, hid, hid'⟩ := nodeBit_ok hbit
    have hquorum := h.live.quorumMask_quorum hinv hq
    refine commit_steps hinv hl (by rw [h.live.1.commit_eq]; omega) hlast.le (hlast ▸ he) ?_ ?_
    · exact fun v hv => .inl (((mem_bit hid hid').mp hv).trans h.id)
    · rwa [hlast, List.take_length, h.live.1.commit_eq]
  unfold commitAlone
  refine Sim.seq_get (Sim.seq_update (Sim.seq_get ?_))
  refine Sim.seq (Q := fun b w' n' => if b then
      Ready mode V M K w' i n' n.commit ∧ Inv (params mode V) w' ∧ Leads w' i ∧
        n'.baseIndex = n.baseIndex ∧ n'.commit = n.lastIndex
      else Rep mode V w' i { n' with commit := n.commit }) (callStoreOrFail_sim ?_ ?_) ?_
  · intro s' hs
    exact ⟨_, hsteps, h.advance hinv hs (by omega) hsteps, hinv.steps hsteps, hl, rfl, rfl⟩
  · intro e s' hs
    exact h.fail (h.live.stored.saveHardState_error hs)
  · rintro (_ | _) w' n' - hQ
    · exact Sim.seq_update (Sim.ret hQ)
    · obtain ⟨hr, hinv', hl', hbase, hcm⟩ := hQ
      refine Sim.seq (applyCommittedConfigurations_sim hr hinv' ?_ ?_ hcm.symm) ?_
      · rw [hbase]; have := h.live.2.1; omega
      · omega
      · rintro - w'' n'' - ⟨rfl, hr'⟩
        exact Sim.ret ⟨hr', hl'⟩

/-- An entry that a leader may append. -/
structure MayAppend (mode : Mode) (V : Mask) (w : World Nat Entry) (i : Nat) (e : Entry) : Prop where
  term : e.term = w.term i
  ok : (params mode V).Ok e
  fits : ((params mode V).cfg (w.log i)).Fits e.change
  after : e.isConfig = true → ∀ k e', (w.log i)[k]? = some e' → e'.isConfig = true → k < w.commit i

theorem appendLocal_sim {e : Entry} (h : Ready mode V M K w i n n.commit)
    (hinv : Inv (params mode V) w) (hst : n.state = .leader) (he : MayAppend mode V w i e)
    (hK : K → e.isConfig = false) :
    NSim mode V i w (appendLocal e) n fun b w' n' =>
      if b then Ready mode V M K w' i n' n'.commit ∧ Leads w' i else Rep mode V w' i n' := by
  obtain ⟨r, hr, hri⟩ := h.live.leads hst
  have hstep : Step (params mode V) i w (w.append i e) := by
    refine .append hr hri he.term he.ok he.fits fun hc k e' hk hc' => ?_
    exact he.after (isConfig_iff.mp hc) k e' hk (isConfig_iff.mp hc')
  have hcl := h.live.commit_le hinv
  have hlog : (w.append i e).log i = w.log i ++ [e] := Function.update_self ..
  unfold appendLocal
  refine Sim.seq_get (Sim.seq (Q := fun b w' n' => if b then
      w' = w.append i e ∧ ∃ s', n' = { n with store := s' } ∧
        Ready mode V M K w' i { n with store := s', log := n.log ++ [e] } n.commit
      else Rep mode V w' i n') (callStoreOrFail_sim ?_ ?_) ?_)
  · exact fun s' hs => ⟨_, .single hstep, rfl, s', rfl, h.append hinv hst hs hstep hK he.after⟩
  · exact fun err s' hs => h.fail (h.live.stored.append_error hs)
  · rintro (_ | _) w' n' - hQ
    · exact Sim.ret hQ
    · obtain ⟨rfl, s', rfl, hready⟩ := hQ
      refine Sim.seq_update (Sim.seq_get (Sim.seq_check_of hready.live.stored fun bit hbit => ?_))
      refine Sim.seq_check_of hready.live.stored fun alone halone => ?_
      refine Sim.ite (fun ha => ?_) fun _ => Sim.ret ⟨hready, r, hr, hri⟩
      subst ha
      refine commitAlone_sim hready (hinv.step hstep) ⟨r, hr, hri⟩ ?_ ?_ hbit halone
      · rw [hlog]; simp; omega
      · intro e' he'
        rw [hlog] at he'
        simp at he'
        rw [← he']; exact he.term

/-- An entry that changes no configuration may always be appended. -/
theorem MayAppend.of_keep {e : Entry} (ht : e.term = w.term i) (hv : e.Valid)
    (hk : e.isConfig = false) : MayAppend mode V w i e where
  term := ht
  ok := ⟨hv, fun _ => hk⟩
  fits := by
    have : e.change = .keep := by
      unfold Entry.isConfig at hk
      unfold Entry.change
      cases hkk : e.kind <;> simp [hkk] at hk ⊢
    rw [this]; trivial
  after := fun hc => by rw [hk] at hc; cases hc

/-! ## Proposals -/

theorem proposeEntry_sim {e : Entry} (h : Rep mode V w i n) (hinv : Inv (params mode V) w)
    (hst : n.state = .leader) (ht : e.term = n.term) (hv : e.Valid) (hk : e.isConfig = false) :
    NSim mode V i w (proposeEntry e) n fun _ w' n' => Rep mode V w' i n' := by
  have hr := h.ready_of_state (by rw [hst]; nofun)
  unfold proposeEntry
  refine Sim.seq (appendLocal_sim hr hinv hst
    (.of_keep (ht.trans hr.live.1.term_eq.symm) hv hk) fun _ => hk) ?_
  rintro (_ | _) w' n' hs hQ
  · exact Sim.ret hQ
  · refine Sim.seq (broadcastAppend_sim hQ.1 (hinv.steps hs) hQ.2) ?_
    exact fun _ w'' n'' _ hc => Sim.ret (hc.rep hQ.1)

theorem propose_sim {command : UInt64} (h : Rep mode V w i n) (hinv : Inv (params mode V) w) :
    NSim mode V i w (propose command) n fun _ w' n' => Rep mode V w' i n' := by
  unfold propose
  refine Sim.seq_get (Sim.ite (fun _ => Sim.ret h) fun hc => ?_)
  rw [not_or, not_not] at hc
  exact proposeEntry_sim h hinv hc.1 rfl ⟨rfl, rfl, .inl rfl⟩ rfl

theorem proposeRequest_sim {operation : CommandOp} {clientID requestID key value : UInt64}
    (h : Rep mode V w i n) (hinv : Inv (params mode V) w) :
    NSim mode V i w (proposeRequest operation clientID requestID key value) n
      fun _ w' n' => Rep mode V w' i n' := by
  unfold proposeRequest
  refine Sim.seq_get (Sim.ite (fun _ => Sim.ret h) fun hc => ?_)
  simp only [not_or, not_not, not_and_or] at hc
  obtain ⟨h1, -, h2, h3, h4⟩ := hc
  exact proposeEntry_sim h hinv h1 rfl ⟨rfl, rfl, .inr ⟨h4, h2, h3⟩⟩ rfl

/-- Without a change in flight, the node's voters are those of its whole log. -/
theorem Ready.cfg_log (h : Ready mode V M True w i n n.commit) (hinv : Inv (params mode V) w)
    (hp : n.pendingConfig = 0) :
    (params mode V).cfg (w.log i) = toCfg n.votersOld n.votersNew ∧
      ∀ k e', (w.log i)[k]? = some e' → e'.isConfig = true → k < w.commit i := by
  have hnone : ∀ k e', (w.log i)[k]? = some e' → e'.isConfig = true → k < n.commit := by
    intro k e' hk hc
    by_contra hge
    have := h.pending trivial k e' (by omega) hk hc
    omega
  refine ⟨?_, h.live.1.commit_eq ▸ hnone⟩
  rw [h.live.2.2.1]
  conv_lhs => rw [← List.take_length (l := w.log i)]
  refine Params.cfg_take_eq (h.live.commit_le hinv) fun k e hk _ hke hc => ?_
  have := hnone k e hke (isConfig_iff.mp hc)
  omega

theorem Ready.setPending (h : Ready mode V M K w i n c) :
    Ready mode V M True w i { n with pendingConfig := n.lastIndex } c := by
  refine ⟨h.id, h.sent, h.faulted, h.live, h.matched, fun _ k e _ hk _ => ?_⟩
  show k < n.lastIndex
  rw [h.live.lastIndex_eq]; exact getElem?_lt hk

theorem proposeConfig_sim {e : Entry} (h : Ready mode V True False w i n n.commit)
    (hinv : Inv (params mode V) w) (hst : n.state = .leader) (he : MayAppend mode V w i e) :
    NSim mode V i w (proposeConfig e) n fun _ w' n' => Rep mode V w' i n' := by
  unfold proposeConfig
  refine Sim.seq (appendLocal_sim h hinv hst he nofun) ?_
  rintro (_ | _) w' n' hs hQ
  · exact Sim.ret hQ
  · have hp := hQ.1.setPending
    refine Sim.seq_update (Sim.seq (broadcastAppend_sim hp (hinv.steps hs) hQ.2) ?_)
    exact fun _ w'' n'' _ hc => Sim.ret (hc.rep hp)

theorem proposeJoint_sim {newVoters : List Nat} (h : Rep mode V w i n)
    (hinv : Inv (params mode V) w) (hmode : mode.members = true) (hV : V ≠ 0) :
    NSim mode V i w (proposeJoint newVoters) n fun _ w' n' => Rep mode V w' i n' := by
  unfold proposeJoint
  refine Sim.seq_check_of h.stored fun newMask hmask => Sim.seq_get ?_
  cases newMask with
  | none => exact Sim.ret h
  | some newMask =>
    refine Sim.ite (fun _ => Sim.ret h) fun hc => ?_
    simp only [not_or, not_not] at hc
    obtain ⟨hst, hf, hnew, hpend⟩ := hc
    have hr := h.ready_of_state (by rw [hst]; nofun)
    obtain ⟨hcfg, hafter⟩ := hr.cfg_log hinv hpend
    have hold : n.votersOld ≠ 0 := by
      have := cfg_old_ne_zero mode hV fun e (he : e ∈ w.log i) => Inv.valid hinv he
      rwa [hcfg] at this
    have hr' := (hr.ensurePeers newMask).1
    obtain ⟨peers, next, mtch, heq, -⟩ := ensurePeers_eq n newMask
    refine Sim.seq_update ?_
    rw [heq] at hr' ⊢
    refine proposeConfig_sim ⟨hr'.id, hr'.sent, hr'.faulted, hr'.live, hr'.matched, nofun⟩ hinv
      hst ?_
    refine ⟨hr.live.1.term_eq.symm, ⟨⟨hold, voterMask_ne_zero hmask⟩, ?_⟩, ?_, fun _ => hafter⟩
    · intro hm; rw [hmode] at hm; cases hm
    · show Config.Fits _ (Consensus.Change.joint n.votersOld newMask)
      rw [hcfg, Config.Fits, toCfg, if_pos hnew]

theorem proposeFinal_sim (h : Rep mode V w i n)
    (hinv : Inv (params mode V) w) (hmode : mode.members = true) :
    NSim mode V i w proposeFinal n fun _ w' n' => Rep mode V w' i n' := by
  unfold proposeFinal
  refine Sim.seq_get (Sim.ite (fun _ => Sim.ret h) fun hc => ?_)
  simp only [not_or, not_not] at hc
  obtain ⟨hst, hf, hnew, hpend⟩ := hc
  have hr := h.ready_of_state (by rw [hst]; nofun)
  obtain ⟨hcfg, hafter⟩ := hr.cfg_log hinv hpend
  refine proposeConfig_sim ⟨hr.id, hr.sent, hr.faulted, hr.live, hr.matched, nofun⟩ hinv hst ?_
  refine ⟨hr.live.1.term_eq.symm, ⟨⟨hnew, rfl⟩, ?_⟩, ?_, fun _ => hafter⟩
  · intro hm; rw [hmode] at hm; cases hm
  · show Config.Fits _ (Consensus.Change.final n.votersNew)
    rw [hcfg, Config.Fits, toCfg, if_neg hnew]

/-! ## Hearing from peers -/

omit [DurableStore σ] [LawfulStore σ] in
/-- Who is counted for `index`. -/
theorem mem_ackedMask {index v : Nat} {acked : Mask} (h : n.ackedMask index = .ok acked)
    (hv : Mem v acked) : v = n.id ∨ v ∈ n.peers ∧ index ≤ n.matchIdx v := by
  obtain ⟨own, hown, h⟩ := check_ok h
  obtain ⟨rfl, hid, hid'⟩ := nodeBit_ok hown
  suffices key : ∀ (ps : List Nat) (a : Mask), (∀ p ∈ ps, p ∈ n.peers) →
      (∀ v, Mem v a → v = n.id ∨ v ∈ n.peers ∧ index ≤ n.matchIdx v) →
      ps.foldlM (n.addAck index) a = .ok acked →
      v = n.id ∨ v ∈ n.peers ∧ index ≤ n.matchIdx v from
    key n.peers (bit n.id) (fun _ hp => hp) (fun v hv => .inl ((mem_bit hid hid').mp hv)) h
  intro ps
  induction ps with
  | nil => intro a _ ha hr; cases hr; exact ha v hv
  | cons p ps ih =>
    intro a hps ha hr
    rw [List.foldlM_cons] at hr
    obtain ⟨a', ha', hr⟩ := check_ok hr
    refine ih a' (fun q hq => hps q (List.mem_cons_of_mem _ hq)) ?_ hr
    unfold Node.addAck at ha'
    split at ha'
    · rename_i hge
      obtain ⟨b, hb, ha'⟩ := check_ok ha'
      obtain ⟨rfl, h1, h2⟩ := nodeBit_ok hb
      cases ha'
      intro u hu
      rcases mem_or.mp hu with hu | hu
      · exact ha u hu
      · rw [(mem_bit h1 h2).mp hu]; exact .inr ⟨hps p List.mem_cons_self, hge⟩
    · cases ha'; exact ha

/-- The end of a method of a leader: the messages it sends. -/
theorem commitIndex_sim {index : Nat} {acked : Mask} (h : Ready mode V True True w i n n.commit)
    (hinv : Inv (params mode V) w) (hst : n.state = .leader) (hlt : n.commit < index)
    (hterm : n.termAtMust index = .ok n.term) (hacked : n.ackedMask index = .ok acked)
    (hcan : n.canCommitIndex index acked = .ok true) :
    NSim mode V i w (commitIndex index) n fun _ w' n' => Rep mode V w' i n' ∧
      (n'.state = .leader → Leads w' i) := by
  obtain ⟨-, hle, hlast⟩ := h.live.termAtMust_inv hterm
  have hl := h.live.leads hst
  have hsteps : Steps (params mode V) i w
      ((w.ack i index).advance i index fun v => Mem v acked) := by
    refine commit_steps hinv hl (by rw [h.live.1.commit_eq]; omega) hle ?_ ?_ ?_
    · intro e he
      have := lastTerm_take (P := params mode V) he
      rw [show index - 1 + 1 = index by omega, ← hlast] at this
      exact this.symm.trans h.live.1.term_eq.symm
    · intro v hv
      rcases mem_ackedMask hacked hv with hv | ⟨hp, hge⟩
      · exact .inl (hv.trans h.id)
      · rcases h.matched trivial hst v hp with h0 | hack
        · omega
        · rw [← h.live.1.term_eq] at hack
          exact .inr (hinv.acked_down hack hge)
    · rw [h.live.1.commit_eq]
      exact h.live.canCommitIndex_quorum hinv hlt.le hle hcan
  unfold commitIndex
  refine Sim.seq_get (Sim.seq (Q := fun b w' n' => if b then
      Ready mode V True True w' i { n' with commit := index } n.commit ∧ Inv (params mode V) w' ∧
        Leads w' i ∧ n'.baseIndex = n.baseIndex
      else Rep mode V w' i n' ∧ n'.state = .follower) (callStoreOrFail_sim ?_ ?_) ?_)
  · exact fun s' hs => ⟨_, hsteps, h.advance hinv hs hlt hsteps, hinv.steps hsteps, hl, rfl⟩
  · exact fun e s' hs => ⟨h.fail (h.live.stored.saveHardState_error hs), rfl⟩
  · rintro (_ | _) w' n' - hQ
    · exact Sim.ret ⟨hQ.1, fun hst' => by rw [hQ.2] at hst'; cases hst'⟩
    · obtain ⟨hr, hinv', hl', hbase⟩ := hQ
      refine Sim.seq_update (Sim.seq (applyCommittedConfigurations_sim hr hinv' ?_ hlt.le rfl) ?_)
      · show n'.baseIndex ≤ n.commit
        rw [hbase]; have := h.live.2.1; omega
      · rintro - w'' n'' - ⟨rfl, hr'⟩
        refine Sim.seq_get (Sim.ite (fun _ => ?_) fun _ => Sim.ret ⟨hr'.rep, fun _ => hl'⟩)
        refine Sim.seq (broadcastAppend_sim hr' hinv' hl') fun _ w3 n3 _ hc => Sim.ret ?_
        exact ⟨hc.rep hr', fun _ => hc.1 ▸ hl'⟩

theorem advanceCommit_sim (h : Ready mode V True True w i n n.commit)
    (hinv : Inv (params mode V) w) (hst : n.state = .leader) :
    NSim mode V i w advanceCommit n fun _ w' n' => Rep mode V w' i n' ∧
      (n'.state = .leader → Leads w' i) := by
  unfold advanceCommit
  refine Sim.seq_get (Sim.seq_check_of h.live.stored fun target ht => ?_)
  cases target with
  | none => exact Sim.ret ⟨h.rep, fun _ => h.live.leads hst⟩
  | some index =>
    obtain ⟨hlt, hterm, acked, hacked, hcan⟩ := Node.commitTarget_some ht
    exact commitIndex_sim h hinv hst hlt hterm hacked hcan

theorem recordReadAck_sim {m : Message} (h : Ready mode V M K w i n n.commit) :
    NSim mode V i w (recordReadAck m) n fun _ w' n' => w' = w ∧ ∃ mask index ready,
      n' = { n with readAckMask := mask, readIndex := index, readReady := ready } := by
  have hsame : ∃ mask index ready,
      n = { n with readAckMask := mask, readIndex := index, readReady := ready } :=
    ⟨n.readAckMask, n.readIndex, n.readReady, rfl⟩
  unfold recordReadAck
  refine Sim.seq_get (Sim.ite (fun _ => ?_) fun _ => Sim.ret ⟨rfl, hsame⟩)
  refine Sim.seq_check_of h.live.stored fun voter _ => ?_
  refine Sim.ite (fun _ => ?_) fun _ => Sim.ret ⟨rfl, hsame⟩
  refine Sim.seq_check_of h.live.stored fun bit _ => Sim.seq_update (Sim.seq_get ?_)
  refine Sim.seq_check_of h.live.stored fun ready _ => ?_
  exact Sim.ite (fun _ => Sim.update ⟨rfl, _, _, _, rfl⟩) fun _ => Sim.ret ⟨rfl, _, _, _, rfl⟩

/-- A leader that heard what a peer holds. -/
theorem Ready.setMatch {p k : Nat} (h : Ready mode V True K w i n c) (next : Nat)
    (hack : w.acked n.term p k) :
    Ready mode V True K w i ((n.setMatch p k).setNext p next) c := by
  refine ⟨h.id, h.sent, h.faulted, h.live, fun _ hst q hq => ?_, h.pending⟩
  show Function.update n.matchIdx p k q = 0 ∨ w.acked n.term q (Function.update n.matchIdx p k q)
  by_cases hqp : q = p
  · subst hqp; rw [Function.update_self]; exact .inr hack
  · rw [Function.update_of_ne hqp]; exact h.matched trivial hst q hq

theorem onAppendResponse_sim {m : Message} (h : Ready mode V True True w i n n.commit)
    (hinv : Inv (params mode V) w) (hm : m.reject = false → w.acked m.term m.src m.matchIndex) :
    NSim mode V i w (onAppendResponse m) n fun _ w' n' => Rep mode V w' i n' := by
  unfold onAppendResponse
  refine Sim.seq (recordReadAck_sim h) ?_
  rintro - w' n' - ⟨rfl, mask, ridx, ready, rfl⟩
  have hr : Ready mode V True True w' i
      { n with readAckMask := mask, readIndex := ridx, readReady := ready } n.commit :=
    ⟨h.id, h.sent, h.faulted, h.live, h.matched, h.pending⟩
  refine Sim.seq_get (Sim.ite (fun _ => Sim.ret hr.rep) fun hc => ?_)
  simp only [not_or, not_not] at hc
  obtain ⟨hst, hterm, -⟩ := hc
  refine Sim.ite (fun _ => ?_) fun hrej => ?_
  · -- a rejection only moves the next index
    refine Sim.seq_update ?_
    have hr' : Ready mode V True True w' i (if n.next m.src > 1 then
        { n with readAckMask := mask, readIndex := ridx, readReady := ready }.setNext m.src
          (n.next m.src - 1)
        else { n with readAckMask := mask, readIndex := ridx, readReady := ready }) n.commit := by
      split
      · exact ⟨h.id, h.sent, h.faulted, h.live, h.matched, h.pending⟩
      · exact hr
    refine (appendTo_sim hr' hinv (h.live.leads hst)).mono fun _ w'' n'' _ hcast => ?_
    have hcm := hcast.commit_eq
    have hready := hcast.ready hr'
    rw [show n.commit = n''.commit by rw [hcm]; split <;> rfl] at hready
    exact hready.rep
  · have hack := hm (by simpa using hrej)
    rw [hterm] at hack
    have hr' := hr.setMatch (m.matchIndex + 1) hack
    refine Sim.seq_update (Sim.seq (advanceCommit_sim hr' hinv hst) ?_)
    rintro ok w'' n'' hs ⟨hrep, hlead⟩
    refine Sim.seq_get (Sim.ite (fun hc => ?_) fun _ => Sim.ret hrep)
    have hr'' := hrep.ready_of_state (by rw [hc.2.1]; nofun)
    exact (appendTo_sim hr'' (hinv.steps hs) (hlead hc.2.1)).mono fun _ _ _ _ hcast =>
      hcast.rep hr''

theorem onInstallSnapshotResponse_sim {m : Message} (h : Ready mode V True True w i n n.commit)
    (hinv : Inv (params mode V) w) (hm : m.reject = false → w.acked m.term m.src m.matchIndex) :
    NSim mode V i w (onInstallSnapshotResponse m) n fun _ w' n' => Rep mode V w' i n' := by
  unfold onInstallSnapshotResponse
  refine Sim.seq_get (Sim.ite (fun _ => Sim.ret h.rep) fun hc => ?_)
  simp only [not_or, not_not] at hc
  obtain ⟨hst, hterm, hrej⟩ := hc
  have hack := hm (by simpa using hrej)
  rw [hterm] at hack
  refine Sim.seq_check_of h.live.stored fun voter _ => ?_
  refine Sim.ite (fun _ => ?_) fun _ => Sim.ret h.rep
  refine Sim.seq_update (Sim.seq_get ?_)
  have hr' : ∀ n', n' = (if m.matchIndex > n.matchIdx m.src then
      (n.setMatch m.src m.matchIndex).setNext m.src (m.matchIndex + 1) else n) →
      Ready mode V True True w i n' n'.commit ∧ Leads w i := by
    rintro n' rfl
    refine ⟨?_, h.live.leads hst⟩
    split
    · exact h.setMatch (m.matchIndex + 1) hack
    · exact h
  obtain ⟨hr', hl⟩ := hr' _ rfl
  refine Sim.ite (fun _ => ?_) fun _ => Sim.ret hr'.rep
  exact (appendTo_sim hr' hinv hl).mono fun _ _ _ _ hcast => hcast.rep hr'

/-! ## Transfers and reads -/

theorem transferLeadership_sim {target : Nat} (h : Rep mode V w i n)
    (hinv : Inv (params mode V) w) :
    NSim mode V i w (transferLeadership target) n fun _ w' n' => Rep mode V w' i n' := by
  unfold transferLeadership
  refine Sim.seq_get (Sim.ite (fun _ => Sim.ret h) fun hc => ?_)
  rw [not_or, not_not] at hc
  have hr := h.ready_of_state (by rw [hc.1]; nofun)
  refine Sim.seq_check_of h.stored fun voter _ => ?_
  refine Sim.ite (fun _ => Sim.ite (fun _ => ?_) fun _ => ?_) fun _ => Sim.ret h
  · refine Sim.seq (appendTo_sim hr hinv (hr.live.leads hc.1)) fun _ _ _ _ hcast => ?_
    exact Sim.ret (hcast.rep hr)
  · refine Sim.seq (send_sim h.stored h.sent trivial) fun _ _ _ _ hcast => ?_
    exact Sim.ret (hcast.rep hr)

theorem startReadIndex_sim {context : UInt64} (h : Rep mode V w i n)
    (hinv : Inv (params mode V) w) :
    NSim mode V i w (startReadIndex context) n fun _ w' n' => Rep mode V w' i n' := by
  unfold startReadIndex
  refine Sim.seq_get (Sim.ite (fun _ => Sim.ret h) fun hc => ?_)
  simp only [not_or, not_not] at hc
  have hr := h.ready_of_state (by rw [hc.1]; nofun)
  have hl := hr.live.leads hc.1
  refine Sim.seq_check_of h.stored fun t _ => Sim.seq_check_of h.stored fun bit _ => ?_
  refine Sim.seq_check_of h.stored fun ready _ => ?_
  refine Sim.ite (fun _ => Sim.ret h) fun _ => Sim.seq_update ?_
  have hr' : Ready mode V True True w i { n with
      readContext := context, readAckMask := bit, readReady := ready
      readIndex := if ready then n.commit else n.readIndex } n.commit :=
    ⟨hr.id, hr.sent, hr.faulted, hr.live, hr.matched, hr.pending⟩
  refine Sim.seq (Sim.each (Casts.refl hr'.sent) fun p _ w' n' hcast => ?_)
    fun _ w' n' _ hcast => Sim.ret (hcast.rep hr')
  have hready := hcast.ready hr'
  obtain rfl : w' = w := hcast.1
  exact (appendToContext_sim hready hinv hl).mono fun _ _ _ _ hc' => hcast.trans hc'

end Promtact.Raft
