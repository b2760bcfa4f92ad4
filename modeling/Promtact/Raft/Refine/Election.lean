import Promtact.Raft.Refine.Lead

/-!
# Elections

A candidate enters a new term, stands in it and votes for itself (`startElection_sim`). A member
votes for a candidate whose log is up to date (`onVote_sim`), and a candidate that counts a quorum
of votes leads (`becomeLeader_sim`). That no other member leads the term is a consequence of the
record (`Consensus.Inv.election_safety`).
-/

namespace Promtact.Raft

open Refine Consensus

variable {σ : Type} [DurableStore σ] [LawfulStore σ] {mode : Mode} {V : Mask}
  {w : World Nat Entry} {i : Nat} {n : Node σ} {M K : Prop} {c : Nat}

/-! ## Winning -/

/-- The loop of `becomeLeader` over the peers. -/
theorem resetPeers_sim {last : Nat} (h : Ready mode V M K w i n c) :
    NSim mode V i w (n.peers.forM fun p => modify fun m => (m.setNext p last).setMatch p 0) n
      fun _ w' n' => w' = w ∧ Ready mode V True K w i n' c ∧ n'.commit = n.commit := by
  suffices key : ∀ (ps done : List Nat) (m : Node σ), done ++ ps = n.peers →
      (∃ next mtch, m = { n with next := next, matchIdx := mtch } ∧ ∀ p ∈ done, mtch p = 0) →
      NSim mode V i w (ps.forM fun p => modify fun m => (m.setNext p last).setMatch p 0) m
        fun _ w' n' => w' = w ∧ ∃ next mtch, n' = { n with next := next, matchIdx := mtch } ∧
          ∀ p ∈ n.peers, mtch p = 0 by
    refine (key n.peers [] n rfl ⟨n.next, n.matchIdx, rfl, nofun⟩).mono ?_
    rintro - w' n' - ⟨rfl, next, mtch, rfl, h0⟩
    exact ⟨rfl, ⟨h.id, h.sent, h.faulted, h.live, fun _ _ p hp => .inl (h0 p hp), h.pending⟩, rfl⟩
  intro ps
  induction ps with
  | nil =>
    rintro done m hd ⟨next, mtch, rfl, h0⟩
    rw [List.append_nil] at hd
    exact Sim.ret ⟨rfl, next, mtch, rfl, hd ▸ h0⟩
  | cons p ps ih =>
    rintro done m hd ⟨next, mtch, rfl, h0⟩
    refine Sim.seq_update (ih (done ++ [p]) _ (by simpa using hd) ⟨_, _, rfl, fun q hq => ?_⟩)
    by_cases hqp : q = p
    · subst hqp; exact Function.update_self ..
    · show Function.update mtch p 0 q = 0
      rw [Function.update_of_ne hqp]
      rcases List.mem_append.mp hq with hq | hq
      · exact h0 q hq
      · exact absurd (List.mem_singleton.mp hq) hqp

/-- A candidate with a quorum of votes is the first to lead its term. -/
theorem win_step (h : Live mode V w i n n.commit) (hinv : Inv (params mode V) w)
    (hst : n.state = .candidate) (hq : n.quorumMask n.voteMask = .ok true) :
    Step (params mode V) i w (w.win i fun v => Mem v n.voteMask) := by
  obtain ⟨hcand, hnot, hvotes⟩ := h.2.2.2.candidate hst
  have hquorum := h.quorumMask_quorum hinv hq
  have hnone : w.lead n.term = none := by
    cases hr : w.lead n.term with
    | none => rfl
    | some r => exact absurd (hinv.election_safety hr hcand hquorum hvotes).symm (hnot r hr)
  rw [← h.1.term_eq] at hcand hvotes hnone
  rw [← h.1.commit_eq] at hquorum
  exact .win hcand hnone hvotes hquorum

theorem becomeLeader_sim (h : Ready mode V True True w i n n.commit)
    (hinv : Inv (params mode V) w) (hst : n.state = .candidate)
    (hq : n.quorumMask n.voteMask = .ok true) :
    NSim mode V i w becomeLeader n fun _ w' n' => Rep mode V w' i n' := by
  have hstep := win_step h.live hinv hst hq
  have hx := hinv.ext_step hstep
  have hinv' := hinv.step hstep
  have hlead : (w.win i fun v => Mem v n.voteMask).lead (w.term i) =
      some ⟨i, w.log i, w.commit i, fun v => Mem v n.voteMask⟩ := Function.update_self ..
  -- what it recorded of its peers in earlier terms is out of date
  have hr : Ready mode V False True (w.win i fun v => Mem v n.voteMask) i
      { n with state := .leader, leader := n.id, elapsed := 0 } n.commit := by
    refine ⟨h.id, h.sent.ext hinv hx, h.faulted, ⟨?_, h.live.2.1, h.live.2.2.1, nofun, ?_⟩, nofun,
      h.pending⟩
    · have := h.live.1
      exact { holds := this.holds, clean := this.clean, term_eq := this.term_eq
              vote_eq := this.vote_eq, commit_eq := this.commit_eq, log_eq := this.log_eq
              base_eq := this.base_eq, baseTerm_eq := this.baseTerm_eq
              covers := this.covers, serial := this.serial }
    · rw [h.live.1.term_eq] at hlead
      exact fun _ => ⟨_, hlead, rfl⟩
  unfold becomeLeader
  refine Sim.step hstep (Sim.seq_update (Sim.seq_get (Sim.seq (appendLocal_sim hr hinv' rfl
    (.of_keep hr.live.1.term_eq.symm ⟨rfl, rfl, rfl, rfl⟩ rfl) fun _ => rfl) ?_)))
  rintro (_ | _) w' n' hs hQ
  · exact Sim.ret hQ
  · refine Sim.seq_get (Sim.seq (resetPeers_sim hQ.1) ?_)
    rintro - w'' n'' - ⟨rfl, hr', hcm⟩
    rw [← hcm] at hr'
    exact (broadcastAppend_sim hr' (hinv'.steps hs) hQ.2).mono fun _ _ _ _ hc => hc.rep hr'

/-! ## Standing -/

/-- The world in which member `i` stands for election in the next term. -/
def campaign (w : World Nat Entry) (i : Nat) : World Nat Entry :=
  ((w.bump i (w.term i + 1)).stand i).grant i i

theorem campaign_steps (hinv : Inv (params mode V) w) :
    Steps (params mode V) i w (campaign w i) := by
  have ht : (w.bump i (w.term i + 1)).term i = w.term i + 1 := Function.update_self ..
  have hnone : w.cand (w.term i + 1) i = none := by
    cases hc : w.cand (w.term i + 1) i with
    | none => rfl
    | some ℓ => have := (hinv.cand_le hc).2; omega
  have h1 : Step (params mode V) i w (w.bump i (w.term i + 1)) := .bump (Nat.lt_succ_self _)
  have h2 : Step (params mode V) i (w.bump i (w.term i + 1))
      ((w.bump i (w.term i + 1)).stand i) := by
    refine .stand (by rw [ht]; omega) (by rw [ht]; exact hnone) fun e he => ?_
    have := (hinv.log_coh i).2 e he
    rw [ht]; omega
  refine ((Relation.ReflTransGen.single h1).tail h2).tail (.grant ?_ ?_ (.inr ⟨rfl, le_rfl⟩))
  · exact Function.update_self ..
  · show (if _ then _ else _) = _
    rw [if_pos ⟨rfl, rfl⟩]; rfl

/-- The voters of member `i` are those of its log, whatever the term. -/
theorem startElection_sim (h : Ready mode V True True w i n n.commit)
    (hinv : Inv (params mode V) w) (hi : 0 < i) :
    NSim mode V i w startElection n fun _ w' n' => Rep mode V w' i n' := by
  have hsteps := campaign_steps (i := i) hinv
  have hx := hinv.ext_steps hsteps
  have hinv' := hinv.steps hsteps
  have hterm : (campaign w i).term i = n.term + 1 := by
    rw [← h.live.1.term_eq]; exact Function.update_self ..
  have hcand : (campaign w i).cand (n.term + 1) i = some (w.log i) := by
    rw [← hterm]; show (if _ then _ else _) = _
    rw [if_pos ⟨rfl, rfl⟩]; rfl
  have hvoted : (campaign w i).voted (n.term + 1) i = some (i, w.log i) := by
    rw [← hterm]; show (if _ then _ else _) = _
    rw [if_pos ⟨rfl, rfl⟩]; rfl
  have hnot : ∀ r, (campaign w i).lead (n.term + 1) = some r → r.leader ≠ i := by
    intro r hr hri
    have := (hinv.cand_le (hinv.lead_cand (t := n.term + 1) hr)).2
    rw [hri, h.live.1.term_eq] at this; omega
  unfold startElection
  refine Sim.seq_get (Sim.seq (Q := fun b w' n' => if b then
      w' = campaign w i ∧ ∃ s, n' = { n with store := s } ∧
        Held mode V w' i s (n.term + 1) n.id n.commit n.baseIndex n.baseTerm n.log n.snapshot
      else Rep mode V w' i n') (callStoreOrFail_sim ?_ ?_) ?_)
  · intro s hs
    refine ⟨_, hsteps, rfl, s, rfl, h.live.1.persist hs hterm ?_ rfl h.live.1.commit_eq ?_⟩
    · show _ = optId n.id
      rw [optId, h.id, if_neg (by omega)]
      exact Function.update_self ..
    · exact le_rfl
  · exact fun e s hs => h.fail (h.live.stored.saveHardState_error hs)
  · rintro (_ | _) w' n' - hQ
    · exact Sim.ret hQ
    obtain ⟨rfl, s, rfl, hheld⟩ := hQ
    refine Sim.seq_check_of hheld.stored fun bit hbit => Sim.seq_update ?_
    obtain ⟨rfl, hid, hid'⟩ := nodeBit_ok hbit
    have hr : Ready mode V True True (campaign w i) i { n with
        store := s, state := .candidate, term := n.term + 1, votedFor := n.id, elapsed := 0
        voteMask := Raft.bit n.id, preVoteMask := 0 } n.commit := by
      refine ⟨h.id, h.sent.ext hinv hx, h.faulted, ⟨hheld, h.live.2.1, h.live.2.2.1, ?_, nofun⟩,
        fun _ => nofun, h.pending⟩
      refine fun _ => ⟨hcand, hnot, fun v hv => ⟨w.log i, ?_⟩⟩
      rw [(mem_bit hid hid').mp hv, h.id]; exact hvoted
    refine Sim.seq_get (Sim.seq (Q := fun _ => Casts mode V (campaign w i) _)
      (Sim.each (Casts.refl hr.sent) fun p _ w' n' hcast => ?_) ?_)
    · have hr' := hcast.ready hr
      obtain ⟨rfl, next, out, enq, rfl, hsent⟩ := hcast
      refine Sim.seq_get (Sim.seq_check hr'.live.lastTerm_ok ?_)
      refine (send_sim hr'.live.stored hr'.sent ?_).mono fun _ _ _ _ hc =>
        Casts.trans ⟨rfl, next, out, enq, rfl, hsent⟩ hc
      refine ⟨w.log i, ?_, hr'.live.lastIndex_eq.symm, rfl⟩
      show (campaign w i).cand (n.term + 1) n.id = some (w.log i)
      rw [h.id]; exact hcand
    · intro _ w' n' _ hcast
      have hr' := hcast.ready hr
      obtain ⟨rfl, next, out, enq, rfl, hsent⟩ := hcast
      refine Sim.seq_get (Sim.seq_check_of hr'.live.stored fun won hwon => ?_)
      refine Sim.ite (fun hw => ?_) fun _ => Sim.ret hr'.rep
      subst hw
      exact becomeLeader_sim hr' hinv' rfl hwon

/-! ## Pre-votes -/

theorem startPreVote_sim (h : Ready mode V True True w i n n.commit)
    (hinv : Inv (params mode V) w) (hi : 0 < i) :
    NSim mode V i w startPreVote n fun _ w' n' => Rep mode V w' i n' := by
  unfold startPreVote
  refine Sim.seq_get (Sim.seq_check_of h.live.stored fun bit _ => Sim.seq_update (Sim.seq_get ?_))
  have hr : Ready mode V True True w i { n with
      elapsed := 0, preVoteTerm := n.term + 1, leader := 0, preVoteMask := bit } n.commit :=
    ⟨h.id, h.sent, h.faulted, h.live, h.matched, h.pending⟩
  refine Sim.seq (Q := fun _ => Casts mode V w _)
    (Sim.each (Casts.refl hr.sent) fun p _ w' n' hcast => ?_) ?_
  · have hr' := hcast.ready hr
    obtain rfl : w' = w := hcast.1
    refine Sim.seq_get (Sim.seq_check_of hr'.live.stored fun t _ => ?_)
    refine (send_sim hr'.live.stored hr'.sent ?_).mono fun _ _ _ _ hc => hcast.trans hc
    trivial
  · intro _ w' n' _ hcast
    have hr' := hcast.ready hr
    obtain ⟨rfl, next, out, enq, rfl, hsent⟩ := hcast
    refine Sim.seq_get (Sim.seq_check_of hr'.live.stored fun won _ => ?_)
    exact Sim.ite (fun _ => startElection_sim hr' hinv hi) fun _ => Sim.ret hr'.rep

theorem tick_sim (h : Rep mode V w i n) (hinv : Inv (params mode V) w) (hi : 0 < i) :
    NSim mode V i w tick n fun _ w' n' => Rep mode V w' i n' := by
  unfold tick
  refine Sim.seq_get (Sim.ite (fun _ => Sim.ret h) fun hf => ?_)
  have hr := h.ready (by simpa using hf)
  have hr' : ∀ e, Ready mode V True True w i { n with elapsed := e } n.commit :=
    fun e => ⟨hr.id, hr.sent, hr.faulted, hr.live, hr.matched, hr.pending⟩
  refine Sim.seq_update (Sim.seq_get (Sim.ite (fun hst => ?_) fun _ => ?_))
  · refine Sim.ite (fun _ => Sim.seq_update ?_) fun _ => Sim.ret (hr' (n.elapsed + 1)).rep
    exact (broadcastAppend_sim (hr' 0) hinv (hr.live.leads hst)).mono fun _ _ _ _ hc =>
      hc.rep (hr' 0)
  · exact Sim.ite (fun _ => startPreVote_sim (hr' (n.elapsed + 1)) hinv hi) fun _ =>
      Sim.ret (hr' (n.elapsed + 1)).rep

theorem onPreVote_sim {m : Message} (h : Ready mode V True True w i n n.commit) :
    NSim mode V i w (onPreVote m) n fun _ w' n' => Rep mode V w' i n' := by
  unfold onPreVote
  refine Sim.seq_get (Sim.seq_check_of h.live.stored fun upToDate _ => ?_)
  refine Sim.seq_check_of h.live.stored fun voter _ => ?_
  refine (send_sim h.live.stored h.sent ?_).mono fun _ _ _ _ hc => hc.rep h
  trivial

theorem onPreVoteResponse_sim {m : Message} (h : Ready mode V True True w i n n.commit)
    (hinv : Inv (params mode V) w) (hi : 0 < i) :
    NSim mode V i w (onPreVoteResponse m) n fun _ w' n' => Rep mode V w' i n' := by
  unfold onPreVoteResponse
  refine Sim.seq_get (Sim.ite (fun _ => Sim.ret h.rep) fun _ => ?_)
  refine Sim.seq_check_of h.live.stored fun voter _ => ?_
  refine Sim.ite (fun _ => ?_) fun _ => Sim.ret h.rep
  refine Sim.seq_check_of h.live.stored fun bit _ => Sim.seq_update (Sim.seq_get ?_)
  have hr : Ready mode V True True w i { n with preVoteMask := n.preVoteMask ||| bit } n.commit :=
    ⟨h.id, h.sent, h.faulted, h.live, h.matched, h.pending⟩
  refine Sim.seq_check_of h.live.stored fun won _ => ?_
  exact Sim.ite (fun _ => startElection_sim hr hinv hi) fun _ => Sim.ret hr.rep

/-! ## Votes -/

theorem upToDate_ok {m : Message} (h : Live mode V w i n c) (hu : n.upToDate m = .ok true)
    {ℓ : List Entry} (hlen : ℓ.length = m.logIndex)
    (hterm : (params mode V).lastTerm ℓ = m.logTerm) :
    (params mode V).UpToDate ℓ (w.log i) := by
  obtain ⟨t, ht, hu⟩ := check_ok hu
  rw [h.lastTerm_ok] at ht
  cases ht
  have hu := Except.ok.inj hu
  simp only [Bool.or_eq_true, Bool.and_eq_true, decide_eq_true_eq, beq_iff_eq] at hu
  rw [h.lastIndex_eq, ← hlen, ← hterm] at hu
  unfold Params.UpToDate
  omega

theorem onVote_sim {m : Message} (h : Ready mode V True True w i n n.commit)
    (hinv : Inv (params mode V) w) (hty : m.type = .requestVote) (hm : ValidMsg mode V w m) :
    NSim mode V i w (onVote m) n fun _ w' n' => Rep mode V w' i n' := by
  unfold ValidMsg at hm
  rw [hty] at hm
  obtain ⟨ℓ, hcand, hlen, hlast⟩ := hm
  unfold onVote
  refine Sim.seq_get (Sim.seq_check_of h.live.stored fun up hup => ?_)
  refine Sim.seq_check_of h.live.stored fun voter hvoter => ?_
  refine Sim.ite (fun hc => ?_) fun _ => ?_
  · obtain ⟨-, hterm, hvote, hupt⟩ := hc
    have hsrc : 0 < m.src := by
      obtain ⟨v, -, hv⟩ := check_ok hvoter
      obtain ⟨b, hb, -⟩ := check_ok hv
      exact (nodeBit_ok hb).2.1
    -- the vote is new, or it was given before
    have hgrant : ∃ w', Steps (params mode V) i w w' ∧ w'.term i = w.term i ∧
        w'.vote i = some m.src ∧ w'.log i = w.log i ∧ w'.commit i = w.commit i ∧
        w'.lead = w.lead ∧ (∃ ℓ', w'.voted (w.term i) i = some (m.src, ℓ')) := by
      have hwv := h.live.1.vote_eq
      rcases hvote with h0 | h0
      · rw [h0] at hwv
        have hstep : Step (params mode V) i w (w.grant i m.src) := by
          refine .grant hwv ?_ (upToDate_ok h.live (hupt ▸ hup) hlen hlast)
          rw [h.live.1.term_eq, ← hterm]; exact hcand
        refine ⟨_, .single hstep, rfl, Function.update_self .., rfl, rfl, rfl, w.log i, ?_⟩
        show (if _ then _ else _) = _
        rw [if_pos ⟨rfl, rfl⟩]
      · rw [h0, optId, if_neg (by omega)] at hwv
        exact ⟨w, .refl, rfl, hwv, rfl, rfl, rfl, hinv.vote_voted hwv⟩
    obtain ⟨w', hsteps, h1, h2, h3, h4, h5, ℓ', h6⟩ := hgrant
    have hx := hinv.ext_steps hsteps
    refine Sim.seq (Q := fun b w'' n' => if b then
        w'' = w' ∧ ∃ s, n' = { n with store := s } ∧
          Held mode V w' i s n.term m.src n.commit n.baseIndex n.baseTerm n.log n.snapshot
        else Rep mode V w'' i n') (callStoreOrFail_sim ?_ ?_) ?_
    · intro s hs
      refine ⟨w', hsteps, rfl, s, rfl, h.live.1.persist hs (h1.trans h.live.1.term_eq) ?_ h3
        (h4.trans h.live.1.commit_eq) ?_⟩
      · show _ = optId m.src
        rw [h2, optId, if_neg (by omega)]
      · exact le_rfl
    · exact fun e s hs => h.fail (h.live.stored.saveHardState_error hs)
    · rintro (_ | _) w'' n' - hQ
      · exact Sim.ret hQ
      obtain ⟨rfl, s, rfl, hheld⟩ := hQ
      have hr : Ready mode V True True w'' i
          { n with store := s, votedFor := m.src, elapsed := 0 } n.commit := by
        refine ⟨h.id, h.sent.ext hinv hx, h.faulted, ⟨hheld, h.live.2.1, h3 ▸ h.live.2.2.1, ?_, ?_⟩,
          fun _ => (h.matched trivial).ext hx, h3 ▸ h.pending⟩
        · intro hst
          obtain ⟨hc, hn, hv⟩ := h.live.2.2.2.candidate hst
          refine ⟨h3 ▸ hx.cand hc, h5 ▸ hn, fun v hv' => ?_⟩
          obtain ⟨ℓ', hℓ'⟩ := hv v hv'
          exact ⟨ℓ', hx.voted hℓ'⟩
        · exact h5 ▸ h.live.2.2.2.leader
      refine Sim.seq_update ((send_sim hr.live.stored hr.sent ?_).mono fun _ _ _ _ hc => hc.rep hr)
      refine fun _ => ⟨ℓ', ?_⟩
      show w''.voted n.term n.id = some (m.src, ℓ')
      rw [h.id, ← h.live.1.term_eq]; exact h6
  · refine (send_sim h.live.stored h.sent ?_).mono fun _ _ _ _ hc => hc.rep h
    exact (nomatch ·)

theorem onVoteResponse_sim {m : Message} (h : Ready mode V True True w i n n.commit)
    (hinv : Inv (params mode V) w)
    (hm : m.reject = false → ∃ ℓ, w.voted m.term m.src = some (i, ℓ)) :
    NSim mode V i w (onVoteResponse m) n fun _ w' n' => Rep mode V w' i n' := by
  unfold onVoteResponse
  refine Sim.seq_get (Sim.ite (fun _ => Sim.ret h.rep) fun hst => ?_)
  rw [not_not] at hst
  refine Sim.seq_check_of h.live.stored fun voter _ => ?_
  refine Sim.ite (fun hc => ?_) fun _ => Sim.ret h.rep
  obtain ⟨-, hterm, hrej⟩ := hc
  refine Sim.seq_check_of h.live.stored fun bit hbit => Sim.seq_update (Sim.seq_get ?_)
  obtain ⟨rfl, hid, hid'⟩ := nodeBit_ok hbit
  have hr : Ready mode V True True w i
      { n with voteMask := n.voteMask ||| Raft.bit m.src } n.commit := by
    refine ⟨h.id, h.sent, h.faulted, ⟨h.live.1, h.live.2.1, h.live.2.2.1, ?_,
      h.live.2.2.2.leader⟩, h.matched, h.pending⟩
    intro hst
    obtain ⟨hcand, hn, hv⟩ := h.live.2.2.2.candidate hst
    refine ⟨hcand, hn, fun v hv' => ?_⟩
    rcases mem_or.mp hv' with hv' | hv'
    · exact hv v hv'
    · rw [(mem_bit hid hid').mp hv', ← hterm]; exact hm hrej
  refine Sim.seq_check_of h.live.stored fun won hwon => ?_
  refine Sim.ite (fun hw => ?_) fun _ => Sim.ret hr.rep
  subst hw
  exact becomeLeader_sim hr hinv hst hwon

theorem onTimeoutNow_sim {m : Message} (h : Ready mode V True True w i n n.commit)
    (hinv : Inv (params mode V) w) (hi : 0 < i) :
    NSim mode V i w (onTimeoutNow m) n fun _ w' n' => Rep mode V w' i n' := by
  unfold onTimeoutNow
  exact Sim.seq_get (Sim.ite (fun _ => startElection_sim h hinv hi) fun _ => Sim.ret h.rep)

end Promtact.Raft
