import Promtact.Raft.Sanity

/-!
# Why a node raises its term

A node goes to a higher term when a message of that term tells it to, when its leader hands over, or
when a quorum of the voters has granted it a pre-vote for exactly the next term
(`term_raised_by_quorum`). The grants are counted in `preVoteMask`, for the term `preVoteTerm`:
every identifier in the mask is the node's own, or that of a voter whose grant was received since
the node was started (`History.granted`).

A grant that is received a second time adds nothing to the mask, but the mask is compared with the
voters again. If the configuration has become smaller in between, the grants may be a quorum now
(`duplicate_grant_starts_election`).
-/

namespace Promtact.Raft

open Refine Network

variable {σ : Type}

/-! ## Calls without messages -/

/-- The node has the same term and the same voters. -/
structure SameView (n n' : Node σ) : Prop where
  id : n'.id = n.id
  term : n'.term = n.term
  log : n'.log = n.log
  baseIndex : n'.baseIndex = n.baseIndex
  commit : n'.commit = n.commit
  votersOld : n'.votersOld = n.votersOld
  votersNew : n'.votersNew = n.votersNew

namespace SameView

variable {n n' n'' : Node σ}

theorem refl (n : Node σ) : SameView n n := ⟨rfl, rfl, rfl, rfl, rfl, rfl, rfl⟩

theorem trans (h : SameView n n') (h' : SameView n' n'') : SameView n n'' :=
  ⟨h'.id.trans h.id, h'.term.trans h.term, h'.log.trans h.log, h'.baseIndex.trans h.baseIndex,
    h'.commit.trans h.commit, h'.votersOld.trans h.votersOld, h'.votersNew.trans h.votersNew⟩

theorem effectiveVoters (h : SameView n n') : n'.effectiveVoters = n.effectiveVoters := by
  have hentry : n'.entryAt = n.entryAt := by
    funext k
    rw [Node.entryAt, Node.entryAt, Node.entryAt?, Node.entryAt?, Node.offset, Node.offset,
      Node.lastIndex, Node.lastIndex, h.log, h.baseIndex]
  rw [Node.effectiveVoters, Node.effectiveVoters, Node.jointVoters, Node.jointVoters, hentry,
    Node.lastIndex, Node.lastIndex, h.log, h.baseIndex, h.commit, h.votersOld, h.votersNew]

theorem quorumMask (h : SameView n n') (mask : Mask) : n'.quorumMask mask = n.quorumMask mask := by
  rw [Node.quorumMask, Node.quorumMask, h.effectiveVoters]

theorem send {m : Message} (h : SameView n n') :
    Triple (fun _ => True) (Raft.send m) n' fun _ n'' => SameView n n'' :=
  send_rule trivial (h.trans ⟨rfl, rfl, rfl, rfl, rfl, rfl, rfl⟩)

theorem appendTo (h : SameView n n') (p : Nat) :
    Triple (fun _ => True) (Raft.appendTo p) n' fun _ n'' => SameView n n'' := by
  unfold Raft.appendTo appendToContext
  refine Sim.seq_get (Sim.ite (fun _ => h.send) fun _ => Sim.seq_update (Sim.seq_get ?_))
  refine Sim.seq_check_of trivial fun m _ => SameView.send (h.trans ?_)
  split <;> exact ⟨rfl, rfl, rfl, rfl, rfl, rfl, rfl⟩

theorem broadcastAppend (h : SameView n n') :
    Triple (fun _ => True) Raft.broadcastAppend n' fun _ n'' => SameView n n'' := by
  unfold Raft.broadcastAppend
  refine Sim.seq_get (Sim.each (I := fun _ n'' => SameView n n'') h fun p _ _ n'' h'' => ?_)
  refine Sim.seq_get (Sim.seq_check_of trivial fun voter _ => Sim.ite (fun _ => h''.appendTo p) fun _ => ?_)
  exact Sim.ret h''

end SameView

section

variable [StableStore σ] {n n' : Node σ} {m : Message}

/-- A tick leaves the term, unless the node alone is a quorum. -/
theorem tick_view : Triple (fun _ => True) tick n fun _ n' =>
    SameView n n' ∨ n.quorumMask (bit n.id) = .ok true := by
  unfold tick
  have hwait : ∀ k, SameView n { n with elapsed := k } :=
    fun _ => ⟨rfl, rfl, rfl, rfl, rfl, rfl, rfl⟩
  refine Sim.seq_get (Sim.ite (fun _ => Sim.ret (.inl (.refl n))) fun _ => ?_)
  refine Sim.seq_update (Sim.seq_get (Sim.ite (fun _ => ?_) fun _ => ?_))
  · refine Sim.ite (fun _ => Sim.seq_update ?_) fun _ => Sim.ret (.inl (hwait _))
    exact (SameView.broadcastAppend (hwait 0)).mono fun _ _ _ _ h => .inl h
  refine Sim.ite (fun _ => ?_) fun _ => Sim.ret (.inl (hwait _))
  unfold startPreVote
  refine Sim.seq_get (Sim.seq_check_of trivial fun b hb => Sim.seq_update (Sim.seq_get ?_))
  obtain ⟨rfl, -⟩ := nodeBit_ok hb
  -- the requests do not change the mask
  refine Sim.seq (Sim.each (I := fun _ n' => SameView n n' ∧ n'.preVoteMask = bit n.id)
    ⟨⟨rfl, rfl, rfl, rfl, rfl, rfl, rfl⟩, rfl⟩ fun p _ _ n' h' => ?_) fun _ _ n' _ h' => ?_
  · refine Sim.seq_get (Sim.seq_check_of trivial fun lastTerm _ => ?_)
    exact send_rule trivial ⟨h'.1.trans ⟨rfl, rfl, rfl, rfl, rfl, rfl, rfl⟩, h'.2⟩
  · refine Sim.seq_get (Sim.seq_check_of trivial fun won hwon => ?_)
    rw [h'.2, h'.1.quorumMask] at hwon
    cases won with
    | false => exact Sim.ret (.inl h'.1)
    | true => exact Triple.intro fun _ _ => .inr hwon

/-- What a node comes to that is only ticked and drained. -/
inductive Unheard (n : Node σ) : Node σ → Prop
  | refl : Unheard n n
  | tick {n₁ n₂ : Node σ} {u : Unit} (h : Unheard n n₁) (hx : Op.run .tick n₁ = .ok u n₂) : Unheard n n₂
  | drain {n₁ : Node σ} (h : Unheard n n₁) : Unheard n { n₁ with outbound := [] }

theorem Unheard.view (h : Unheard n n') : SameView n n' ∨ n.quorumMask (bit n.id) = .ok true := by
  induction h with
  | refl => exact .inl (.refl n)
  | tick _ hx ih =>
    rcases ih with ih | ih
    · rcases tick_view.ok hx with h' | h'
      · exact .inl (ih.trans h')
      · exact .inr (by rwa [ih.quorumMask, ih.id] at h')
    · exact .inr ih
  | drain _ ih => exact ih.imp_left fun ih => ih.trans ⟨rfl, rfl, rfl, rfl, rfl, rfl, rfl⟩

/-! ## Pre-vote messages -/

/-- The response of a voter that grants the pre-vote the node asks for now. -/
def Node.Granted (n : Node σ) (m : Message) : Prop :=
  n.state ≠ .leader ∧ n.isVoter m.src = .ok true ∧ m.term = n.term + 1 ∧ m.term = n.preVoteTerm ∧
    m.reject = false

theorem onPreVoteResponse_rule : Triple (fun _ => True) (onPreVoteResponse m) n fun _ n' =>
    n' = n ∨ n.Granted m ∧ (n' = { n with preVoteMask := n.preVoteMask ||| bit m.src } ∨
      n.quorumMask (n.preVoteMask ||| bit m.src) = .ok true) := by
  unfold onPreVoteResponse
  refine Sim.seq_get (Sim.ite (fun _ => Sim.ret (.inl rfl)) fun hl => ?_)
  refine Sim.seq_check_of trivial fun voter hvoter => ?_
  refine Sim.ite (fun hc => ?_) fun _ => Sim.ret (.inl rfl)
  obtain ⟨rfl, hterm, hpre, hreject⟩ := hc
  have hg : n.Granted m := ⟨hl, hvoter, hterm, hpre, hreject⟩
  refine Sim.seq_check_of trivial fun b hb => Sim.seq_update (Sim.seq_get ?_)
  obtain ⟨rfl, -⟩ := nodeBit_ok hb
  refine Sim.seq_check_of trivial fun won hwon => ?_
  cases won with
  | false => exact Sim.ret (.inr ⟨hg, .inl rfl⟩)
  | true => exact Triple.intro fun _ _ => .inr ⟨hg, .inr hwon⟩

/-- Messages of a pre-vote do not bring a new term. -/
theorem step_preVote_rule {Q : Node σ → Prop} (htype : m.type.isPreVote = true) (hq : Q n)
    (h : Triple (fun _ => True) (handle m) n fun _ => Q) :
    Triple (fun _ => True) (step m) n fun _ => Q := by
  unfold step
  refine Sim.seq_get (Sim.ite (fun _ => Sim.ret hq) fun _ => Sim.ite (fun hnew => ?_) fun _ => h)
  cases hnew.1.symm.trans htype

theorem step_preVoteResponse_rule (htype : m.type = .preVoteResponse) :
    Triple (fun _ => True) (step m) n fun _ n' =>
      n' = n ∨ n.Granted m ∧ (n' = { n with preVoteMask := n.preVoteMask ||| bit m.src } ∨
        n.quorumMask (n.preVoteMask ||| bit m.src) = .ok true) := by
  refine step_preVote_rule (by rw [htype]; rfl) (.inl rfl) ?_
  unfold handle
  rw [htype]
  exact onPreVoteResponse_rule

/-- The message is no reason for an election: a request, or a response that is not a grant for the
next term by a voter, or a grant that is counted already and does not make a quorum. -/
def Node.Unmoved (n : Node σ) (m : Message) : Prop :=
  m.type = .preVote ∨ m.type = .preVoteResponse ∧ (m.reject = true ∨ m.term ≠ n.term + 1 ∨
    m.term ≠ n.preVoteTerm ∨ n.isVoter m.src = .ok false ∨
    Mem m.src n.preVoteMask ∧ n.quorumMask n.preVoteMask = .ok false)

/-- What the hard state and the role of a node are. -/
def SameRole (n n' : Node σ) : Prop :=
  n'.term = n.term ∧ n'.votedFor = n.votedFor ∧ n'.state = n.state ∧ n'.store = n.store

theorem or_bit_of_mem {mask : Mask} {k : Nat} (h : Mem k mask) : mask ||| bit k = mask := by
  refine eq_of_mem_iff fun j => ?_
  rw [mem_or, mem_bit h.valid.1 h.valid.2]
  exact ⟨fun hj => hj.elim id fun hj => hj ▸ h, .inl⟩

theorem Node.Unmoved.step (h : n.Unmoved m) :
    Triple (fun _ => True) (Raft.step m) n fun _ n' => SameRole n n' := by
  have hsame : SameRole n n := ⟨rfl, rfl, rfl, rfl⟩
  rcases h with htype | ⟨htype, h⟩
  · refine step_preVote_rule (by rw [htype]; rfl) hsame ?_
    unfold handle
    rw [htype]
    unfold onPreVote
    refine Sim.seq_get (Sim.seq_check_of trivial fun _ _ => Sim.seq_check_of trivial fun _ _ => ?_)
    exact send_rule trivial ⟨rfl, rfl, rfl, rfl⟩
  · refine (step_preVoteResponse_rule htype).mono fun _ _ n' _ hn' => ?_
    rcases hn' with rfl | ⟨⟨-, hvoter, hterm, hpre, hreject⟩, rfl | hq⟩
    · exact hsame
    · exact ⟨rfl, rfl, rfl, rfl⟩
    -- it started an election, so it was a grant of a voter that was not counted before
    rcases h with h | h | h | h | ⟨hmem, h⟩
    · cases hreject.symm.trans h
    · exact absurd hterm h
    · exact absurd hpre h
    · cases hvoter.symm.trans h
    · rw [or_bit_of_mem hmem] at hq
      cases hq.symm.trans h

end

/-! ## Where the grants come from -/

/-- The pre-votes that were counted stay, and so does what they were asked for. -/
structure SameBallot (n n' : Node σ) : Prop where
  id : n'.id = n.id
  mask : n'.preVoteMask = n.preVoteMask
  term : n'.preVoteTerm = n.preVoteTerm

namespace SameBallot

variable {n n' n'' : Node σ}

theorem refl (n : Node σ) : SameBallot n n := ⟨rfl, rfl, rfl⟩

theorem trans (h : SameBallot n n') (h' : SameBallot n' n'') : SameBallot n n'' :=
  ⟨h'.id.trans h.id, h'.mask.trans h.mask, h'.term.trans h.term⟩

theorem ensurePeers (n : Node σ) (mask : Mask) : SameBallot n (n.ensurePeers mask) := by
  obtain ⟨peers, next, mtch, heq⟩ := n.ensurePeers_same mask
  rw [heq]
  exact ⟨rfl, rfl, rfl⟩

theorem track (n : Node σ) : SameBallot n n.track := by
  obtain ⟨next, mtch, heq⟩ := n.track_eq
  rw [heq]
  exact ⟨rfl, rfl, rfl⟩

theorem configure (n : Node σ) (e : Entry) : SameBallot n (n.configure e) := by
  unfold Node.configure
  split
  · have hvoters : SameBallot n { n with votersOld := e.oldVoters, votersNew := e.newVoters } :=
      ⟨rfl, rfl, rfl⟩
    exact hvoters.trans (ensurePeers _ _)
  · unfold Node.retire
    split <;> exact ⟨rfl, rfl, rfl⟩
  · exact refl n

theorem settle (n : Node σ) (first last : Nat) : SameBallot n (n.settle first last) := by
  refine List.foldlRecOn _ _ (refl n) fun n h k _ => h.trans ?_
  unfold Node.settleAt
  split
  · rename_i e _
    refine (configure n e).trans ?_
    unfold Node.clearPending
    split <;> exact ⟨rfl, rfl, rfl⟩
  · exact refl n

theorem note (n : Node σ) (index : Nat) (e : Entry) : SameBallot n (n.note index e) := by
  unfold Node.note
  split
  · have hpending : SameBallot n { n with pendingConfig := index } := ⟨rfl, rfl, rfl⟩
    exact hpending.trans (ensurePeers _ _)
  · exact refl n

theorem trim (n : Node σ) (index : Nat) : SameBallot n (n.trim index) := by
  unfold Node.trim
  split
  · have hcut : SameBallot n
        { n with log := n.log.take (index - n.baseIndex), pendingConfig := 0 } := ⟨rfl, rfl, rfl⟩
    refine List.foldlRecOn _ _ hcut fun n h k _ => h.trans ?_
    unfold Node.noteAt
    split
    · exact note n k _
    · exact refl n
  · exact refl n

theorem recover {id timeout : Nat} {peers : List Nat} {store : σ} {d : Recovery}
    (h : Raft.recover id peers timeout store d = .ok n) : n.preVoteMask = 0 := by
  have hcheck : ∀ n : Node σ, n.checkRecovered.preVoteMask = n.preVoteMask := by
    intro n
    obtain ⟨peers, next, mtch, voters, pending, heq | heq⟩ := n.checkRecovered_same <;> rw [heq]
    rfl
  obtain ⟨n₀, hn₀, h⟩ := recover_cases h
  obtain ⟨-, -, heq⟩ := newNodeWithStore_ok hn₀
  have h₀ : n₀.preVoteMask = 0 := by rw [heq]
  rcases h with rfl | rfl | rfl
  · exact (hcheck _).trans h₀
  · exact h₀
  · have hp := ensurePeers (n₀.atSnapshot d) (d.snapshot.oldVoters ||| d.snapshot.newVoters)
    have hat : (n₀.atSnapshot d).preVoteMask = 0 := h₀
    rw [hcheck]
    generalize (n₀.atSnapshot d).ensurePeers _ = m at hp ⊢
    exact hp.mask.trans hat

end SameBallot

variable [StableStore σ] {n n' n₀ : Node σ} {op : Op} {ops : List Op}

/-- One of the calls was a response in which `k` grants its pre-vote for `term`. -/
def Grants (ops : List Op) (term k : Nat) : Prop :=
  ∃ m, .step m ∈ ops ∧ m.type = .preVoteResponse ∧ m.src = k ∧ m.term = term ∧ m.reject = false

/-- Every pre-vote that is counted is the node's own, or it was granted for the term that the node
asks for. -/
def Counted (ops : List Op) (n : Node σ) : Prop :=
  ∀ k, Mem k n.preVoteMask → k = n.id ∨ Grants ops n.preVoteTerm k

omit [StableStore σ] in
theorem SameBallot.counted (h : SameBallot n n') (hc : Counted ops n) : Counted ops n' := by
  unfold Counted
  rw [h.id, h.mask, h.term]
  exact hc

omit [StableStore σ] in
theorem Counted.mono (h : Counted ops n) (op : Op) : Counted (op :: ops) n := fun k hk =>
  (h k hk).imp_right fun ⟨m, hm, hg⟩ => ⟨m, List.mem_cons_of_mem _ hm, hg⟩

theorem Counted.change (h : Counted (op :: ops) n) (hc : Change op n₀ n n') :
    Counted (op :: ops) n' := by
  cases hc with
  | preVote hop hl hbit =>
    obtain ⟨rfl, h0, h64⟩ := nodeBit_ok hbit
    exact fun k hk => .inl ((mem_bit h0 h64).mp hk)
  | @preVoteAck m bit hop htype hl hvoter hterm hpre hreject hbit =>
    obtain ⟨rfl, h0, h64⟩ := nodeBit_ok hbit
    intro k hk
    rcases mem_or.mp hk with hk | hk
    · exact h k hk
    · have hm : Op.step m ∈ op :: ops := by rw [hop]; exact List.mem_cons_self
      exact .inr ⟨m, hm, htype, ((mem_bit h0 h64).mp hk).symm, hpre, hreject⟩
  | campaign => exact fun k hk => absurd rfl (ne_zero_of_mem hk)
  | track ht =>
    cases ht with
    | start => exact (SameBallot.track n).counted h
    | clamp | back | ack | snapshotAck => exact h
  | ensure hop mask => exact (SameBallot.ensurePeers n mask).counted h
  | commit => exact (SameBallot.settle _ _ _).counted h
  | store => exact (SameBallot.note _ _ _).counted ((SameBallot.trim n _).counted h)
  | storeError => exact (SameBallot.trim n _).counted h
  | save hp =>
    cases hp with
    | own => exact h
    | install => exact h
  | _ => exact h

/-! ## The history of a node -/

/-- The node has been made or recovered, and has taken the calls `ops` since then, the last one
first. -/
inductive History (id : Nat) (peers : List Nat) (timeout : Nat) : List Op → Node σ → Prop
  | new {store : σ} {n : Node σ} (h : newNodeWithStore id peers timeout store = .ok n) :
      History id peers timeout [] n
  | recovered {store : σ} {d : Recovery} {n : Node σ} (h : recover id peers timeout store d = .ok n) :
      History id peers timeout [] n
  | call {ops : List Op} {op : Op} {n n' : Node σ} {u : Unit} (h : History id peers timeout ops n)
      (hx : op.run n = .ok u n') : History id peers timeout (op :: ops) n'
  | drain {ops : List Op} {n : Node σ} (h : History id peers timeout ops n) :
      History id peers timeout ops { n with outbound := [] }

variable {id timeout : Nat} {peers : List Nat}

theorem History.granted (h : History id peers timeout ops n) : Sane n ∧ Addressed id n ∧ Counted ops n := by
  have hnone : ∀ {n : Node σ}, n.preVoteMask = 0 → Counted [] n := fun h0 _ hk =>
    absurd h0 (ne_zero_of_mem hk)
  induction h with
  | new h =>
    have ha := Addressed.new h
    obtain ⟨-, -, heq⟩ := newNodeWithStore_ok h
    refine ⟨?_, ha, hnone (by rw [heq])⟩
    rw [heq]
    exact ⟨List.cons_ne_nil _ _, nofun⟩
  | recovered h => exact ⟨recover_sane h, .recover h, hnone (SameBallot.recover h)⟩
  | @call ops op n n' _ _ hx ih =>
    obtain ⟨hs, ha, hc⟩ := ih
    have hx' := op.keepsChanges (I := Counted (op :: ops)) hs (hc.mono op) hx
      fun _ h₁ hchange => h₁.change hchange
    exact ⟨hx'.1, ha.call hs hx, hx'.2⟩
  | drain _ ih =>
    obtain ⟨hs, ha, hc⟩ := ih
    exact ⟨⟨hs.log, hs.stopped⟩,
      ⟨ha.id, ⟨ha.ids.id, ha.ids.peers, ha.ids.nodup⟩, fun _ hm => absurd hm List.not_mem_nil⟩, hc⟩

/-! ## Why the term is raised -/

/-- Why a call raises the term of a node. -/
inductive Raises (ops : List Op) (n : Node σ) : Op → Prop
  | newTerm {m : Message} (htype : m.type.isPreVote = false) (hterm : n.term < m.term) :
      Raises ops n (.step m)
  | timeoutNow {m : Message} (htype : m.type = .timeoutNow) (hterm : m.term = n.term)
      (hknown : n.leader ≠ 0) (hsrc : m.src = n.leader) : Raises ops n (.step m)
  | preVoted {op : Op} {mask : Mask} (hq : n.quorumMask mask = .ok true)
      (hgrants : ∀ k, Mem k mask →
        n.isVoter k = .ok true ∧ (k = n.id ∨ Grants (op :: ops) (n.term + 1) k)) : Raises ops n op

omit [StableStore σ] in
/-- Only voters matter for a quorum. -/
theorem Node.quorumMask_voters {mask : Mask} (h : n.quorumMask mask = .ok true) :
    ∃ mask', n.quorumMask mask' = .ok true ∧ ∀ k, Mem k mask' → n.isVoter k = .ok true ∧ Mem k mask := by
  obtain ⟨voters, hv, hq⟩ := check_ok h
  have hand : ∀ v, (∀ k, Mem k v → Mem k (voters.1 ||| voters.2)) →
      majorityMask v (mask &&& (voters.1 ||| voters.2)) = majorityMask v mask := by
    intro v hsub
    have heq : v &&& (mask &&& (voters.1 ||| voters.2)) = v &&& mask :=
      eq_of_mem_iff fun k => by rw [mem_and, mem_and, mem_and]; exact ⟨fun h => ⟨h.1, h.2.1⟩,
        fun h => ⟨h.1, h.2, hsub k h.1⟩⟩
    rw [majorityMask, majorityMask, heq]
  refine ⟨mask &&& (voters.1 ||| voters.2), ?_, fun k hk => ?_⟩
  · rw [Node.quorumMask, hv, ← hq]
    show Except.ok (quorumOf _ _) = Except.ok (quorumOf _ _)
    rw [quorumOf, quorumOf, hand _ fun k hk => mem_or.mpr (.inl hk),
      hand _ fun k hk => mem_or.mpr (.inr hk)]
  · obtain ⟨hk, hvoter⟩ := mem_and.mp hk
    refine ⟨?_, hk⟩
    rw [Node.isVoter, hv]
    show (nodeBit k >>= _) = _
    rw [hk.valid.nodeBit]
    have hne := ne_zero_of_mem (mem_and.mpr ⟨hvoter, mem_bit_self hk.valid⟩)
    exact congrArg Except.ok (bne_iff_ne.mpr hne)

omit [StableStore σ] in
theorem Counted.raises (h : Counted (op :: ops) n) (ht : n.preVoteTerm = n.term + 1)
    (hq : n.quorumMask n.preVoteMask = .ok true) : Raises ops n op := by
  obtain ⟨mask, hq, hmask⟩ := Node.quorumMask_voters hq
  refine .preVoted hq fun k hk => ⟨(hmask k hk).1, ?_⟩
  rw [← ht]
  exact h k (hmask k hk).2

theorem Change.term (h : Change op n₀ n n') (hlog : n.log ≠ []) : n'.term = n.term ∨
    (∃ m, op = .step m ∧ m.type.isPreVote = false ∧ n.term < m.term) ∨ Campaigns op n := by
  cases h with
  | newTerm hr hop htype ht hs => exact .inr (.inl ⟨_, hop, htype, ht⟩)
  | campaign hr hwhy hbit hs => exact .inr (.inr hwhy)
  | track ht => exact .inl ht.volatile.term
  | ensure hop mask => exact .inl (Frame.ensurePeers n mask).term
  | commit => exact .inl (Volatile.settle _ _ _).term
  | store hr hm hs => exact .inl (hm.stored hlog _).term
  | storeError hm hs => exact .inl (hm.trim hlog).term
  | save hp =>
    cases hp with
    | own => exact .inl rfl
    | install => exact .inl rfl
  | _ => exact .inl rfl

/-- Without a new term, only a quorum of pre-votes or a leader that hands over makes a node raise
its term. -/
theorem Op.term_eq {u : Unit} (hs : Sane n) (hx : op.run n = .ok u n') (htick : op ≠ .tick)
    (hstep : ∀ m, op = .step m →
      m.type ≠ .preVoteResponse ∧ m.type ≠ .timeoutNow ∧ (m.type.isPreVote = false → m.term ≤ n.term)) :
    n'.term = n.term := by
  refine (op.keepsChanges (I := fun n₁ => n₁.term = n.term) hs rfl hx fun {n₁ n₂} hs₁ h₁ hc => ?_).2
  rcases hc.term hs₁.log with heq | ⟨m, hop, htype, hlt⟩ | hwhy
  · exact heq.trans h₁
  · have := (hstep m hop).2.2 htype
    omega
  · cases hwhy with
    | timeoutNow hop htype => exact absurd htype (hstep _ hop).2.1
    | preVoted hop =>
      rcases hop with hop | ⟨m, hop, htype⟩
      · exact absurd hop htick
      · exact absurd htype (hstep m hop).1

theorem onTimeoutNow_rule {m : Message} : Triple (fun _ => True) (onTimeoutNow m) n fun _ n' =>
    n' = n ∨ m.term = n.term ∧ m.src = n.leader := by
  unfold onTimeoutNow
  exact Sim.seq_get (Sim.ite (fun hc => Triple.intro fun _ _ => .inr hc.2) fun _ => Sim.ret (.inl rfl))

theorem History.raises {u : Unit} (h : History id peers timeout ops n) (hx : op.run n = .ok u n')
    (hsrc : ∀ m, op = .step m → m.src ≠ 0) (hterm : n'.term ≠ n.term) : Raises ops n op := by
  obtain ⟨hs, ha, hc⟩ := h.granted
  by_cases htick : op = .tick
  · subst htick
    rcases tick_view.ok hx with hv | hq
    · exact absurd hv.term hterm
    · obtain ⟨mask, hq, hmask⟩ := Node.quorumMask_voters hq
      refine .preVoted hq fun k hk => ⟨(hmask k hk).1, .inl ?_⟩
      exact (mem_bit ha.ids.id.1 ha.ids.id.2).mp (hmask k hk).2
  by_cases hstep : ∃ m, op = .step m
  · obtain ⟨m, rfl⟩ := hstep
    by_cases hnew : m.type.isPreVote = false ∧ n.term < m.term
    · exact .newTerm hnew.1 hnew.2
    have hle : m.type.isPreVote = false → m.term ≤ n.term := fun hp =>
      Nat.not_lt.mp fun hlt => hnew ⟨hp, hlt⟩
    by_cases hresponse : m.type = .preVoteResponse
    · rcases (step_preVoteResponse_rule hresponse).ok hx with
        heq | ⟨⟨-, hvoter, ht, hpre, hreject⟩, heq | hq⟩
      · exact absurd (by rw [heq]) hterm
      · exact absurd (by rw [heq]) hterm
      -- the mask with the new grant is a quorum
      have hvalid := Node.valid_of_isVoter hvoter
      have hbit : Counted (.step m :: ops)
          { n with preVoteMask := n.preVoteMask ||| bit m.src } := by
        intro k hk
        rcases mem_or.mp hk with hk | hk
        · exact hc.mono _ k hk
        · rw [(mem_bit hvalid.1 hvalid.2).mp hk]
          exact .inr ⟨m, List.mem_cons_self, hresponse, rfl, hpre, hreject⟩
      cases hbit.raises (hpre.symm.trans ht) hq with
      | newTerm htype hlt => exact absurd ⟨htype, hlt⟩ hnew
      | timeoutNow htype => cases hresponse.symm.trans htype
      | preVoted hq hgrants => exact .preVoted hq hgrants
    by_cases hnow : m.type = .timeoutNow
    · have hrule : Triple (fun _ => True) (step m) n fun _ n' =>
          n' = n ∨ m.term = n.term ∧ m.src = n.leader := by
        unfold step
        refine Sim.seq_get (Sim.ite (fun _ => Sim.ret (.inl rfl)) fun _ =>
          Sim.ite (fun h => absurd h hnew) fun _ => ?_)
        unfold handle
        rw [hnow]
        exact onTimeoutNow_rule
      rcases hrule.ok hx with heq | ⟨ht, hleader⟩
      · exact absurd (by rw [heq]) hterm
      · exact .timeoutNow hnow ht (hleader ▸ hsrc m rfl) hleader
    · refine absurd (Op.term_eq hs hx nofun fun m' hm' => ?_) hterm
      cases hm'
      exact ⟨hresponse, hnow, hle⟩
  · exact absurd (Op.term_eq hs hx htick fun m hm => absurd ⟨m, hm⟩ hstep) hterm

/-- The term of a node goes up for one of the three reasons only. Pre-vote messages that do not
complete a quorum change neither its hard state nor its role, and without messages the term stays
unless the node alone is a quorum. -/
theorem term_raised_by_quorum (h : History id peers timeout ops n) :
    (∀ op u n', op.run n = .ok u n' → (∀ m, op = .step m → m.src ≠ 0) → n'.term ≠ n.term →
      Raises ops n op) ∧
    (∀ m u n', n.Unmoved m → (Op.step m).run n = .ok u n' → SameRole n n') ∧
    ∀ n', Unheard n n' → n'.term ≠ n.term → n.quorumMask (bit n.id) = .ok true := by
  refine ⟨fun op u n' hx hsrc hterm => h.raises hx hsrc hterm,
    fun m u n' hm hx => hm.step.ok hx, fun n' hn' hterm => ?_⟩
  rcases hn'.view with hv | hq
  · exact absurd hv.term hterm
  · exact hq

/-- One node of three, when nobody answers. -/
theorem term_raised_by_quorum_silent :
    ∃ n : Node Disk, newNodeWithStore 1 [2, 3] 10 {} = .ok n ∧ ∀ n', Unheard n n' → n'.term = 0 := by
  refine ⟨_, rfl, fun n' hn' => ?_⟩
  have hnew : newNodeWithStore 1 [2, 3] 10 ({} : Disk) = .ok _ := rfl
  by_contra hterm
  exact absurd ((term_raised_by_quorum (History.new hnew)).2.2 n' hn' hterm) (by decide)

/-! ## Runs -/

/-- Every node of a run has a history, and takes only calls with a sender. -/
theorem Setup.lives {σ : Type} [DurableStore σ] [LawfulStore σ] (S : Setup σ) :
    S.Keeps (fun _ _ _ => True)
      (fun id n => Addressed id n ∧ ∃ ops, History id (S.peers id) (S.timeout id) ops n)
      fun m => m.src ≠ 0 where
  new h := ⟨.new h, _, .new h⟩
  recovered h := ⟨.recover h, _, .recovered h⟩
  call hs h _ _ hx := ⟨h.1.call hs hx, _, h.2.choose_spec.call hx⟩
  drain h := ⟨⟨(S.keepsIds.drain h.1).1, _, h.2.choose_spec.drain⟩,
    fun m hm => Nat.ne_of_gt ((S.keepsIds.drain h.1).2 m hm).1⟩

/-- Four nodes that are all voters. -/
def quartet : Setup Disk where
  ids := [1, 2, 3, 4]
  peers id := [1, 2, 3, 4].filter (· ≠ id)
  timeout id := id
  store _ := {}
  voters := 15
  agree id hid := by
    simp only [List.mem_cons, List.not_mem_nil, or_false] at hid
    rcases hid with rfl | rfl | rfl | rfl <;> rfl
  empty _ _ := ⟨rfl, trivial⟩

/-- Node 3 grants its pre-vote to node 4, which is not a quorum of four. Then the leader, node 1,
takes node 2 out of the configuration. -/
def shrinkingRun : Option (Cluster Disk) :=
  quartet.start.play quartet.act (fun _ _ _ => True) (Move.calls 1 .tick ++
    Move.deliverAll [0, 1, 3, 4, 5, 6, 8, 9, 11, 12, 13, 14, 15, 16] ++
    [Move.call 3 .tick, Move.call 3 .tick] ++ Move.calls 3 .tick ++
    [Move.call 4 .tick, Move.call 4 .tick, Move.call 4 .tick] ++ Move.calls 4 .tick ++
    Move.deliverAll [24, 25, 17, 18] ++ Move.calls 1 (.proposeJoint [1, 3, 4]) ++
    Move.deliverAll [30, 31, 32, 33, 35, 36] ++ Move.calls 1 .proposeFinal ++
    Move.deliverAll [40, 41, 42, 43, 45])

/-- The grant that is counted already arrives once more, and the node starts an election. -/
theorem duplicate_grant_starts_election :
    ∃ c n m n', Net.Runs quartet.act (fun _ _ _ => True) quartet.start c ∧ nodeAt c 4 = some n ∧
      m ∈ c.sent ∧ m.dst = 4 ∧ m.type = .preVoteResponse ∧ Mem m.src n.preVoteMask ∧
      m.term = n.preVoteTerm ∧ (Op.step m).run n = .ok () n' ∧
      n.term = 1 ∧ n.state = .follower ∧ n'.term = 2 ∧ n'.state = .candidate := by
  have h : shrinkingRun.any (fun c => (nodeAt c 4).any fun n => c.sent[25]?.any fun m =>
      decide (m.dst = 4 ∧ m.type = .preVoteResponse ∧ m.src = 3 ∧ n.preVoteMask.getLsbD 2 = true ∧
        m.term = n.preVoteTerm ∧ n.term = 1 ∧ n.state = .follower) &&
      match (Op.step m).run n with
      | .ok _ n' => decide (n'.term = 2 ∧ n'.state = .candidate)
      | .error _ _ => false) = true := by
    decide +kernel
  simp only [Option.any_eq_true, Bool.and_eq_true, decide_eq_true_eq] at h
  obtain ⟨c, hc, n, hn, m, hm, ⟨hdst, htype, hsrc, hmem, hpre, ht, hs⟩, hstep⟩ := h
  split at hstep
  · rename_i n' hx
    obtain ⟨ht', hs'⟩ := of_decide_eq_true hstep
    exact ⟨c, n, m, n', .of_play hc, hn, List.mem_of_getElem? hm, hdst, htype,
      ⟨by omega, by rw [hsrc]; exact hmem⟩, hpre, hx, ht, hs, ht', hs'⟩
  · cases hstep

end Promtact.Raft
