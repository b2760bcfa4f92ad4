import Promtact.Raft.Changes.Basic

/-!
# The methods of a node as sequences of changes

One lemma per method, in the order of `Promtact.Raft.Handlers`, and `Op.changes` for all of them. A
method panics only if an identifier that it looks up is not one of a node (`Op.Answerable` excludes
that), or if more than `Op.room` messages do not fit into the outbound buffer.
-/

namespace Promtact.Raft

open Refine

variable {σ : Type} [StableStore σ] {op : Op} {n₀ n n' : Node σ} {P : Prop} {j k : Nat} {α : Type}

/-- A running node that has room for `k` messages. -/
structure Going (P : Prop) (k : Nat) (n : Node σ) : Prop extends Fit P n where
  running : n.faulted = false
  room : P ∨ n.outbound.length + k ≤ outboundCapacity

/-- A running node before its method changes the log. -/
structure Begun (P : Prop) (k : Nat) (n₀ n : Node σ) : Prop extends Going P k n where
  since : Since n₀ n

section

omit [StableStore σ]

theorem Going.mono (h : Going P k n) (hj : j ≤ k) : Going P j n :=
  ⟨h.toFit, h.running, h.room.imp_right fun hr => by omega⟩

theorem Going.of_same (h : Going P k n) (hlog : n'.log = n.log) (hid : n'.id = n.id)
    (hpeers : n'.peers = n.peers) (hf : n'.faulted = n.faulted) (hout : n'.outbound = n.outbound) :
    Going P k n' :=
  ⟨h.toFit.of_same hlog hid hpeers, hf.trans h.running, by rw [hout]; exact h.room⟩

theorem Going.enlists (h : Going P k n) (he : Enlists n n') (hv : Frame n n') : Going P k n' :=
  ⟨he.fit h.toFit (by rw [hv.log]; exact h.log), hv.faulted.trans h.running, by
    rw [hv.outbound]
    exact h.room⟩

/-- Messages are sent, at most `k` of them, and next indexes are set to the end of the log. -/
structure Spreads (P : Prop) (k : Nat) (n n' : Node σ) : Prop where
  casting : Casting n n'
  sent : P ∨ n'.outbound.length ≤ n.outbound.length + k
  next : ∀ p, n'.next p = n.next p ∨ n'.next p = n.lastIndex + 1

theorem Spreads.refl (n : Node σ) : Spreads P 0 n n := ⟨.refl n, .inr (Nat.le_refl _), fun _ => .inl rfl⟩

theorem Casting.lastIndex (h : Casting n n') : n'.lastIndex = n.lastIndex := by
  obtain ⟨next, out, enq, rfl⟩ := h
  rfl

theorem Spreads.trans {n'' : Node σ} (h : Spreads P j n n') (h' : Spreads P k n' n'') :
    Spreads P (j + k) n n'' := by
  refine ⟨h.casting.trans h'.casting, ?_, fun p => ?_⟩
  · rcases h.sent with hp | h
    · exact .inl hp
    · exact h'.sent.imp_right fun h' => by omega
  · rcases h'.next p with hp | hp
    · rw [hp]
      exact h.next p
    · exact .inr (hp.trans (by rw [h.casting.lastIndex]))

theorem Spreads.mono (h : Spreads P j n n') (hj : j ≤ k) : Spreads P k n n' :=
  ⟨h.casting, h.sent.imp_right fun h => by omega, h.next⟩

theorem Spreads.going (h : Spreads P j n n') (hg : Going P (j + k) n) : Going P k n' := by
  obtain ⟨⟨next, out, enq, rfl⟩, hlen, -⟩ := h
  refine ⟨hg.toFit.of_same rfl rfl rfl, hg.running, ?_⟩
  rcases hlen with hp | hlen
  · exact .inl hp
  · exact hg.room.imp_right fun hr => by dsimp only at hlen ⊢; omega

theorem Going.peers_length (h : Going P (64 + k) n) : Going P (n.peers.length + k) n := by
  refine ⟨h.toFit, h.running, ?_⟩
  rcases h.ids with hp | hv
  · exact .inl hp
  · have := hv.length_le
    exact h.room.imp_right fun hr => by omega

end

/-! ## Sending -/

/-- A message to each of some peers. -/
theorem Acts.cast {ps : List Nat} {f : Nat → NodeM σ Unit} (h : Going P ps.length n)
    (hf : ∀ p ∈ ps, ∀ n', Casting n n' → Going P 1 n' →
      Acts P op n₀ (f p) n' fun _ n'' => Spreads P 1 n' n'') :
    Acts P op n₀ (ps.forM f) n fun _ n' => Spreads P ps.length n n' := by
  refine (Sim.eachRest (I := fun rest w n' => w = n' ∧ rest.length ≤ ps.length ∧
    Spreads P (ps.length - rest.length) n n') ⟨rfl, Nat.le_refl _, ?_⟩ ?_).mono ?_
  · rw [Nat.sub_self]
    exact .refl n
  · rintro p hp rest w n' ⟨rfl, hle, hn'⟩
    rw [List.length_cons] at hle hn'
    have hg : Going P 1 w :=
      hn'.going (h.mono (show ps.length - (rest.length + 1) + 1 ≤ ps.length by omega))
    exact (hf p hp w hn'.casting hg).mono fun _ n'' hn'' => ⟨by omega, (hn'.trans hn'').mono (by omega)⟩
  · rintro _ w n' - ⟨rfl, -, hn'⟩
    exact ⟨rfl, hn'.mono (by rw [List.length_nil, Nat.sub_zero])⟩

theorem Going.send (h : Going P 1 n) {m : Message} (hm : n.MaySend op m) :
    Acts P op n₀ (Raft.send m) n fun _ n' => Spreads P 1 n n' := by
  refine (Acts.send hm h.room).mono ?_
  rintro _ n' rfl
  refine ⟨⟨_, _, _, rfl⟩, .inr ?_, fun _ => .inl rfl⟩
  show (n.outbound ++ [m]).length ≤ _
  rw [List.length_append, List.length_singleton]

/-- A message at the end of a method. -/
theorem Going.sendLast (h : Going P 1 n) {m : Message} (hm : n.MaySend op m) :
    Acts P op n₀ (Raft.send m) n fun _ _ => True := (h.send hm).mono fun _ _ _ => trivial

omit [StableStore σ] in
theorem Node.appendMessage_ok {p next : Nat} {context : UInt64} {m : Message}
    (h : n.appendMessage p next context = .ok m) :
    m.type = .append ∧ m.src = n.id ∧ m.dst = p ∧ m.term = n.term ∧ m.context = context ∧
      (m.hasEntry = true → m.entry ∈ n.log) := by
  obtain ⟨prevTerm, -, h⟩ := check_ok h
  split at h
  · obtain ⟨entry, he, h⟩ := check_ok h
    cases h
    exact ⟨rfl, rfl, rfl, rfl, rfl, fun _ => Node.entryAt_mem he⟩
  · cases h
    exact ⟨rfl, rfl, rfl, rfl, rfl, nofun⟩

omit [StableStore σ] in
/-- The entry before `next` is retained. -/
theorem Node.appendMessage_total (hlog : n.log ≠ []) {p next : Nat} (context : UInt64)
    (hb : n.baseIndex < next) (hl : next ≤ n.lastIndex + 1) :
    ∃ m, n.appendMessage p next context = .ok m := by
  obtain ⟨t, ht⟩ := Node.termAtMust_ok hlog (show n.baseIndex ≤ next - 1 by omega) (by omega)
  rw [Node.appendMessage, ht]
  show ∃ m, (if next < n.lastIndex + 1 then _ else _) = Except.ok m
  split
  · obtain ⟨e, -, -, he⟩ := Node.entryAt_ok hlog (show n.baseIndex ≤ next by omega) (by omega)
    rw [he]
    exact ⟨_, rfl⟩
  · exact ⟨_, rfl⟩

theorem Going.appendTo (h : Going P 1 n) {p : Nat} {context : UInt64} (hp : n.Addresses op p)
    (hc : context = 0 ∨ op = .startReadIndex context) :
    Acts P op n₀ (appendToContext p context) n fun _ n' => Spreads P 1 n n' := by
  unfold appendToContext
  refine Acts.get (Sim.ite (fun _ => ?_) fun hbase => ?_)
  · exact h.send ⟨h.running, rfl, fun _ => rfl, nofun, nofun, nofun, nofun, nofun, hp, nofun⟩
  -- the next index is in the log or just behind it
  have key : ∀ n' : Node σ, Going P 1 n' → n'.Addresses op p → n'.baseIndex < n'.next p →
      n'.next p ≤ n'.lastIndex + 1 → Acts P op n₀ (do
        let n ← MonadState.get
        let m ← n.appendMessage p (max (n.next p) 1) context
        Raft.send m) n' fun _ n'' => Spreads P 1 n' n'' := by
    intro n' hn' hp' hb hl
    have hok := Node.appendMessage_total hn'.log (p := p) context
      (show n'.baseIndex < max (n'.next p) 1 by omega) (by omega)
    refine Acts.get (Acts.check (.inr hok) fun m hm => hn'.send ?_)
    obtain ⟨htype, hsrc, hdst, hterm, hcontext, hentry⟩ := Node.appendMessage_ok hm
    refine ⟨hn'.running, hsrc, fun _ => hterm, ?_, ?_, fun _ => hcontext ▸ hc, ?_, ?_, hdst ▸ hp', hentry⟩
    all_goals
      intro ht
      rw [htype] at ht
      cases ht
  by_cases hnext : n.next p > n.lastIndex + 1
  · have hset : Spreads P 0 n (n.setNext p (n.lastIndex + 1)) := by
      refine ⟨⟨_, _, _, rfl⟩, .inr (Nat.le_refl _), fun q => ?_⟩
      by_cases hq : q = p
      · subst hq
        exact .inr (Function.update_self ..)
      · exact .inl (Function.update_of_ne hq ..)
    have hself : (n.setNext p (n.lastIndex + 1)).next p = n.lastIndex + 1 := Function.update_self ..
    have hg : Going P 1 (n.setNext p (n.lastIndex + 1)) := hset.going h
    refine Acts.update (n := n) ?_ ?_
    · simp only [if_pos hnext]
      exact .track (.clamp hnext)
    · simp only [if_pos hnext]
      refine (key _ hg hp ?_ ?_).mono fun _ n'' hn'' => (hset.trans hn'')
      · rw [hself]
        exact Nat.lt_succ_of_le (Node.baseIndex_le_lastIndex h.log)
      · rw [hself]
        exact Nat.le_refl _
  · show Acts P op n₀ (modify _ >>= _) n _
    refine Sim.seq_update ?_
    simp only [if_neg hnext]
    exact key n h hp (Nat.not_le.mp hbase) (Nat.not_lt.mp hnext)

theorem Going.broadcast (h : Going P (64 + k) n) :
    Acts P op n₀ broadcastAppend n fun _ n' => Spreads P 64 n n' ∧ Going P k n' := by
  unfold broadcastAppend
  have hcast : Acts P op n₀ (n.peers.forM fun p => do
      let n ← MonadState.get
      let voter ← n.isVoter p
      if voter then Raft.appendTo p else pure ()) n fun _ n' => Spreads P n.peers.length n n' := by
    refine Acts.cast (h.peers_length.mono (Nat.le_add_right _ _)) fun p hp n' hn' hg => Acts.get ?_
    have hvoter : P ∨ ∃ b, n'.isVoter p = .ok b := by
      obtain ⟨next, out, enq, rfl⟩ := hn'
      exact hg.ids.imp_right fun hv => Node.isVoter_ok hg.log (hv.peers p hp)
    refine Acts.check hvoter fun voter _ => ?_
    cases voter with
    | true =>
      refine hg.appendTo (.inl ?_) (.inl rfl)
      obtain ⟨next, out, enq, rfl⟩ := hn'
      exact hp
    | false => exact Acts.ret ((Spreads.refl n').mono (Nat.zero_le _))
  refine Acts.get (hcast.mono fun _ n' hn' => ?_)
  refine ⟨⟨hn'.casting, ?_, hn'.next⟩, hn'.going h.peers_length⟩
  rcases h.ids with hp | hv
  · exact .inl hp
  · have := hv.length_le
    exact hn'.sent.imp_right fun hn' => by omega

/-! ## Leading -/

/-- A commit index is saved and set, and the configurations below it apply. -/
theorem Going.commitTo (h : Going P k n) {index : Nat} {f : Unit → NodeM σ α}
    {Q : α → Node σ → Prop} {s : σ} (hk : index ≤ n.lastIndex) (hc : n.commit < index ∨ index = n.lastIndex)
    (hs : StableStore.saveHardState (n.hardState index) n.store = .ok () s)
    (hf : ∀ n', Going P k n' → Volatile { n with commit := index, store := s } n' →
      Acts P op n₀ (f ()) n' Q) :
    Sim (Change op n₀) (Panics P op) n (applyCommittedConfigurations (n.commit + 1) index >>= f)
      { n with commit := index, store := s } fun a w n' => w = n' ∧ Q a n' := by
  have hg : Going P k { n with commit := index, store := s } := h.of_same rfl rfl rfl rfl rfl
  refine Sim.seq (Triple.sim ((applyCommittedConfigurations_rule hg.log hg.toFit.id hk).weaken
    fun _ n' _ hp => ⟨hp.1, hp.2 ▸ .saved hs⟩)) ?_
  rintro _ w n' - ⟨rfl, rfl⟩
  refine Sim.step (.commit h.running hk hc hs) (hf _ ?_ (.settle _ _ _))
  exact hg.enlists (.settle _ _ _) (Volatile.settle _ _ _).toFrame

theorem Going.commitAlone (h : Going P k n) :
    Acts P op n₀ commitAlone n fun ok n' => if ok then Going P k n' else n'.state = .follower := by
  unfold Raft.commitAlone
  refine Acts.get (Sim.seq_update (Sim.seq_get ?_))
  refine Acts.call (n := { n with commit := n.lastIndex }) (fun s hs => ?_) fun e s hs => ?_
  · exact h.commitTo (Nat.le_refl _) (.inr rfl) hs fun n' hn' _ => Acts.ret hn'
  · -- the commit index is set back after the failure
    refine Sim.seq_update (Sim.step (.persistError (.commit (Nat.le_refl _) (.inr rfl)) hs) ?_)
    exact Sim.ret ⟨rfl, rfl⟩

omit [StableStore σ] in
theorem Going.append (h : Going P k n) (e : Entry) (s : σ) :
    Going P k { n with store := s, log := n.log ++ [e] } :=
  ⟨h.toFit.withLog (List.append_ne_nil_of_right_ne_nil _ (List.cons_ne_nil _ _)) rfl rfl, h.running,
    h.room⟩

/-- An entry is appended, and committed by a single voter. The change is not made yet when the
method goes on. -/
theorem Begun.appendLocal_seq (h : Begun P k n₀ n) {e : Entry} (he : Proposes op n e)
    {g : Bool → NodeM σ α} {Q : α → Node σ → Prop}
    (hlast : ∀ s, StableStore.append (n.lastIndex + 1) e n.store = .ok () s →
      Sim (Change op n₀) (Panics P op) n (g true) { n with store := s, log := n.log ++ [e] }
        fun a w n' => w = n' ∧ Q a n')
    (halone : ∀ s, StableStore.append (n.lastIndex + 1) e n.store = .ok () s →
      Node.quorumMask { n with store := s, log := n.log ++ [e] } (bit n.id) = .ok true →
      Sim (Change op n₀) (Panics P op) n (Raft.commitAlone >>= g)
        { n with store := s, log := n.log ++ [e] } fun a w n' => w = n' ∧ Q a n')
    (herr : ∀ n', n'.state = .follower → Acts P op n₀ (g false) n' Q) :
    Acts P op n₀ (appendLocal e >>= g) n Q := by
  unfold Raft.appendLocal
  rw [bind_assoc]
  refine Acts.get ?_
  rw [bind_assoc]
  refine Acts.call (fun s hs => ?_) fun err s hs => ?_
  · have hg := h.toGoing.append e s
    rw [if_pos rfl, bind_assoc]
    refine Sim.seq_update ?_
    rw [bind_assoc]
    refine Sim.seq_get ?_
    rw [bind_assoc]
    dsimp only
    cases hbit : nodeBit n.id with
    | error err =>
      refine h.toFit.id.elim (fun hp => ⟨n, .refl, hp, .appended he hs⟩) fun hid => ?_
      cases hid.nodeBit.symm.trans hbit
    | ok b =>
      obtain ⟨rfl, -⟩ := nodeBit_ok hbit
      obtain ⟨alone, hq⟩ := Node.quorumMask_ok hg.log (bit n.id)
      refine Sim.seq_check rfl ?_
      rw [bind_assoc]
      refine Sim.seq_check hq ?_
      cases alone with
      | true => exact halone s hs hq
      | false => exact hlast s hs
  · rw [if_neg Bool.false_ne_true]
    exact Sim.step (.appendError h.since hs) (herr _ rfl)

theorem Begun.appendLocal (h : Begun P k n₀ n) {e : Entry} (hl : n.state = .leader)
    (he : Proposes op n e) (hc : e.isConfig = false) {g : Bool → NodeM σ α} {Q : α → Node σ → Prop}
    (hok : ∀ n', Going P k n' → Acts P op n₀ (g true) n' Q)
    (herr : ∀ n', n'.state = .follower → Acts P op n₀ (g false) n' Q) :
    Acts P op n₀ (Raft.appendLocal e >>= g) n Q := by
  have hplain : e.isConfig = true → False := fun h => by cases hc.symm.trans h
  refine h.appendLocal_seq he (fun s hs => ?_) (fun s hs hq => ?_) herr
  · exact Sim.step (.append h.running hl h.since he (fun h => (hplain h).elim) hs)
      (hok _ (h.toGoing.append e s))
  · refine Sim.step (.append h.running hl h.since he (fun h => (hplain h).elim) hs) ?_
    refine Acts.seq (h.toGoing.append e s).commitAlone fun ok n' hn' => ?_
    cases ok with
    | true => exact hok n' hn'
    | false => exact herr n' hn'

/-- The next indexes of a leader are in its log or just behind it. -/
def Paced (n : Node σ) : Prop :=
  n.state = .leader → ∀ p ∈ n.peers, 1 ≤ n.next p ∧ n.next p ≤ n.lastIndex + 1

omit [StableStore σ] in
theorem Paced.of_state (h : n.state ≠ .leader) : Paced n := fun hl => absurd hl h

omit [StableStore σ] in
theorem Paced.casts (h : Paced n) (hc : Spreads P k n n') : Paced n' := by
  intro hl p hp
  rw [hc.casting.lastIndex]
  have hnext := hc.next p
  obtain ⟨⟨next, out, enq, rfl⟩, -, -⟩ := hc
  rcases hnext with hn | hn
  · rw [hn]
    exact h hl p hp
  · rw [hn]
    exact ⟨Nat.le_add_left _ _, Nat.le_refl _⟩

omit [StableStore σ] in
theorem Node.track_next (n : Node σ) {p : Nat} (hp : p ∈ n.peers) : n.track.next p = n.lastIndex + 1 := by
  suffices ∀ (ps : List Nat) (m : Node σ), p ∈ ps ∨ m.next p = n.lastIndex + 1 →
      (ps.foldl (fun m p => (m.setNext p (n.lastIndex + 1)).setMatch p 0) m).next p = n.lastIndex + 1 from
    this _ n (.inl hp)
  intro ps
  induction ps with
  | nil => exact fun m h => h.resolve_left List.not_mem_nil
  | cons q ps ih =>
    intro m h
    refine ih _ ?_
    by_cases hq : p = q
    · subst hq
      exact .inr (Function.update_self ..)
    · refine h.imp (fun h => (List.mem_cons.mp h).resolve_left hq) fun h => ?_
      exact (Function.update_of_ne hq ..).trans h

omit [StableStore σ] in
theorem Paced.track (n : Node σ) : Paced n.track := by
  intro _ p hp
  have hmem : p ∈ n.peers := by
    obtain ⟨next, mtch, heq⟩ := n.track_eq
    rw [heq] at hp
    exact hp
  rw [n.track_next hmem, (Volatile.track n).lastIndex]
  exact ⟨Nat.le_add_left _ _, Nat.le_refl _⟩

theorem Begun.becomeLeader (h : Begun P (64 + k) n₀ n) (hop : op.Elects) (hc : n.state = .candidate)
    (hq : n.quorumMask n.voteMask = .ok true) : Acts P op n₀ becomeLeader n fun _ n' => Paced n' := by
  unfold Raft.becomeLeader
  have hb : Begun P (64 + k) n₀ { n with state := .leader, leader := n.id, elapsed := 0 } :=
    ⟨h.toGoing.of_same rfl rfl rfl rfl rfl,
      ⟨h.since.term, h.since.log, h.since.baseIndex, h.since.commit, h.since.applied⟩⟩
  refine Acts.update (.lead hop hc hq) (Acts.get ?_)
  refine hb.appendLocal rfl .noop rfl (fun n' hn' => Acts.get ?_) fun n' hs =>
    Acts.ret (.of_state (by rw [hs]; decide))
  -- the loop over the peers is one change
  refine Sim.seq_updates ?_
  have hg : Going P (64 + k) n'.track := by
    obtain ⟨next, mtch, heq⟩ := n'.track_eq
    rw [heq]
    exact hn'.of_same rfl rfl rfl rfl rfl
  refine Sim.step (.track .start) (hg.broadcast.mono fun _ n'' hn'' => ?_)
  exact (Paced.track n').casts hn''.1

theorem Begun.proposeEntry (h : Begun P 64 n₀ n) (hl : n.state = .leader) {e : Entry}
    (he : op.Commands n.term e) : Acts P op n₀ (proposeEntry e) n fun _ _ => True := by
  unfold Raft.proposeEntry
  have hc : e.isConfig = false := by rw [Entry.isConfig, he.kind]; rfl
  refine h.appendLocal hl (.command he) hc (fun n' hn' => ?_) fun _ _ => Acts.ret trivial
  exact Acts.seq (hn'.broadcast (k := 0)) fun _ _ _ => Acts.ret trivial

theorem Begun.proposeConfig (h : Begun P 64 n₀ n) (hl : n₀.state = .leader)
    (hstate : n.state = n₀.state) (hid : n.id = n₀.id) (hold : n.votersOld = n₀.votersOld)
    (hnew : n.votersNew = n₀.votersNew) (hp : n.pendingConfig = n₀.pendingConfig) {e : Entry}
    (he : Proposes op n e) (hc : e.isConfig = true) :
    Acts P op n₀ (proposeConfig e) n fun _ _ => True := by
  unfold Raft.proposeConfig
  have hleads : n.state = .leader := hstate.trans hl
  have hsend : ∀ n', Going P 64 n' →
      Acts P op n₀ (do broadcastAppend; pure true) n' fun _ _ => True := fun n' hn' =>
    Acts.seq (hn'.broadcast (k := 0)) fun _ _ _ => Acts.ret trivial
  refine h.appendLocal_seq he (fun s hs => Sim.seq_update ?_) (fun s hs hq => ?_)
    fun _ _ => Acts.ret trivial
  · have hg := h.toGoing.append e s
    have hlast : Node.lastIndex { n with store := s, log := n.log ++ [e] } = n.lastIndex + 1 := by
      have := List.length_pos_of_ne_nil h.log
      unfold Node.lastIndex
      dsimp only
      rw [List.length_append, List.length_singleton]
      omega
    rw [hlast]
    exact Sim.step (.propose h.running hleads h.since he hc hs) (hsend _ (hg.of_same rfl rfl rfl rfl rfl))
  · -- a single voter has committed the entry before it is noted as pending
    have halone : Alone op n₀ := .intro hl h.since hid hold hnew hp he hc hq
    refine Sim.step (.append h.running hleads h.since he (fun _ => halone) hs) ?_
    refine Acts.seq (h.toGoing.append e s).commitAlone fun ok n' hn' => ?_
    cases ok with
    | true => exact Acts.update (.pending halone) (hsend _ (Going.of_same hn' rfl rfl rfl rfl rfl))
    | false => exact Acts.ret trivial

/-! ## Elections -/

/-- A request for votes goes to every peer. -/
theorem Going.request (h : Going P (64 + k) n) {type : MessageType} (term : Node σ → Nat)
    (hsend : ∀ {n'}, Casting n n' → ∀ p ∈ n.peers, ∀ lastTerm, n'.MaySend op
      { type, src := n'.id, dst := p, term := term n', logIndex := n'.lastIndex, logTerm := lastTerm }) :
    Acts P op n₀ (n.peers.forM fun p => do
      let n ← get
      let lastTerm ← n.termAtMust n.lastIndex
      Raft.send { type, src := n.id, dst := p, term := term n
                  logIndex := n.lastIndex, logTerm := lastTerm }) n
      fun _ n' => Casting n n' ∧ Going P k n' := by
  refine (Acts.cast (h.peers_length.mono (Nat.le_add_right _ _)) fun p hp n' hn' hg => ?_).mono
    fun _ n' hn' => ⟨hn'.casting, hn'.going h.peers_length⟩
  refine Acts.get (Acts.check (.inr (Node.lastTerm_ok hg.log)) fun lastTerm _ => ?_)
  exact hg.send (hsend hn' p hp lastTerm)

theorem Begun.startElection (h : Begun P 128 n₀ n) (hop : op.Elects) (hwhy : Campaigns op n) :
    Acts P op n₀ startElection n fun _ n' => Paced n' := by
  unfold Raft.startElection
  refine Acts.get (Acts.persist (.campaign 0) (fun s hs => ?_)
    fun n' hs => Acts.ret (.of_state (by rw [hs]; decide)))
  rw [if_pos rfl]
  cases hbit : nodeBit n.id with
  | error e =>
    refine h.toFit.id.elim (fun hp => ⟨n, .refl, hp, .saved hs⟩) fun hid => ?_
    cases hid.nodeBit.symm.trans hbit
  | ok bit =>
    refine Sim.seq_check rfl (Sim.seq_update (Sim.step (.campaign h.running hwhy hbit hs) ?_))
    have hb : Begun P 128 n₀ { n with
        state := .candidate, term := n.term + 1, votedFor := n.id, elapsed := 0
        voteMask := bit, preVoteMask := 0, store := s } :=
      ⟨h.toGoing.of_same rfl rfl rfl rfl rfl, ⟨Nat.le_succ_of_le h.since.term, h.since.log,
        h.since.baseIndex, h.since.commit, h.since.applied⟩⟩
    refine Acts.get (Acts.seq (hb.toGoing.request (k := 64) Node.term ?_) fun _ n' hn' => ?_)
    · rintro n' ⟨next, out, enq, rfl⟩ p hp lastTerm
      exact ⟨h.running, rfl, fun _ => rfl, fun _ => rfl, nofun, nofun, nofun, nofun, .inl hp, nofun⟩
    · refine Acts.get (Acts.check (.inr (Node.quorumMask_ok hn'.2.log _)) fun won hwon => ?_)
      have hsince := hn'.1.since hb.since
      have hb' : Begun P (64 + 0) n₀ n' := ⟨hn'.2, hsince⟩
      obtain ⟨⟨next, out, enq, rfl⟩, -⟩ := hn'
      cases won with
      | false => exact Acts.ret (.of_state nofun)
      | true => exact hb'.becomeLeader hop rfl hwon

theorem Begun.startPreVote (h : Begun P 192 n₀ n) (hop : op = .tick) (hl : n.state ≠ .leader) :
    Acts P op n₀ startPreVote n fun _ n' => Paced n' := by
  unfold Raft.startPreVote
  have hbit : P ∨ ∃ b, nodeBit n.id = .ok b := h.toFit.id.imp_right fun hid => ⟨_, hid.nodeBit⟩
  refine Acts.get (Acts.check hbit fun bit hbit => Acts.update (.preVote hop hl hbit) (Acts.get ?_))
  have hb : Begun P 192 n₀ { n with
      elapsed := 0, preVoteTerm := n.term + 1, leader := 0, preVoteMask := bit } :=
    ⟨h.toGoing.of_same rfl rfl rfl rfl rfl,
      ⟨h.since.term, h.since.log, h.since.baseIndex, h.since.commit, h.since.applied⟩⟩
  refine Acts.seq (hb.toGoing.request (k := 128) Node.preVoteTerm ?_) fun _ n' hn' => ?_
  · rintro n' ⟨next, out, enq, rfl⟩ p hp lastTerm
    exact ⟨h.running, rfl, nofun, nofun, nofun, nofun, nofun, nofun, .inl hp, nofun⟩
  · refine Acts.get (Acts.check (.inr (Node.quorumMask_ok hn'.2.log _)) fun won hwon => ?_)
    have hsince := hn'.1.since hb.since
    have hb' : Begun P 128 n₀ n' := ⟨hn'.2, hsince⟩
    obtain ⟨⟨next, out, enq, rfl⟩, -⟩ := hn'
    cases won with
    | false => exact Acts.ret (.of_state hl)
    | true => exact hb'.startElection (by rw [hop]; trivial) (.preVoted (.inl hop) rfl hwon hl)

/-- A node that leads now has just been elected, or it led before in the same term. -/
def Led (n n' : Node σ) : Prop :=
  n'.state = .leader → Paced n' ∨ n.state = .leader ∧ n'.term = n.term

omit [StableStore σ] in
theorem Paced.led (h : Paced n') : Led n n' := fun _ => .inl h

omit [StableStore σ] in
theorem Led.of_same (hs : n'.state = n.state) (ht : n'.term = n.term) : Led n n' :=
  fun hl => .inr ⟨hs ▸ hl, ht⟩

theorem tick_changes (hf : Fit P n) (hroom : P ∨ n.outbound.length + 192 ≤ outboundCapacity)
    (hop : op = .tick) : Acts P op n tick n fun _ n' => Led n n' := by
  unfold tick
  refine Acts.get (Sim.ite (fun _ => Acts.ret (.of_same rfl rfl)) fun hr => ?_)
  refine Acts.update (.wait _) (Acts.get ?_)
  have hb : Begun P 192 n { n with elapsed := n.elapsed + 1 } :=
    ⟨⟨hf.of_same rfl rfl rfl, eq_false_of_ne_true hr, hroom⟩, ⟨Nat.le_refl _, rfl, rfl, rfl, rfl⟩⟩
  refine Sim.ite (fun _ => Sim.ite (fun _ => Acts.update (.wait 0) ?_) fun _ => Acts.ret (.of_same rfl rfl))
    fun hl => Sim.ite (fun _ => (hb.startPreVote hop hl).mono fun _ _ h => h.led)
      fun _ => Acts.ret (.of_same rfl rfl)
  have hg : Going P (64 + 128) { n with elapsed := 0 } := hb.toGoing.of_same rfl rfl rfl rfl rfl
  refine hg.broadcast.mono fun _ n' hn' => ?_
  obtain ⟨⟨⟨next, out, enq, rfl⟩, -, -⟩, -⟩ := hn'
  exact .of_same rfl rfl

omit [StableStore σ] in
theorem Node.upToDate_ok (hlog : n.log ≠ []) (m : Message) : ∃ b, n.upToDate m = .ok b := by
  obtain ⟨t, ht⟩ := Node.lastTerm_ok hlog
  exact ⟨_, by rw [Node.upToDate, ht]; rfl⟩

/-- The handler of the message looks up the sender among the voters. -/
def Message.Asks (m : Message) (n : Node σ) : Prop :=
  match m.type with
  | .preVote | .requestVote => True
  | .preVoteResponse => n.state ≠ .leader
  | .requestVoteResponse => n.state = .candidate ∧ m.term ≤ n.term
  | .appendResponse => n.state = .leader ∧ m.term = n.term ∧ m.reject = false ∧ m.context ≠ 0 ∧
      m.context = n.readContext
  | .installSnapshotResponse => n.state = .leader ∧ m.term = n.term ∧ m.reject = false
  | _ => False

omit [StableStore σ] in
theorem Fit.isVoter (h : Fit P n) {id : Nat} (hid : P ∨ Valid id) : P ∨ ∃ b, n.isVoter id = .ok b :=
  hid.imp_right (Node.isVoter_ok h.log)

theorem Going.onPreVote (h : Going P 1 n) {m : Message} (hop : op = .step m)
    (hsrc : P ∨ Valid m.src) :
    Acts P op n₀ (onPreVote m) n fun _ _ => True := by
  unfold Raft.onPreVote
  refine Acts.get (Acts.check (.inr (Node.upToDate_ok h.log m)) fun upToDate _ =>
    Acts.check (h.toFit.isVoter hsrc) fun voter _ => ?_)
  exact h.sendLast ⟨h.running, rfl, nofun, nofun, nofun, nofun, nofun, nofun,
    .inr (.inl ⟨m, hop, rfl⟩), nofun⟩

theorem Begun.onPreVoteResponse (h : Begun P 128 n₀ n) {m : Message} (hop : op = .step m)
    (htype : m.type = .preVoteResponse) (hsrc : n.state ≠ .leader → P ∨ Valid m.src) :
    Acts P op n₀ (onPreVoteResponse m) n fun _ n' => Led n n' := by
  unfold Raft.onPreVoteResponse
  refine Acts.get (Sim.ite (fun _ => Acts.ret (.of_same rfl rfl)) fun hl => ?_)
  refine Acts.check (h.toFit.isVoter (hsrc hl)) fun voter hvoter => ?_
  refine Sim.ite (fun hc => ?_) fun _ => Acts.ret (.of_same rfl rfl)
  obtain ⟨rfl, hterm, hpre, hreject⟩ := hc
  have hbit : ∃ b, nodeBit m.src = .ok b := ⟨_, (Node.valid_of_isVoter hvoter).nodeBit⟩
  refine Acts.check (.inr hbit) fun bit hbit => ?_
  refine Acts.update (.preVoteAck hop htype hl hvoter hterm hpre hreject hbit) (Acts.get ?_)
  have hb : Begun P 128 n₀ { n with preVoteMask := n.preVoteMask ||| bit } :=
    ⟨h.toGoing.of_same rfl rfl rfl rfl rfl,
      ⟨h.since.term, h.since.log, h.since.baseIndex, h.since.commit, h.since.applied⟩⟩
  refine Acts.check (.inr (Node.quorumMask_ok hb.log _)) fun won hwon => ?_
  cases won with
  | false => exact Acts.ret (.of_same rfl rfl)
  | true =>
    have hwhy : Campaigns op { n with preVoteMask := n.preVoteMask ||| bit } :=
      .preVoted (.inr ⟨m, hop, htype⟩) (hpre.symm.trans hterm) hwon hl
    refine (hb.startElection ?_ hwhy).mono fun _ _ h => h.led
    rw [hop]
    exact .inl htype

theorem Going.onVote (h : Going P 1 n) {m : Message} (hop : op = .step m)
    (htype : m.type = .requestVote) (hsrc : P ∨ Valid m.src) :
    Acts P op n₀ (onVote m) n fun _ _ => True := by
  unfold Raft.onVote
  refine Acts.get (Acts.check (.inr (Node.upToDate_ok h.log m)) fun upToDate _ =>
    Acts.check (h.toFit.isVoter hsrc) fun voter hvoter => Sim.ite (fun hg => ?_) fun _ => ?_)
  · obtain ⟨rfl, hterm, hv, -⟩ := hg
    refine Acts.persist (.vote hop hv hvoter) (fun s hs => ?_) fun n' _ => Acts.ret trivial
    refine Sim.seq_update (Sim.step (.vote h.running hop htype hterm hv hvoter hs) ?_)
    have hsrc : m.src ≠ 0 := Nat.ne_of_gt (Node.valid_of_isVoter hvoter).1
    have hg : Going P 1 { n with votedFor := m.src, elapsed := 0, store := s } :=
      h.of_same rfl rfl rfl rfl rfl
    exact hg.sendLast ⟨h.running, rfl, fun _ => rfl, nofun, fun _ _ => ⟨rfl, hsrc⟩, nofun, nofun, nofun,
      .inr (.inl ⟨m, hop, rfl⟩), nofun⟩
  · exact h.sendLast ⟨h.running, rfl, fun _ => rfl, nofun, nofun, nofun, nofun, nofun,
      .inr (.inl ⟨m, hop, rfl⟩), nofun⟩

theorem Begun.onVoteResponse (h : Begun P 64 n₀ n) {m : Message} (hop : op = .step m)
    (htype : m.type = .requestVoteResponse) (hsrc : n.state = .candidate → P ∨ Valid m.src) :
    Acts P op n₀ (onVoteResponse m) n fun _ n' => Led n n' := by
  unfold Raft.onVoteResponse
  refine Acts.get (Sim.ite (fun _ => Acts.ret (.of_same rfl rfl)) fun hc => ?_)
  have hc := not_not.mp hc
  refine Acts.check (h.toFit.isVoter (hsrc hc)) fun voter hvoter => ?_
  refine Sim.ite (fun hg => ?_) fun _ => Acts.ret (.of_same rfl rfl)
  obtain ⟨rfl, hterm, hreject⟩ := hg
  have hbit : ∃ b, nodeBit m.src = .ok b := ⟨_, (Node.valid_of_isVoter hvoter).nodeBit⟩
  refine Acts.check (.inr hbit) fun bit hbit => ?_
  refine Acts.update (.voteAck hop htype hc hvoter hterm hreject hbit) (Acts.get ?_)
  have hb : Begun P (64 + 0) n₀ { n with voteMask := n.voteMask ||| bit } :=
    ⟨h.toGoing.of_same rfl rfl rfl rfl rfl,
      ⟨h.since.term, h.since.log, h.since.baseIndex, h.since.commit, h.since.applied⟩⟩
  refine Acts.check (.inr (Node.quorumMask_ok hb.log _)) fun won hwon => ?_
  cases won with
  | false => exact Acts.ret (.of_same rfl rfl)
  | true =>
    refine (hb.becomeLeader ?_ hc hwon).mono fun _ _ h => h.led
    rw [hop]
    exact .inr (.inl htype)

theorem Begun.onTimeoutNow (h : Begun P 128 n₀ n) {m : Message} (hop : op = .step m)
    (htype : m.type = .timeoutNow) : Acts P op n₀ (onTimeoutNow m) n fun _ n' => Led n n' := by
  unfold Raft.onTimeoutNow
  refine Acts.get (Sim.ite (fun hc => ?_) fun _ => Acts.ret (.of_same rfl rfl))
  refine (h.startElection ?_ (.timeoutNow hop htype hc.1 hc.2.1 hc.2.2)).mono fun _ _ h => h.led
  rw [hop]
  exact .inr (.inr htype)

/-! ## Following -/

/-- What a follower still has after it accepted the entry of `m`. -/
structure Followed (P : Prop) (k : Nat) (m : Message) (n n' : Node σ) : Prop extends Going P k n' where
  id : n'.id = n.id
  term : n'.term = n.term
  matched : m.matched ≤ n'.lastIndex

omit [StableStore σ] in
theorem Begun.stored (h : Begun P k n₀ n) {m : Message} (hm : Accepts op n₀ n m) (s : σ) :
    Followed P k m n ((n.trim (m.logIndex + 1)).stored (m.logIndex + 1) m.entry s) := by
  obtain ⟨hb, hl⟩ := Node.termAt_range hm.prev
  have hpos := List.length_pos_of_ne_nil h.log
  have hstored := hm.stored h.log s
  refine ⟨⟨(h.toFit.trim (by omega)).stored _ _ _, hstored.faulted.trans h.running, ?_⟩, hstored.id,
    hstored.term, ?_⟩
  · rw [hstored.outbound]
    exact h.room
  · rw [Message.matched, if_pos hm.entry, hstored.lastIndex, Node.lastIndex, Node.extend]
    dsimp only
    rw [List.length_append, List.length_take, List.length_singleton]
    unfold Node.lastIndex at hl
    omega

/-- The entry of a message is stored. The log has been cut before it, in memory only. -/
theorem Begun.appendEntry (h : Begun P k n₀ n) {m : Message} (hm : Accepts op n₀ n m) :
    Sim (Change op n₀) (Panics P op) n (appendEntry (m.logIndex + 1) m.entry) (n.trim (m.logIndex + 1))
      fun ok w n' => w = n' ∧ (ok = true → Followed P k m n n') := by
  have hstore : (n.trim (m.logIndex + 1)).store = n.store := (hm.trim h.log).store
  unfold Raft.appendEntry
  refine Acts.call (fun s hs => ?_) fun err s hs => ?_
  · refine Sim.seq_update (Sim.seq_update (Sim.step (.store h.running hm (hstore ▸ hs)) ?_))
    exact Sim.ret ⟨rfl, fun _ => h.stored hm s⟩
  · exact Sim.step (.storeError hm (hstore ▸ hs)) (Sim.ret ⟨rfl, nofun⟩)

theorem Begun.storeEntry (h : Begun P k n₀ n) {m : Message} (hop : op = .step m)
    (htype : m.type = .append) (hs : n.state = .follower) (hprev : n.termAt m.logIndex = some m.logTerm)
    (hterm : ¬ m.term < n.term)
    (hnew : m.hasEntry = true → m.logIndex = n.lastIndex → n.validNewEntry m.entry = true) :
    Acts P op n₀ (storeEntry m) n fun ok n' => ok = true → Followed P k m n n' := by
  obtain ⟨hb, hl⟩ := Node.termAt_range hprev
  have hpos := List.length_pos_of_ne_nil h.log
  unfold Raft.storeEntry
  refine Sim.ite (fun hentry => ?_) fun hentry => ?_
  · refine Sim.seq (Q := fun _ w n' => w = n ∧
        (Accepts op n₀ n m ∧ n' = n.trim (m.logIndex + 1) ∨ n' = n ∧ m.logIndex ≠ n.lastIndex)) ?_ ?_
    · unfold truncateConflict
      refine Sim.seq_get (Sim.ite (fun hc => ?_) fun _ => ?_)
      · obtain ⟨t, ht, hne⟩ : ∃ t, n.termAt (m.logIndex + 1) = some t ∧ t ≠ m.entry.term := by
          cases ht : n.termAt (m.logIndex + 1) with
          | none => rw [ht] at hc; cases hc
          | some t => rw [ht] at hc; exact ⟨t, rfl, bne_iff_ne.mp hc⟩
        have hcut : n.log.take (m.logIndex + 1 - n.baseIndex) ≠ [] := by
          rw [← List.length_pos_iff, List.length_take]
          omega
        have hle : m.logIndex + 1 ≤ n.lastIndex := (Node.termAt_range ht).2
        refine Sim.seq_update ((Triple.sim (rebuildPendingConfig_rule hcut)).mono ?_)
        rintro _ w n' - ⟨rfl, rfl⟩
        refine ⟨rfl, .inl ⟨⟨h.since, hop, htype, hentry, hprev, hterm, hs, .inr ⟨t, ht, hne⟩⟩, ?_⟩⟩
        rw [Node.trim, if_pos hle]
        rfl
      · by_cases hlast : m.logIndex = n.lastIndex
        · refine Sim.ret ⟨rfl, .inl ⟨⟨h.since, hop, htype, hentry, hprev, hterm, hs, ?_⟩, ?_⟩⟩
          · exact .inl ⟨hlast, hnew hentry hlast⟩
          · rw [Node.trim, if_neg (by omega)]
        · exact Sim.ret ⟨rfl, .inr ⟨rfl, hlast⟩⟩
    · rintro _ w n' - ⟨rfl, ⟨hm, rfl⟩ | ⟨rfl, hne⟩⟩
      · refine Sim.seq_get (Sim.ite (fun _ => h.appendEntry hm) fun hlast => absurd ?_ hlast)
        rw [(hm.trim h.log).lastIndex, Node.lastIndex]
        dsimp only
        rw [List.length_take]
        unfold Node.lastIndex at hl
        omega
      · refine Acts.get (Sim.ite (fun hlast => absurd hlast (by omega)) fun _ => Acts.ret fun _ => ?_)
        refine ⟨h.toGoing, rfl, rfl, ?_⟩
        rw [Message.matched, if_pos hentry]
        omega
  · refine Acts.ret fun _ => ⟨h.toGoing, rfl, rfl, ?_⟩
    rw [Message.matched, if_neg hentry]
    exact hl

theorem Going.followCommit (h : Going P k n) {m : Message} (hm : m.matched ≤ n.lastIndex) :
    Acts P op n₀ (followCommit m) n fun ok n' => ok = true → Followed P k m n n' := by
  unfold Raft.followCommit
  refine Acts.get (Sim.ite (fun hc => ?_) fun _ => Acts.ret fun _ => ⟨h, rfl, rfl, hm⟩)
  have hlt : n.commit < min m.commit m.matched := by
    rw [Message.matched]
    split <;> rename_i hentry
    · omega
    · rcases hc.2 with hc' | hc'
      · omega
      · exact absurd hc'.1 hentry
  have hle : min m.commit m.matched ≤ n.lastIndex := by omega
  refine Acts.persist (.commit hle (.inl hlt)) (fun s hs => Sim.seq_update ?_) fun n' _ => Acts.ret nofun
  refine h.commitTo hle (.inl hlt) hs fun n' hn' hv => Acts.ret fun _ => ?_
  exact ⟨hn', hv.id, hv.term, by rw [hv.lastIndex]; exact hm⟩

theorem Begun.onAppend (h : Begun P 1 n₀ n) {m : Message} (hop : op = .step m)
    (htype : m.type = .append) (hm : m.term ≤ n.term) :
    Acts P op n₀ (onAppend m) n fun _ _ => True := by
  unfold Raft.onAppend
  refine Acts.get (Sim.ite (fun _ => ?_) fun ha => ?_)
  · exact h.toGoing.sendLast ⟨h.running, rfl, fun _ => rfl, nofun, nofun, nofun, nofun, nofun,
      .inr (.inl ⟨m, hop, rfl⟩), nofun⟩
  simp only [Node.rejectsAppend, Bool.or_eq_true, not_or, decide_eq_true_eq, bne_iff_ne, ne_eq,
    not_not, Bool.and_eq_true, beq_iff_eq, Nat.add_right_cancel_iff, Bool.not_eq_true', not_and,
    Bool.not_eq_false] at ha
  obtain ⟨⟨hterm, hprev⟩, hnew⟩ := ha
  have hb : Begun P 1 n₀ { n with state := .follower, leader := m.src, elapsed := 0 } :=
    ⟨h.toGoing.of_same rfl rfl rfl rfl rfl,
      ⟨h.since.term, h.since.log, h.since.baseIndex, h.since.commit, h.since.applied⟩⟩
  have heq : m.term = n.term := Nat.le_antisymm hm (Nat.not_lt.mp hterm)
  refine Acts.update (.follow hop (.inl htype) heq)
    (Acts.seq (hb.storeEntry hop htype rfl hprev hterm fun he hl => hnew ⟨he, hl⟩) fun ok n₁ h₁ => ?_)
  cases ok with
  | false => exact Acts.ret trivial
  | true =>
    have h₁ := h₁ rfl
    refine Acts.seq (h₁.toGoing.followCommit h₁.matched) fun ok n₂ h₂ => ?_
    cases ok with
    | false => exact Acts.ret trivial
    | true =>
      have h₂ := h₂ rfl
      have hsame : m.term = n₂.term := by
        rw [h₂.term, h₁.term]
        exact heq
      refine Acts.get (h₂.toGoing.sendLast ⟨h₂.running, rfl, fun _ => rfl, nofun, nofun, nofun,
        fun _ _ => ?_, nofun, .inr (.inl ⟨m, hop, rfl⟩), nofun⟩)
      exact ⟨h₂.matched, m, hop, htype, rfl, hsame, rfl⟩

/-! ## The answers to appends -/

/-- An acknowledgement of a read barrier is noted. -/
theorem Going.recordReadAck (h : Going P k n) {m : Message} (hop : op = .step m)
    (htype : m.type = .appendResponse) (hsrc : m.Asks n → P ∨ Valid m.src)
    (hn : n.state = .leader → n = n₀) : Acts P op n₀ (recordReadAck m) n fun _ n' => ∃ mask index ready,
      n' = { n with readAckMask := mask, readIndex := index, readReady := ready } := by
  unfold Raft.recordReadAck
  refine Acts.get (Sim.ite (fun hc => ?_) fun _ => Acts.ret ⟨_, _, _, rfl⟩)
  have hask : m.Asks n := by
    unfold Message.Asks
    rw [htype]
    exact hc
  obtain ⟨hl, hterm, hreject, hne, hctx⟩ := hc
  refine Acts.check (h.toFit.isVoter (hsrc hask)) fun voter hvoter => ?_
  cases voter with
  | false => exact Acts.ret ⟨_, _, _, rfl⟩
  | true =>
    have hbit : ∃ b, nodeBit m.src = .ok b := ⟨_, (Node.valid_of_isVoter hvoter).nodeBit⟩
    refine Acts.check (.inr hbit) fun bit hbit => ?_
    refine Acts.update (.readAck hop hl ⟨htype, hterm, hreject⟩ ⟨hne, hctx⟩ hvoter hbit (hn hl))
      (Acts.get ?_)
    have hlog : Node.log { n with readAckMask := n.readAckMask ||| bit } ≠ [] := h.log
    refine Acts.check (.inr (Node.quorumMask_ok hlog _)) fun ready hready => ?_
    cases ready with
    | false => exact Acts.ret ⟨_, _, _, rfl⟩
    | true =>
      refine Sim.step (.readReady hop hl ⟨htype, hterm, hreject⟩ ⟨hne, hctx⟩ hready ?_) ?_
      · rw [← hn hl]
      · exact Sim.update ⟨rfl, _, _, _, rfl⟩

theorem Going.advanceCommit (h : Going P (64 + k) n) (hb : P ∨ n.baseIndex ≤ n.commit) :
    Acts P op n₀ advanceCommit n fun ok n' => ok = true → Going P k n' := by
  unfold Raft.advanceCommit
  have htotal : P ∨ ∃ t, n.commitTarget (n.lastIndex - n.commit) = .ok t := by
    rcases h.ids with hp | hv
    · exact .inl hp
    · refine hb.imp_right fun hb => ?_
      rcases Nat.le_total n.commit n.lastIndex with hle | hle
      · exact Node.commitTarget_ok h.log hb hv.id hv.peers (by omega)
      · rw [Nat.sub_eq_zero_of_le hle]
        exact ⟨none, rfl⟩
  refine Acts.get (Acts.check htotal fun target htarget => ?_)
  cases target with
  | none => exact Acts.ret fun _ => h.mono (by omega)
  | some index =>
    obtain ⟨hlt, hat, -⟩ := Node.commitTarget_some htarget
    have hle : index ≤ n.lastIndex := by
      unfold Node.termAtMust at hat
      split at hat
      · exact (Node.termAt_range ‹_›).2
      · cases hat
    unfold commitIndex
    refine Acts.get (Acts.persist (.commit hle (.inl hlt)) (fun s hs => Sim.seq_update ?_)
      fun n' _ => Acts.ret nofun)
    refine h.commitTo hle (.inl hlt) hs fun n' hn' _ => ?_
    refine Acts.get (Sim.ite (fun _ => ?_) fun _ => Acts.ret fun _ => hn'.mono (by omega))
    exact Acts.seq hn'.broadcast fun _ n'' hn'' => Acts.ret fun _ => hn''.2

theorem Going.onAppendResponse (h : Going P 65 n) {m : Message} (hop : op = .step m)
    (htype : m.type = .appendResponse) (hsrc : m.Asks n → P ∨ Valid m.src)
    (hb : P ∨ n.baseIndex ≤ n.commit) (hn : n.state = .leader → n = n₀) :
    Acts P op n₀ (onAppendResponse m) n fun _ _ => True := by
  unfold Raft.onAppendResponse
  refine Acts.seq (h.recordReadAck hop htype hsrc hn) ?_
  rintro _ n₁ ⟨mask, index, ready, rfl⟩
  have h₁ : Going P 65 { n with readAckMask := mask, readIndex := index, readReady := ready } :=
    h.of_same rfl rfl rfl rfl rfl
  have hb₁ : P ∨ Node.baseIndex { n with readAckMask := mask, readIndex := index, readReady := ready } ≤
      Node.commit { n with readAckMask := mask, readIndex := index, readReady := ready } := hb
  generalize ({ n with readAckMask := mask, readIndex := index, readReady := ready } : Node σ) = n₁
    at h₁ hb₁
  refine Acts.get (Sim.ite (fun _ => Acts.ret trivial) fun hc =>
    Sim.ite (fun hreject => ?_) fun hreject => ?_)
  all_goals
    simp only [not_or, not_not, ne_eq, Nat.not_le] at hc
    obtain ⟨hl, hterm, hle⟩ := hc
  · by_cases hnext : n₁.next m.src > 1
    · refine Acts.update (n := n₁) ?_ ?_
      · simp only [if_pos hnext]
        exact .track (.back hop htype hl hterm hreject hnext)
      · simp only [if_pos hnext]
        have hg : Going P 1 (n₁.setNext m.src (n₁.next m.src - 1)) :=
          (h₁.mono (by omega)).of_same rfl rfl rfl rfl rfl
        exact (hg.appendTo (.inr (.inl ⟨m, hop, rfl⟩)) (.inl rfl)).mono fun _ _ _ => trivial
    · show Acts P op n₀ (modify _ >>= _) n₁ _
      refine Sim.seq_update ?_
      simp only [if_neg hnext]
      exact ((h₁.mono (by omega)).appendTo (.inr (.inl ⟨m, hop, rfl⟩)) (.inl rfl)).mono fun _ _ _ =>
        trivial
  · have hg : Going P (64 + 1) ((n₁.setMatch m.src m.matchIndex).setNext m.src (m.matchIndex + 1)) :=
      h₁.of_same rfl rfl rfl rfl rfl
    have hreject := eq_false_of_ne_true hreject
    refine Acts.update (.track (.ack hop htype hl hterm hreject (Nat.lt_succ_iff.mp hle)))
      (Acts.seq (hg.advanceCommit hb₁) fun ok n₂ h₂ => Acts.get ?_)
    refine Sim.ite (fun hc => ?_) fun _ => Acts.ret trivial
    exact ((h₂ hc.1).appendTo (.inr (.inl ⟨m, hop, rfl⟩)) (.inl rfl)).mono fun _ _ _ => trivial

/-! ## Snapshots -/

/-- A snapshot is saved and the log below it released. After that the node sets its fields. -/
theorem saveSnapshot_changes {snapshot : Snapshot} {n₁ : Node σ} {g : Bool → NodeM σ α}
    {Q : α → Node σ → Prop} (hp : Save op n₀ n snapshot n₁)
    (hok : ∀ s s', StableStore.saveSnapshot snapshot n.store = .ok () s →
      StableStore.compactLog snapshot.lastIndex s = .ok () s' →
      Sim (Change op n₀) (Panics P op) n (g true) { n with store := s' } fun a w n' => w = n' ∧ Q a n')
    (herr : ∀ n', Acts P op n₀ (g false) n' Q) : Acts P op n₀ (saveSnapshot snapshot >>= g) n Q := by
  -- after a failure the change is made before the method goes on
  refine Sim.seq (Q := fun ok w n' => if ok then w = n ∧ ∃ s s',
      StableStore.saveSnapshot snapshot n.store = .ok () s ∧
        StableStore.compactLog snapshot.lastIndex s = .ok () s' ∧ n' = { n with store := s' }
    else Change op n₀ w n') ?_ ?_
  · unfold Raft.saveSnapshot
    refine Sim.ite (fun _ => ?_) fun hno => ?_
    · refine Sim.seq (Q := fun ok w n' => if ok then w = n ∧ ∃ s,
          StableStore.saveSnapshot snapshot n.store = .ok () s ∧ n' = { n with store := s }
        else Change op n₀ w n') (callStoreOrFail_sim ?_ ?_) ?_
      · exact fun s hs => ⟨n, .refl, rfl, s, hs, rfl⟩
      · exact fun e s hs => .saveError hp hs
      · rintro (_ | _) w n' - hq
        · exact Sim.ret hq
        · obtain ⟨rfl, s, hs, rfl⟩ := hq
          refine callStoreOrFail_sim ?_ ?_
          · exact fun s' hs' => ⟨_, .refl, rfl, s, s', hs, hs', rfl⟩
          · exact fun e s' hs' => .compactError hp hs hs'
    · exact Sim.seq_update (Sim.ret (.noSnapshotStore hp (eq_false_of_ne_true hno)))
  · rintro (_ | _) w n' - hq
    · exact Sim.step hq (herr n')
    · obtain ⟨rfl, s, s', hs, hs', rfl⟩ := hq
      exact hok s s' hs hs'

theorem compact_changes {index : Nat} {state : List UInt8} (hop : op = .compact index state) :
    Acts P op n (compact index state) n fun _ _ => True := by
  unfold compact
  refine Acts.get (Sim.ite (fun _ => Acts.ret trivial) fun hr => ?_)
  split
  · exact Acts.ret trivial
  · rename_i term ht
    have hsave : Save op n n (n.ownSnapshot index term state) _ :=
      .own (.refl n) hop (by omega) (by omega) ht
    refine saveSnapshot_changes hsave (fun s s' hs hs' => ?_) fun n' => Acts.ret trivial
    exact Sim.seq_update (Sim.step (.save hsave hs hs') (Acts.ret trivial))

theorem Going.acceptSnapshot (h : Going P 1 n) {m : Message} (hop : op = .step m)
    (htype : m.type = .installSnapshot ∧ m.snapshotOld ≠ 0) (hterm : m.term = n.term) :
    Acts P op n₀ (acceptSnapshot m) n fun _ _ => True := by
  unfold Raft.acceptSnapshot
  have hg : Going P 1 { n with state := .follower, leader := m.src, elapsed := 0 } :=
    h.of_same rfl rfl rfl rfl rfl
  refine Acts.update (.follow hop (.inr htype) hterm) (Acts.get (hg.sendLast ?_))
  exact ⟨h.running, rfl, fun _ => rfl, nofun, nofun, nofun, nofun, fun _ _ => rfl,
    .inr (.inl ⟨m, hop, rfl⟩), nofun⟩

theorem Begun.onInstallSnapshot (h : Begun P 1 n₀ n) {m : Message} (hop : op = .step m)
    (htype : m.type = .installSnapshot) (hm : m.term ≤ n.term) :
    Acts P op n₀ (onInstallSnapshot m) n fun _ _ => True := by
  unfold Raft.onInstallSnapshot
  refine Acts.get (Sim.ite (fun _ => ?_) fun ha => ?_)
  · exact h.toGoing.sendLast ⟨h.running, rfl, fun _ => rfl, nofun, nofun, nofun, nofun, nofun,
      .inr (.inl ⟨m, hop, rfl⟩), nofun⟩
  have ha' := eq_false_of_ne_true ha
  simp only [Node.rejectsSnapshot, Bool.or_eq_false_iff, decide_eq_false_iff_not,
    beq_eq_false_iff_ne] at ha'
  have hterm : m.term = n.term := Nat.le_antisymm hm (Nat.not_lt.mp ha'.1.1.1)
  have hold : m.snapshotOld ≠ 0 := ha'.1.2
  refine Sim.ite (fun hb => ?_) fun _ => h.toGoing.acceptSnapshot hop ⟨htype, hold⟩ hterm
  have hsave : Save op n₀ n m.toSnapshot _ := .install h.since hop htype (eq_false_of_ne_true ha) hb
  refine saveSnapshot_changes hsave (fun s s' hs hs' => ?_) fun n' => Acts.ret trivial
  have hg : Going P 1 { n.install m.toSnapshot with store := s' } :=
    ⟨h.toFit.withLog (Node.logAbove_ne_nil m.toSnapshot) rfl rfl, h.running, h.room⟩
  exact Sim.seq_update (Sim.step (.save hsave hs hs') (hg.acceptSnapshot hop ⟨htype, hold⟩ hterm))

theorem Going.onInstallSnapshotResponse (h : Going P 1 n) {m : Message} (hop : op = .step m)
    (htype : m.type = .installSnapshotResponse) (hsrc : m.Asks n → P ∨ Valid m.src) :
    Acts P op n₀ (onInstallSnapshotResponse m) n fun _ _ => True := by
  unfold Raft.onInstallSnapshotResponse
  refine Acts.get (Sim.ite (fun _ => Acts.ret trivial) fun hc => ?_)
  simp only [not_or, not_not, ne_eq, Bool.not_eq_true] at hc
  obtain ⟨hl, hterm, hreject⟩ := hc
  have hask : m.Asks n := by
    unfold Message.Asks
    rw [htype]
    exact ⟨hl, hterm, hreject⟩
  refine Acts.check (h.toFit.isVoter (hsrc hask)) fun voter hvoter => ?_
  have hlast : ∀ n', Going P 1 n' → Acts P op n₀ (do
      let n ← get
      if n.next m.src ≤ n.lastIndex then Raft.appendTo m.src else pure ()) n' fun _ _ => True := by
    intro n' hn'
    refine Acts.get (Sim.ite (fun _ => ?_) fun _ => Acts.ret trivial)
    exact (hn'.appendTo (.inr (.inl ⟨m, hop, rfl⟩)) (.inl rfl)).mono fun _ _ _ => trivial
  cases voter with
  | false => exact Acts.ret trivial
  | true =>
    rw [if_pos rfl]
    by_cases hm : m.matchIndex > n.matchIdx m.src
    · have hg : Going P 1 ((n.setMatch m.src m.matchIndex).setNext m.src (m.matchIndex + 1)) :=
        h.of_same rfl rfl rfl rfl rfl
      refine Acts.update (n := n) ?_ ?_
      · simp only [if_pos hm]
        exact .track (.snapshotAck hop htype hl hterm hreject hvoter hm)
      · simp only [if_pos hm]
        exact hlast _ hg
    · show Acts P op n₀ (modify _ >>= _) n _
      refine Sim.seq_update ?_
      simp only [if_neg hm]
      exact hlast n h

/-! ## Messages -/

theorem Begun.handle (h : Begun P 128 n₀ n) {m : Message} (hop : op = .step m)
    (hm : m.type.isPreVote = false → m.term ≤ n.term) (hsrc : m.Asks n → P ∨ Valid m.src)
    (hb : P ∨ n.baseIndex ≤ n.commit) (hn : n.state = .leader → n = n₀) :
    Acts P op n₀ (handle m) n fun _ n' => op.Elects → Led n n' := by
  have h₁ : Begun P 1 n₀ n := ⟨h.toGoing.mono (by omega), h.since⟩
  -- in the other methods no node becomes the leader
  have hno : ∀ {n'}, (¬ op.Elects) → op.Elects → Led n n' := fun hn he => absurd he hn
  unfold Raft.handle
  split <;> rename_i htype
  · refine (h₁.toGoing.onPreVote hop (hsrc ?_)).mono fun _ _ _ => hno ?_
    · simp [Message.Asks, htype]
    · simp [hop, Op.Elects, htype]
  · refine (h.onPreVoteResponse hop htype fun hl => hsrc ?_).mono fun _ _ hled _ => hled
    simpa [Message.Asks, htype] using hl
  · refine (h₁.toGoing.onVote hop htype (hsrc ?_)).mono fun _ _ _ => hno ?_
    · simp [Message.Asks, htype]
    · simp [hop, Op.Elects, htype]
  · have h₆₄ : Begun P 64 n₀ n := ⟨h.toGoing.mono (by omega), h.since⟩
    refine (h₆₄.onVoteResponse hop htype fun hc => hsrc ?_).mono fun _ _ hled _ => hled
    simpa [Message.Asks, htype] using ⟨hc, hm (by rw [htype]; rfl)⟩
  · refine (h₁.onAppend hop htype (hm (by rw [htype]; rfl))).mono fun _ _ _ => hno ?_
    simp [hop, Op.Elects, htype]
  · refine ((h.toGoing.mono (by omega)).onAppendResponse hop htype hsrc hb hn).mono
      fun _ _ _ => hno ?_
    simp [hop, Op.Elects, htype]
  · refine (h₁.onInstallSnapshot hop htype (hm (by rw [htype]; rfl))).mono fun _ _ _ => hno ?_
    simp [hop, Op.Elects, htype]
  · refine (h₁.toGoing.onInstallSnapshotResponse hop htype hsrc).mono fun _ _ _ => hno ?_
    simp [hop, Op.Elects, htype]
  · exact (h.onTimeoutNow hop htype).mono fun _ _ hled _ => hled
  · exact Acts.ret fun _ => .of_same rfl rfl

theorem step_changes (hf : Fit P n) {m : Message} (hop : op = .step m)
    (hroom : P ∨ n.outbound.length + 128 ≤ outboundCapacity) (hsrc : P ∨ (m.Asks n → Valid m.src))
    (hb : P ∨ n.baseIndex ≤ n.commit) : Acts P op n (step m) n fun _ n' => op.Elects → Led n n' := by
  unfold step
  refine Acts.get (Sim.ite (fun _ => Acts.ret fun _ => .of_same rfl rfl) fun hr => ?_)
  have h : Begun P 128 n n := ⟨⟨hf, eq_false_of_ne_true hr, hroom⟩, .refl n⟩
  refine Sim.ite (fun hnew => ?_) fun hold => ?_
  · refine Acts.persist (.newTerm hop hnew.2) (fun s hs => ?_)
      fun n' hs => Acts.ret fun _ hl => absurd hl (by rw [hs]; decide)
    have h' : Begun P 128 n { n with
        state := .follower, term := m.term, votedFor := 0, leader := 0, readReady := false
        store := s } := ⟨h.toGoing.of_same rfl rfl rfl rfl rfl, ⟨hnew.2.le, rfl, rfl, rfl, rfl⟩⟩
    refine Sim.seq_update (Sim.step (.newTerm h.running hop hnew.1 hnew.2 hs) ?_)
    refine (h'.handle hop (fun _ => Nat.le_refl _) (fun ha => ?_) hb nofun).mono
      fun _ n' hled he hl => ?_
    · -- the node follows now, so only a request makes it look up the sender
      refine hsrc.imp_right fun hsrc => hsrc ?_
      unfold Message.Asks at ha ⊢
      have hpre := hnew.1
      revert ha
      cases htype : m.type <;> rw [htype] at hpre <;> simp_all [MessageType.isPreVote]
    · rcases hled he hl with hl | hl
      · exact .inl hl
      · cases hl.1
  · refine h.handle hop (fun hpre => Nat.not_lt.mp fun hlt => hold ⟨hpre, hlt⟩) (fun ha => ?_) hb
      fun _ => rfl
    exact hsrc.imp_right fun hsrc => hsrc ha

/-! ## Reading and applying -/

/-- The indexes of the node are in its log. -/
structure Node.Indexed (n : Node σ) : Prop where
  base_le : n.baseIndex ≤ n.commit
  base_le_applied : n.baseIndex ≤ n.applied
  commit_le : n.commit ≤ n.lastIndex

theorem startReadIndex_changes (hf : Fit P n) {context : UInt64} (hop : op = .startReadIndex context)
    (hroom : P ∨ n.outbound.length + 64 ≤ outboundCapacity) (hidx : P ∨ n.Indexed) :
    Acts P op n₀ (startReadIndex context) n fun _ _ => True := by
  unfold startReadIndex
  refine Acts.get (Sim.ite (fun _ => Acts.ret trivial) fun hc => ?_)
  simp only [not_or, not_not, ne_eq, Bool.not_eq_true] at hc
  obtain ⟨hl, hrun, hne, -⟩ := hc
  have hterm : P ∨ ∃ t, n.termAtMust n.commit = .ok t :=
    hidx.imp_right fun hi => Node.termAtMust_ok hf.log hi.base_le hi.commit_le
  refine Acts.check hterm fun term hterm =>
    Acts.check (hf.id.imp_right fun hid => ⟨_, hid.nodeBit⟩) fun bit hbit =>
      Acts.check (.inr (Node.quorumMask_ok hf.log _)) fun ready hready => ?_
  refine Sim.ite (fun _ => Acts.ret trivial) fun hq => Sim.seq_update ?_
  have ht : n.termAt n.commit = some n.term ∨ ready = true := by
    cases ready with
    | true => exact .inr rfl
    | false =>
      have heq : term = n.term := not_not.mp fun hne => hq ⟨hne, rfl⟩
      unfold Node.termAtMust at hterm
      split at hterm
      · cases hterm
        exact .inl (heq ▸ ‹_›)
      · cases hterm
  have hg : Going P (64 + 0) { n with
      readContext := context, readAckMask := bit, readReady := ready
      readIndex := if ready then n.commit else n.readIndex } := ⟨hf.of_same rfl rfl rfl, hrun, hroom⟩
  refine Sim.step (.read hop hl hrun hne hbit hready ht) ?_
  refine Acts.seq (Acts.cast (hg.peers_length.mono (Nat.le_add_right _ _)) fun p hp n' hc hn' => ?_)
    fun _ _ _ => Acts.ret trivial
  obtain ⟨next, out, enq, rfl⟩ := hc
  exact hn'.appendTo (.inl hp) (.inr hop)

theorem applyEntriesLoop_changes (hlog : n.log ≠ []) (hop : op = .applyEntries) {rest : Nat}
    {dst : List Entry} (h : n.applied + rest ≤ n.commit) (hidx : P ∨ n.Indexed) :
    Acts P op n₀ (applyEntriesLoop rest dst) n fun _ _ => True := by
  induction rest generalizing n dst with
  | zero => exact Acts.ret trivial
  | succ rest ih =>
    unfold applyEntriesLoop
    refine Sim.seq_update (Sim.step (.apply hop (by omega)) (Acts.get ?_))
    have hidx' : P ∨ Node.Indexed { n with applied := n.applied + 1 } :=
      hidx.imp_right fun hi => ⟨hi.base_le, Nat.le_succ_of_le hi.base_le_applied, hi.commit_le⟩
    have hentry : P ∨ ∃ e, Node.entryAt { n with applied := n.applied + 1 } (n.applied + 1) = .ok e := by
      refine hidx'.imp_right fun hi => ?_
      have hle : n.applied + 1 ≤ Node.lastIndex { n with applied := n.applied + 1 } := by
        have : n.commit ≤ _ := hi.commit_le
        omega
      obtain ⟨e, -, -, he⟩ := Node.entryAt_ok (n := { n with applied := n.applied + 1 }) hlog
        hi.base_le_applied hle
      exact ⟨e, he⟩
    refine Acts.check hentry fun e _ => ih (n := { n with applied := n.applied + 1 }) hlog ?_ hidx'
    show n.applied + 1 + rest ≤ n.commit
    omega

theorem applyEntries_changes (hlog : n.log ≠ []) (hop : op = .applyEntries) (dst : List Entry)
    (hidx : P ∨ n.Indexed) : Acts P op n₀ (applyEntries dst) n fun _ _ => True := by
  unfold applyEntries
  refine Acts.get ?_
  rcases Nat.le_total n.applied n.commit with hle | hle
  · exact applyEntriesLoop_changes hlog hop (by omega) hidx
  · rw [Nat.sub_eq_zero_of_le hle]
    exact Acts.ret trivial

/-! ## Proposing -/

theorem transferLeadership_changes (hf : Fit P n) {target : Nat}
    (hop : op = .transferLeadership target) (hrun : n.state = .leader → n.faulted = false)
    (hroom : P ∨ n.outbound.length + 1 ≤ outboundCapacity) (htarget : P ∨ Valid target) :
    Acts P op n₀ (transferLeadership target) n fun _ _ => True := by
  unfold transferLeadership
  refine Acts.get (Sim.ite (fun _ => Acts.ret trivial) fun hc =>
    Acts.check (hf.isVoter htarget) fun voter _ => ?_)
  have h : Going P 1 n := ⟨hf, hrun (not_not.mp fun hl => hc (.inl hl)), hroom⟩
  have htarget : n.Addresses op target := .inr (.inr ⟨hop, fun hself => hc (.inr hself)⟩)
  cases voter with
  | false => exact Acts.ret trivial
  | true =>
    rw [if_pos rfl]
    refine Sim.ite (fun _ => ?_) fun _ => ?_
    · exact Acts.seq (h.appendTo htarget (.inl rfl)) fun _ _ _ => Acts.ret trivial
    · refine Acts.seq (h.sendLast ?_) fun _ _ _ => Acts.ret trivial
      exact ⟨h.running, rfl, fun _ => rfl, nofun, nofun, nofun, nofun, nofun, htarget, nofun⟩

section

variable (hf : Fit P n) (hroom : P ∨ n.outbound.length + 64 ≤ outboundCapacity)

include hf hroom

theorem propose_changes {command : UInt64} (hop : op = .propose command) :
    Acts P op n (propose command) n fun _ _ => True := by
  unfold propose
  refine Acts.get (Sim.ite (fun _ => Acts.ret trivial) fun hc => ?_)
  simp only [not_or, not_not, ne_eq, Bool.not_eq_true] at hc
  exact Begun.proposeEntry ⟨⟨hf, hc.2, hroom⟩, .refl n⟩ hc.1 (hop ▸ rfl)

theorem proposeRequest_changes {operation : CommandOp} {clientID requestID key value : UInt64}
    (hop : op = .proposeRequest operation clientID requestID key value) :
    Acts P op n (proposeRequest operation clientID requestID key value) n fun _ _ => True := by
  unfold proposeRequest
  refine Acts.get (Sim.ite (fun _ => Acts.ret trivial) fun hc => ?_)
  simp only [not_or, not_not, ne_eq, Bool.not_eq_true] at hc
  exact Begun.proposeEntry ⟨⟨hf, hc.2.1, hroom⟩, .refl n⟩ hc.1 (hop ▸ rfl)

theorem proposeJoint_changes {voters : List Nat} (hop : op = .proposeJoint voters)
    (hids : P ∨ ∀ id ∈ voters, Valid id) : Acts P op n (proposeJoint voters) n fun _ _ => True := by
  unfold proposeJoint
  refine Acts.check (hids.imp_right voterMask_ok) fun mask hmask => Acts.get ?_
  cases mask with
  | none => exact Acts.ret trivial
  | some mask =>
    refine Sim.ite (fun _ => Acts.ret trivial) fun hc => ?_
    simp only [not_or, not_not, ne_eq, Bool.not_eq_true] at hc
    obtain ⟨hl, hrun, hnew, hp⟩ := hc
    have hpeers := Frame.ensurePeers n mask
    have hg : Going P 64 (n.ensurePeers mask) :=
      Going.enlists ⟨hf, hrun, hroom⟩ (.ensurePeers n mask) hpeers
    have hb : Begun P 64 n (n.ensurePeers mask) := 
      ⟨hg, hpeers.since (.refl n)⟩
    refine Acts.update (.ensure hop mask) ?_
    have hmem : ∀ id, Mem id mask → id = (n.ensurePeers mask).id ∨ id ∈ (n.ensurePeers mask).peers := by
      intro id hid
      rw [hpeers.id]
      exact Enlists.mem_ensurePeers n hid
    obtain ⟨peers, next, mtch, heq⟩ := n.ensurePeers_same mask
    generalize n.ensurePeers mask = n' at heq hb hmem ⊢
    subst heq
    exact hb.proposeConfig hl rfl rfl rfl rfl rfl (.joint hop hmask hnew hp hmem) rfl

theorem proposeFinal_changes (hop : op = .proposeFinal) :
    Acts P op n proposeFinal n fun _ _ => True := by
  unfold proposeFinal
  refine Acts.get (Sim.ite (fun _ => Acts.ret trivial) fun hc => ?_)
  simp only [not_or, not_not, ne_eq, Bool.not_eq_true] at hc
  obtain ⟨hl, hrun, hnew, hp⟩ := hc
  exact Begun.proposeConfig ⟨⟨hf, hrun, hroom⟩, .refl n⟩ hl rfl rfl rfl rfl rfl (.final hop hnew hp) rfl

end

/-! ## The methods -/

/-- The identifiers that the method looks up are those of nodes. -/
def Op.Answerable (n : Node σ) : Op → Prop
  | .step m => m.Asks n → Valid m.src
  | .proposeJoint voters => ∀ id ∈ voters, Valid id
  | .transferLeadership target => Valid target
  | _ => True

theorem Acts.discard {x : NodeM σ α} {Q : Unit → Node σ → Prop}
    (h : Acts P op n₀ x n fun _ n' => Q () n') : Acts P op n₀ (do let _ ← x; pure ()) n Q :=
  Acts.seq h fun _ _ hq => Acts.ret hq

/-- Every method is a sequence of changes. It panics only where `P` holds. -/
theorem Op.changes (op : Op) (hf : Fit P n) (hrun : n.state = .leader → n.faulted = false)
    (hroom : P ∨ n.outbound.length + 192 ≤ outboundCapacity) (hids : P ∨ op.Answerable n)
    (hidx : P ∨ n.Indexed) : Acts P op n op.run n fun _ n' => op.Elects → Led n n' := by
  have hroom' : ∀ k ≤ 192, P ∨ n.outbound.length + k ≤ outboundCapacity := fun k hk =>
    hroom.imp_right fun hr => by omega
  have h64 := hroom' 64 (by decide)
  -- the methods in which no node becomes the leader
  have hno : ∀ {x : NodeM σ Unit}, (¬ op.Elects) → Acts P op n x n (fun _ _ => True) →
      Acts P op n x n fun _ n' => op.Elects → Led n n' :=
    fun hn h => h.mono fun _ _ _ he => absurd he hn
  cases op with
  | tick => exact (tick_changes hf hroom rfl).mono fun _ _ h _ => h
  | step m => exact step_changes hf rfl (hroom' 128 (by decide)) hids (hidx.imp_right (·.base_le))
  | propose command => exact hno nofun (propose_changes hf h64 rfl).discard
  | proposeRequest operation clientID requestID key value =>
    exact hno nofun (proposeRequest_changes hf h64 rfl).discard
  | proposeJoint voters => exact hno nofun (proposeJoint_changes hf h64 rfl hids).discard
  | proposeFinal => exact hno nofun (proposeFinal_changes hf h64 rfl).discard
  | transferLeadership target =>
    exact hno nofun (transferLeadership_changes hf rfl hrun (hroom' 1 (by decide)) hids).discard
  | startReadIndex context => exact hno nofun (startReadIndex_changes hf rfl h64 hidx).discard
  | applyEntries => exact hno nofun (applyEntries_changes hf.log rfl [] hidx).discard
  | compact index state => exact hno nofun (compact_changes rfl).discard

end Promtact.Raft
