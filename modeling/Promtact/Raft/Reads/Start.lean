import Promtact.Lib.Consensus.Reads
import Promtact.Raft.Reads.Barrier

/-!
# Starting a read (`StartReadIndex`)

* `startReadIndex_true`, `startReadIndex_false`: what the node finds and sets when it starts a read,
  and why it refuses to.
* `Live.quorumMask_fixed`: with a fixed membership a node counts in the first voters.
* `Barrier.Ripe`: the record of the world behind a read that was started. The leader of the term has
  committed an entry of the term, or it is the only voter. If a majority has not entered a later term
  by then, its commit index covers everything that is committed (`Barrier.Ripe.covers`).
-/

namespace Promtact.Raft

open Refine Consensus Network

/-! ## The method -/

section

variable {σ : Type} [StableStore σ] {n n' n₀ : Node σ} {context : UInt64}

/-- The method started a read: what it found, and what the node is like after it. -/
structure Begins (context : UInt64) (b : Mask) (ready : Bool) (n n' : Node σ) : Prop where
  leader : n.state = .leader
  running : n.faulted = false
  nonzero : context ≠ 0
  committed : n.commit ≠ 0
  bit : nodeBit n.id = .ok b
  quorum : n.quorumMask b = .ok ready
  ripe : n.termAt n.commit = some n.term ∨ ready = true
  after : Casting { n with
    readContext := context, readAckMask := b, readReady := ready
    readIndex := if ready then n.commit else n.readIndex } n'

/-- Why a leader that runs and has committed something refuses. -/
def Declines (context : UInt64) (n : Node σ) : Prop :=
  n.state = .leader → n.faulted = false → context ≠ 0 → n.commit ≠ 0 →
    n.termAt n.commit ≠ some n.term ∧ ∃ b, nodeBit n.id = .ok b ∧ n.quorumMask b = .ok false

theorem startReadIndex_acts (hlog : n.log ≠ []) :
    Acts True (.startReadIndex context) n₀ (startReadIndex context) n fun ok n' =>
      if ok then ∃ b ready, Begins context b ready n n' else n' = n ∧ Declines context n := by
  unfold startReadIndex
  refine Acts.get (Sim.ite (fun hno => Acts.ret ⟨rfl, fun hl hf hc hk => ?_⟩) fun hc => ?_)
  · exact absurd hno (by simp [hl, hf, hc, hk])
  simp only [not_or, not_not, ne_eq, Bool.not_eq_true] at hc
  obtain ⟨hl, hrun, hne, hk⟩ := hc
  refine Acts.check (.inl trivial) fun term hterm => Acts.check (.inl trivial) fun b hbit =>
    Acts.check (.inl trivial) fun ready hready => ?_
  have hat : n.termAt n.commit = some term := by
    unfold Node.termAtMust at hterm
    split at hterm
    · cases hterm
      assumption
    · cases hterm
  refine Sim.ite (fun hno => Acts.ret ⟨rfl, fun _ _ _ _ => ⟨?_, b, hbit, hno.2 ▸ hready⟩⟩)
    fun hq => Sim.seq_update ?_
  · rw [hat]
    exact fun heq => hno.1 (Option.some.inj heq)
  have ht : n.termAt n.commit = some n.term ∨ ready = true := by
    cases ready with
    | true => exact .inr rfl
    | false =>
      rw [hat]
      exact .inl (congrArg some (not_not.mp fun hne => hq ⟨hne, rfl⟩))
  have hg : Going True (64 + 0) { n with
      readContext := context, readAckMask := b, readReady := ready
      readIndex := if ready then n.commit else n.readIndex } :=
    ⟨⟨hlog, .inl trivial⟩, hrun, .inl trivial⟩
  refine Sim.step (.read rfl hl hrun hne hbit hready ht) ?_
  refine Acts.seq (Acts.cast (hg.peers_length.mono (Nat.le_add_right _ _)) fun p hp n' hc hn' => ?_)
    fun _ n' hn' => Acts.ret ⟨b, ready, hl, hrun, hne, hk, hbit, hready, ht, hn'.casting⟩
  obtain ⟨next, out, enq, rfl⟩ := hc
  exact hn'.appendTo (.inl hp) (.inr rfl)

theorem startReadIndex_of_run {u : Unit} (hx : (Op.startReadIndex context).run n = .ok u n') :
    ∃ ok, startReadIndex context n = .ok ok n' := by
  change EStateM.bind (startReadIndex context) (fun _ => pure ()) n = .ok u n' at hx
  unfold EStateM.bind at hx
  split at hx
  · cases hx
    exact ⟨_, ‹_›⟩
  · cases hx

theorem startReadIndex_run {ok : Bool} (hx : startReadIndex context n = .ok ok n') :
    (Op.startReadIndex context).run n = .ok () n' := by
  change EStateM.bind (startReadIndex context) (fun _ => pure ()) n = _
  unfold EStateM.bind
  rw [hx]
  rfl

theorem startReadIndex_panic {err : Panic} (hx : startReadIndex context n = .error err n') :
    (Op.startReadIndex context).run n = .error err n' := by
  change EStateM.bind (startReadIndex context) (fun _ => pure ()) n = _
  unfold EStateM.bind
  rw [hx]

theorem startReadIndex_true (hlog : n.log ≠ []) (hx : startReadIndex context n = .ok true n') :
    ∃ b ready, Begins context b ready n n' := by
  have hacts : Acts True (.startReadIndex context) n (startReadIndex context) n _ :=
    startReadIndex_acts hlog
  obtain ⟨-, -, -, h⟩ := hacts.ok hx
  exact h

theorem startReadIndex_false (hlog : n.log ≠ []) (hx : startReadIndex context n = .ok false n') :
    n' = n ∧ Declines context n := by
  have hacts : Acts True (.startReadIndex context) n (startReadIndex context) n _ :=
    startReadIndex_acts hlog
  obtain ⟨-, -, -, h⟩ := hacts.ok hx
  exact h

end

/-! ## Voters -/

/-- A voter that is a majority alone is the only voter. -/
theorem majorityMask_bit {v : Mask} {id j : Nat} (h0 : 0 < id) (h64 : id ≤ 64)
    (h : majorityMask v (bit id) = true) (hj : Mem j v) : j = id := by
  obtain ⟨hpos, hlsb⟩ := hj
  have hlt : j - 1 < 64 := BitVec.lt_of_getLsbD hlsb
  simp only [majorityMask, bitsSet_eq_card, bits_and, Bool.and_eq_true, decide_eq_true_eq] at h
  have hself : ∀ k ∈ bits v ∩ bits (bit id), k.val = id - 1 := by
    intro k hk
    have hm : Mem (k.val + 1) (bit id) :=
      ⟨Nat.succ_pos _, mem_bits.mp (Finset.mem_inter.mp hk).2⟩
    have := (mem_bit h0 h64).mp hm
    omega
  have hle : (bits v ∩ bits (bit id)).card ≤ 1 := by
    refine Finset.card_le_one.mpr fun a ha c hc => Fin.ext ?_
    rw [hself a ha, hself c hc]
  obtain ⟨k, hk⟩ := Finset.card_pos.mp (show 0 < (bits v ∩ bits (bit id)).card by omega)
  have hone : (bits v).card ≤ 1 := by omega
  have heq := Finset.card_le_one.mp hone ⟨j - 1, hlt⟩ (mem_bits.mpr hlsb) k
    (Finset.mem_inter.mp hk).1
  have hval : j - 1 = k.val := congrArg Fin.val heq
  have := hself k hk
  omega

section

variable {σ : Type} [DurableStore σ] [LawfulStore σ] {mode : Mode} {V : Mask} {w w' : World Nat Entry}
  {i : Nat} {n : Node σ}

theorem view_fixed (hinv : Inv (params mode V) w) (hm : mode.members = false) {ℓ : List Entry}
    (hc : Coh (params mode V) w ℓ) (c : Nat) : (params mode V).view ℓ c = (params mode V).init := by
  rw [Params.view, cfg_fixed hinv hm hc]
  have hkeep : ∀ es : List Entry, (∀ e ∈ es, e.isConfig = false) → ∀ k : Config Mask,
      es.foldl (fun k e => k.applyJoint ((params mode V).change e)) k = k := by
    intro es hes k
    induction es with
    | nil => rfl
    | cons e es ih =>
      have he : ¬ (params mode V).IsCfg e := by
        rw [isConfig_iff, hes e List.mem_cons_self]
        decide
      rw [List.foldl_cons, not_not.mp he]
      exact ih fun e' he' => hes e' (List.mem_cons_of_mem _ he')
  exact hkeep _ (fun e he => (hinv.ok hc (List.mem_of_mem_drop he)).2 hm) _

/-- With a fixed membership a node counts in the first voters. -/
theorem Live.quorumMask_fixed (h : Live mode V w i n n.commit) (hinv : Inv (params mode V) w)
    (hm : mode.members = false) (mask : Mask) : n.quorumMask mask = .ok (majorityMask V mask) := by
  obtain ⟨v, hv, hc⟩ := h.effectiveVoters_ok hinv
  rw [view_fixed hinv hm (hinv.log_coh i).1] at hc
  have hpair : v = (V, 0) := toCfg_inj (hc : toCfg v.1 v.2 = toCfg V 0)
  rw [Node.quorumMask, hv, hpair]
  show Except.ok (majorityMask V mask && ((0 : Mask) == 0 || majorityMask 0 mask)) = _
  rw [beq_self_eq_true, Bool.true_or, Bool.and_true]

end

/-! ## The record behind a read -/

/-- The leader of the term has committed an entry of the term, or it is the only voter. -/
structure Barrier.Ripe (b : Barrier) (w : World Nat Entry) : Prop where
  lead : ∃ r, w.lead b.term = some r ∧ r.leader = b.id
  pos : 0 < b.index
  own : (∃ e, (w.llog b.term)[b.index - 1]? = some e ∧ e.term = b.term) ∨
    ∃ m, nodeBit b.id = .ok m ∧ majorityMask b.voters m = true

theorem Barrier.Ripe.ext {b : Barrier} {w w' : World Nat Entry} (h : b.Ripe w) (hx : w.Ext w') :
    b.Ripe w' := by
  refine ⟨?_, h.pos, h.own.imp_left ?_⟩
  · obtain ⟨r, hr, hl⟩ := h.lead
    exact ⟨r, hx.lead hr, hl⟩
  · rintro ⟨e, he, ht⟩
    exact ⟨e, getElem?_of_isPrefix (hx.llog _) he, ht⟩

/-- The cluster is the world `w`, whose record tells who made a commit. -/
structure Setup.Known {σ : Type} [DurableStore σ] [LawfulStore σ] (S : Setup σ) (mode : Mode)
    (w : World Nat Entry) (c : Cluster σ) : Prop where
  joined : S.Joined mode w c
  owned : Owned (· ∈ S.ids) w

section

variable {σ : Type} [DurableStore σ] [LawfulStore σ] {mode : Mode} {S : Setup σ}
  {w : World Nat Entry} {i : Nat} {n : Node σ} {c c' : Cluster σ}

theorem Setup.Known.start : S.Known mode World.start S.start := ⟨S.joined_start, .start⟩

/-- The steps of a world are those of its members. -/
theorem Setup.simulatesMembers (S : Setup σ) (mode : Mode) (himg : ∀ ℓ state, mode.Image ℓ state) :
    Simulates S.act (Permitted mode) (fun i w w' => i ∈ S.ids ∧ Steps (params mode S.voters) i w w')
      (Inv (params mode S.voters)) (ProcRep mode S) (ValidMsg mode S.voters) where
  act hinv hr hsent ha hact := by
    obtain ⟨w', hs, hr', hout⟩ := (S.simulates mode himg).act hinv hr hsent ha hact
    exact ⟨w', ⟨hr.1, hs⟩, hr', hout⟩
  inv hinv hs := (S.simulates mode himg).inv hinv hs.2
  frame hinv hs := (S.simulates mode himg).frame hinv hs.2
  sent hinv hs := (S.simulates mode himg).sent hinv hs.2

theorem Setup.Known.run (himg : ∀ ℓ state, mode.Image ℓ state) (h : S.Known mode w c)
    (hr : Net.Runs S.act (Permitted mode) c c') :
    ∃ w', w.Ext w' ∧ w.Rises w' ∧ S.Known mode w' c' := by
  obtain ⟨w', hw, hj⟩ := Network.Joined.run (S.simulatesMembers mode himg) h.joined hr
  suffices w.Ext w' ∧ w.Rises w' ∧ Owned (· ∈ S.ids) w' from
    ⟨w', this.1, this.2.1, hj, this.2.2⟩
  clear hj
  induction hw with
  | refl => exact ⟨.refl w, .refl w, h.owned⟩
  | tail _ hs ih =>
    obtain ⟨hinv, i, hi, hs⟩ := hs
    obtain ⟨hx, hrise, ho⟩ := ih
    exact ⟨hx.trans (hinv.ext_steps hs), hrise.trans hs.rises, ho.steps hinv hi hs⟩

theorem Setup.mem_voters (hi : i ∈ S.ids) : Mem i S.voters := by
  obtain ⟨n, hn, hv⟩ := S.new_ok hi (S.store i)
  obtain ⟨-, -, -, hvoters⟩ := newNodeWithStore_ids hn
  exact hv ▸ (hvoters i).mpr (.inl rfl)

/-- What a leader that reads knows is everything that is committed, if a majority has not entered a
later term. -/
theorem Barrier.Ripe.covers {b : Barrier} (h : b.Ripe w) (hinv : Inv (params mode S.voters) w)
    (ho : Owned (· ∈ S.ids) w) (hm : mode.members = false) (hv : b.voters = S.voters)
    (hi : w.commit b.id = b.index) (hq : HasMajority b.voters fun v => w.term v ≤ b.term)
    {k : Commit Nat} (hk : w.commits k) : k.idx ≤ b.index := by
  rcases h.own with ⟨e, he, het⟩ | ⟨m, hbit, hmaj⟩
  · obtain ⟨r, hr, hl⟩ := h.lead
    have hcoh : Coh (params mode S.voters) w (w.upTo k.term k.idx) :=
      (hinv.llog_coh k.term).of_isPrefix (List.take_prefix _ _)
    -- the commit was acknowledged by a node of that majority
    have hacks : HasMajority b.voters k.acks := by
      have hquorum := (hinv.commit_rec hk).2.2.2.1
      rw [view_fixed hinv hm hcoh] at hquorum
      rw [hv]
      exact hquorum S.voters (.inl rfl)
    obtain ⟨v, hearly, hack⟩ := hq.inter hacks
    have hterm := (hinv.commit_term_le hk hack).trans hearly
    rw [← hl] at hi
    have hlt : b.index - 1 < w.commit r.leader := by
      have := h.pos
      omega
    exact hi ▸ hinv.commits_le ho hr hlt he het hk hterm
  · -- the only voter has made every commit
    obtain ⟨r, hr, hle⟩ := ho.commits hk
    obtain ⟨rfl, h0, h64⟩ := nodeBit_ok hbit
    have hmem := Setup.mem_voters (ho.cand (hinv.lead_cand hr))
    have hlead : r.leader = b.id := majorityMask_bit h0 h64 hmaj (hv ▸ hmem)
    rw [hlead, hi] at hle
    exact hle

/-- The read that the node starts in the world `w`, while it is open (`o`). -/
def Node.barrier (n : Node σ) (context : UInt64) (voters : Mask) (w : World Nat Entry) (o : Prop) :
    Barrier where
  id := n.id
  context := context
  term := n.term
  index := n.commit
  voters := voters
  Early v := w.term v ≤ n.term
  Open := o

variable {V : Mask} {n' : Node σ} {context : UInt64} {w' : World Nat Entry}

theorem Begins.ripe_record {m : Mask} {ready : Bool} (h : Begins context m ready n n')
    (hr : Rep mode V w i n) (hinv : Inv (params mode V) w) (hm : mode.members = false) (o : Prop) :
    (n.barrier context V w o).Ripe w := by
  have hready := hr.ready_of_state (by rw [h.leader]; decide)
  have hlive := hready.live
  have hpos : 0 < n.commit := Nat.pos_of_ne_zero h.committed
  obtain ⟨r, hlead, rfl, hlog⟩ := hr.leads hinv h.leader
  refine ⟨⟨r, hlead, hready.id.symm⟩, hpos, ?_⟩
  rcases h.ripe with hterm | htrue
  · refine .inl ?_
    have hle := hlive.commit_le hinv
    have hget := List.getElem?_eq_getElem (show n.commit - 1 < (w.log r.leader).length by omega)
    have hlast := lastTerm_take (P := params mode V) hget
    rw [hr.termAt_eq hinv (hr.bounds.1.trans hr.bounds.2.1) le_rfl] at hterm
    rw [show n.commit - 1 + 1 = n.commit by omega, Option.some.inj hterm] at hlast
    exact ⟨_, hlog ▸ hget, hlast.symm⟩
  · refine .inr ⟨m, h.bit, ?_⟩
    have hq := h.quorum
    rw [hlive.quorumMask_fixed hinv hm, htrue] at hq
    exact Except.ok.inj hq

theorem Rep.commit_rises {k : Nat} (h : Rep mode V w' i n) (hl : n.state = .leader)
    (hrise : w.Rises w') (hk : w.commit i = k) : k ≤ n.commit := by
  calc k = w.commit i := hk.symm
    _ ≤ w'.commit i := hrise.commit i
    _ = n.commit := (h.ready_of_state (by rw [hl]; decide)).live.1.commit_eq

/-- The leader that has started a read starts it again when it is asked to. -/
theorem Barrier.Ripe.not_declines {b : Barrier} (h : b.Ripe w) (hr : Rep mode b.voters w b.id n)
    (hinv : Inv (params mode b.voters) w) (hm : mode.members = false) (hc : context ≠ 0)
    (hl : n.state = .leader) (ht : n.term = b.term) (hk : b.index ≤ n.commit) :
    ¬ Declines context n := by
  intro hd
  have hready := hr.ready_of_state (by rw [hl]; decide)
  have hpos := h.pos
  obtain ⟨hterm, m, hbit, hq⟩ := hd hl hready.faulted hc (by omega)
  rcases h.own with ⟨e, he, het⟩ | ⟨m', hbit', hmaj⟩
  · obtain ⟨r, -, -, hlog⟩ := hr.leads hinv hl
    refine hterm ?_
    rw [hr.termAt_eq hinv (hr.bounds.1.trans hr.bounds.2.1) le_rfl]
    -- the term of the last committed entry is between that of the entry and that of the node
    have hlen := hready.live.commit_le hinv
    have hlow := hinv.lastTerm_take_mono (hinv.log_coh b.id).1 hk hlen
    have hhigh := lastTerm_take_le (hinv.log_coh b.id).2 hlen
    rw [← ht, ← hlog] at he
    have hat := lastTerm_take (P := params mode b.voters) he
    rw [show b.index - 1 + 1 = b.index by omega] at hat
    have hown : (params mode b.voters).term e = b.term := het
    have hw := hr.term_eq
    exact congrArg some (by omega)
  · rw [← hready.id, hbit] at hbit'
    cases hbit'
    rw [hready.live.quorumMask_fixed hinv hm, hmaj] at hq
    cases hq

end

end Promtact.Raft
