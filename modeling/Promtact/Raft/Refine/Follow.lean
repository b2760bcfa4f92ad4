import Promtact.Raft.Refine.Election

/-!
# Following

An append that is accepted continues a prefix that the follower and the leader share
(`accepted_prefix`). The follower stores the entry, in place of a conflicting suffix if there is
one (`storeEntry_sim`), moves its commit index (`followCommit_sim`), and acknowledges what it
holds (`onAppend_sim`).
-/

namespace Promtact.Raft

open Refine Consensus

variable {σ : Type} [DurableStore σ] [LawfulStore σ] {mode : Mode} {V : Mask}
  {w : World Nat Entry} {i : Nat} {n : Node σ} {M K : Prop} {c : Nat}

/-! ## Shared prefixes -/

/-- Member `i` holds the first `k` entries of its leader. -/
def HasPrefix (w : World Nat Entry) (i k : Nat) : Prop :=
  (∃ r, w.lead (w.term i) = some r) ∧ k ≤ (w.llog (w.term i)).length ∧
    w.upTo (w.term i) k <+: w.log i

/-- A member whose term at `k` is that of its leader holds the leader's first `k` entries. -/
theorem hasPrefix_of_lastTerm {k : Nat} (hinv : Inv (params mode V) w)
    {r : Election Nat Entry} (hr : w.lead (w.term i) = some r)
    (hk : k ≤ (w.llog (w.term i)).length) (hk' : k ≤ (w.log i).length)
    (ht : (params mode V).lastTerm ((w.log i).take k) =
      (params mode V).lastTerm (w.upTo (w.term i) k)) : HasPrefix w i k := by
  refine ⟨⟨r, hr⟩, hk, ?_⟩
  rw [World.upTo, ← (hinv.log_coh i).1.take_eq_of_lastTerm (hinv.llog_coh _) hk' hk ht]
  exact List.take_prefix _ _

/-- A follower acknowledges what it holds. -/
theorem Ready.ack {k : Nat} (h : Ready mode V M K w i n c) (hinv : Inv (params mode V) w)
    (hp : HasPrefix w i k) :
    Step (params mode V) i w (w.ack i k) ∧ Ready mode V M K (w.ack i k) i n c ∧
      (w.ack i k).acked n.term i k := by
  obtain ⟨⟨r, hr⟩, hk, hpre⟩ := hp
  have hstep : Step (params mode V) i w (w.ack i k) := .ack hr hk hpre
  have hx := hinv.ext_step hstep
  refine ⟨hstep, ⟨h.id, h.sent.ext hinv hx, h.faulted, ⟨?_, h.live.2.1, h.live.2.2.1, ?_⟩,
    fun hM => (h.matched hM).ext hx, h.pending⟩, .inr ⟨h.live.1.term_eq.symm, rfl, le_rfl⟩⟩
  · have := h.live.1
    exact { holds := this.holds, clean := this.clean, term_eq := this.term_eq
            vote_eq := this.vote_eq, commit_eq := this.commit_eq, log_eq := this.log_eq
            base_eq := this.base_eq, baseTerm_eq := this.baseTerm_eq
            covers := this.covers, serial := this.serial }
  · exact ⟨h.live.2.2.2.candidate, h.live.2.2.2.leader⟩

/-- The committed entries of a member are in its leader's log. -/
theorem commit_prefix_llog (hinv : Inv (params mode V) w) {r : Election Nat Entry}
    (hr : w.lead (w.term i) = some r) : (w.log i).take (w.commit i) <+: w.llog (w.term i) :=
  hinv.backed_llog (hinv.commit_ev i) hr le_rfl

/-! ## Storing an entry -/

/-- The pending change is found again after the log was cut. -/
theorem rebuildPendingConfig_sim (hst : Stored mode V w i n.store)
    (hb : n.baseIndex ≤ n.commit) :
    NSim mode V i w rebuildPendingConfig n fun _ w' n' => w' = w ∧ ∃ p peers next mtch,
      n' = { n with pendingConfig := p, peers := peers, next := next, matchIdx := mtch } ∧
      ∀ k e, n.commit < k → n.entryAt? k = some e → e.isConfig = true → k ≤ p := by
  unfold rebuildPendingConfig
  refine Sim.seq_update (Sim.seq_get ?_)
  refine (Sim.upTo (I := fun j w' n' => w' = w ∧ ∃ p peers next mtch,
    n' = { n with pendingConfig := p, peers := peers, next := next, matchIdx := mtch } ∧
    ∀ k e, n.commit < k → k < j → n.entryAt? k = some e → e.isConfig = true → k ≤ p)
    ⟨rfl, 0, n.peers, n.next, n.matchIdx, rfl, ?_⟩ ?_).mono ?_
  · intro k e hk hj
    have hj : k < max (n.commit + 1) (n.baseIndex + 1) := hj
    omega
  · rintro j hj hjl w' n' ⟨rfl, p, peers, next, mtch, rfl, hp⟩
    refine Sim.seq_get (Sim.seq_check_of hst fun e he => ?_)
    have he : n.entryAt? j = some e := by
      unfold Node.entryAt at he
      split at he
      · cases he
        assumption
      · cases he
    refine Sim.ite (fun hc => ?_) fun hc => ?_
    · -- a later change wins
      obtain ⟨peers', next', mtch', heq, -⟩ := ensurePeers_eq
        { n with pendingConfig := j, peers := peers, next := next, matchIdx := mtch }
        (e.oldVoters ||| e.newVoters)
      refine Sim.update ⟨rfl, j, peers', next', mtch', heq, fun k e' _ hkj _ _ => by omega⟩
    · refine Sim.ret ⟨rfl, p, peers, next, mtch, rfl, fun k e' hk hkj hke hcfg => ?_⟩
      rcases Nat.lt_or_eq_of_le (Nat.lt_succ_iff.mp hkj) with hlt | rfl
      · exact hp k e' hk hlt hke hcfg
      · rw [he] at hke; cases hke; exact absurd hcfg hc
  · rintro - w' n' - ⟨rfl, p, peers, next, mtch, rfl, hp⟩
    refine ⟨rfl, p, peers, next, mtch, rfl, fun k e hk hke => hp k e hk ?_ hke⟩
    have : k ≤ n.lastIndex := by
      unfold Node.entryAt? Node.offset at hke
      split at hke
      · cases hke
      · omega
    show k < max _ (n.lastIndex + 1)
    omega

/-- The node has an entry of another term at `index`. -/
def Node.conflicts (n : Node σ) (index : Nat) (e : Entry) : Prop :=
  (n.termAt index).any (· != e.term) = true

/-- `n'` is `n` with the log cut before `index`. -/
def Cut (n n' : Node σ) (index : Nat) : Prop :=
  ∃ p peers next mtch,
    n' = { n with
      log := n.log.take (index - n.baseIndex)
      pendingConfig := p, peers := peers, next := next, matchIdx := mtch } ∧
    ∀ k e, n.commit < k → entryOf (n.log.take (index - n.baseIndex)) n.baseIndex k = some e →
      e.isConfig = true → k ≤ p

theorem truncateConflict_sim {index : Nat} {e : Entry} (hst : Stored mode V w i n.store)
    (hb : n.baseIndex ≤ n.commit) :
    NSim mode V i w (truncateConflict index e) n fun _ w' n' => w' = w ∧
      (¬ n.conflicts index e ∧ n' = n ∨ n.conflicts index e ∧ Cut n n' index) := by
  unfold truncateConflict
  refine Sim.seq_get (Sim.ite (fun hc => ?_) fun hc => Sim.ret ⟨rfl, .inl ⟨hc, rfl⟩⟩)
  refine Sim.seq_update ((rebuildPendingConfig_sim
    (n := { n with log := n.log.take (index - n.baseIndex) }) hst hb).mono ?_)
  rintro - w' n' - ⟨rfl, p, peers, next, mtch, rfl, hp⟩
  refine ⟨rfl, .inr ⟨hc, p, peers, next, mtch, rfl, fun k e' hk hke => hp k e' hk ?_⟩⟩
  rw [entryAt?_eq]; exact hke

/-- The last entry of a log that was cut and continued. -/
theorem entryOf_snoc {log : List Entry} {base k : Nat} {e e' : Entry}
    (h : entryOf (log ++ [e]) base k = some e') :
    entryOf log base k = some e' ∨ k = base + log.length ∧ e' = e := by
  unfold entryOf at h ⊢
  split at h
  · rename_i hb
    rw [if_pos hb]
    rcases Nat.lt_trichotomy (k - base) log.length with hlt | heq | hgt
    · rw [List.getElem?_append_left hlt] at h; exact .inl h
    · rw [heq] at h; simp at h; exact .inr ⟨by omega, h.symm⟩
    · rw [List.getElem?_eq_none (by simp; omega)] at h; cases h
  · cases h

/-- A follower that stored the next entry of its leader. -/
theorem Ready.adopt {index : Nat} {e : Entry} {s' : σ} {p : Nat} {peers : List Nat}
    {next mtch : Nat → Nat} (h : Ready mode V True True w i n n.commit)
    (hinv : Inv (params mode V) w) (hst : n.state = .follower)
    (hs : StableStore.append index e n.store = .ok () s') (hb : n.commit < index)
    (hk : index ≤ (w.log i).length + 1)
    (hstep : Step (params mode V) i w (w.adopt i index))
    (hl : (w.adopt i index).log i = (w.log i).take (index - 1) ++ [e])
    (hp : ∀ k e', n.commit < k →
      entryOf (n.log.take (index - n.baseIndex) ++ [e]) n.baseIndex k = some e' →
      e'.isConfig = true → k ≤ p)
    (hone : mode.serial = true → e.isConfig = true → ∀ j e', w.commit i ≤ j → j < index - 1 →
      (w.log i)[j]? = some e' → e'.isConfig = false) :
    Ready mode V True True (w.adopt i index) i { n with
      store := s', log := n.log.take (index - n.baseIndex) ++ [e]
      pendingConfig := p, peers := peers, next := next, matchIdx := mtch } n.commit := by
  have hx := hinv.ext_step hstep
  have hbase := h.live.2.1
  have hheld := h.live.1.append hs (by omega) hk
    (show (w.adopt i index).term i = w.term i from rfl) rfl rfl hl hone
  have hcfg : toCfg n.votersOld n.votersNew =
      (params mode V).cfg (((w.adopt i index).log i).take n.commit) := by
    have hcl := h.live.commit_le hinv
    rw [hl, List.take_append_of_le_length (by simp; omega), List.take_take,
      Nat.min_eq_left (by omega)]
    exact h.live.2.2.1
  refine ⟨h.id, h.sent.ext hinv hx, h.faulted, ⟨hheld, h.live.2.1, hcfg, ?_, ?_⟩, ?_, ?_⟩
  · intro hc; rw [hst] at hc; cases hc
  · intro hc; rw [hst] at hc; cases hc
  · intro _ hc; rw [hst] at hc; cases hc
  · intro _ k e' hk' hke hc
    refine hp (k + 1) e' (Nat.lt_succ_of_le hk') ?_ hc
    have hk' : n.commit ≤ k := hk'
    rw [hheld.entryOf_eq (by omega)]; exact hke

/-- A node that was cut above its commit index may stop. -/
theorem Ready.failed_cut {index : Nat} {n' : Node σ} {s' : σ}
    (h : Ready mode V True True w i n n.commit) (hcut : Cut n n' index) (hb : n.commit < index)
    (hs : Stored mode V w i s') : Failed mode V w i { n' with store := s' } := by
  obtain ⟨p, peers, next, mtch, rfl, -⟩ := hcut
  have hbase := h.live.2.1
  have hset := h.live.settled fun _ => h.live.2.2.1
  have hsame : ∀ k, k ≤ n.commit →
      entryOf (n.log.take (index - n.baseIndex)) n.baseIndex k = entryOf n.log n.baseIndex k := by
    intro k hk
    unfold entryOf
    split
    · rw [List.getElem?_take_of_lt (by omega)]
    · rfl
  refine ⟨hs, hset.term_eq, hset.base_le, hset.applied_le, hset.commit_le, fun k hk1 hk2 => ?_, ?_,
    hset.masks, hset.uncompacted⟩
  · exact (hsame k hk2).trans (hset.entry k hk1 hk2)
  · exact (congrArg _ (hsame n.baseIndex (by omega))).trans hset.baseTerm

theorem appendEntry_sim {index : Nat} {e : Entry} {n' : Node σ}
    (h : Ready mode V True True w i n n.commit) (hinv : Inv (params mode V) w)
    (hst : n.state = .follower) (hcut : Cut n n' index) (hb : n.commit < index)
    (hk : index ≤ (w.log i).length + 1)
    (hstep : Step (params mode V) i w (w.adopt i index))
    (hl : (w.adopt i index).log i = (w.log i).take (index - 1) ++ [e])
    (hone : mode.serial = true → e.isConfig = true → ∀ j e', w.commit i ≤ j → j < index - 1 →
      (w.log i)[j]? = some e' → e'.isConfig = false) :
    NSim mode V i w (appendEntry index e) n' fun b w' n' =>
      if b then w' = w.adopt i index ∧ Ready mode V True True w' i n' n'.commit
      else Rep mode V w' i n' := by
  have hfail := fun s' (hs : Stored mode V w i s') => h.failed_cut hcut hb hs
  obtain ⟨p, peers, next, mtch, rfl, hpend⟩ := hcut
  have hlast := h.live.lastIndex_eq
  have hbase := h.live.1.base_le
  have hb2 := h.live.2.1
  have hlen : n.baseIndex + (n.log.take (index - n.baseIndex)).length = index := by
    unfold Node.lastIndex at hlast
    obtain ⟨e0, he0, -⟩ := h.live.1.log_eq
    have : 0 < n.log.length := by rw [he0]; simp
    rw [List.length_take]; omega
  unfold appendEntry
  refine Sim.seq (Q := fun b w'' n'' => if b then w'' = w.adopt i index ∧
      ∃ s', n'' = { n with
        store := s', log := n.log.take (index - n.baseIndex)
        pendingConfig := p, peers := peers, next := next, matchIdx := mtch } ∧
      StableStore.append index e n.store = .ok () s'
      else Rep mode V w'' i n'') (callStoreOrFail_sim ?_ ?_) ?_
  · exact fun s' hs => ⟨_, .single hstep, rfl, s', rfl, hs⟩
  · exact fun err s' hs => (hfail s' (h.live.stored.append_error hs)).rep h.id
  · rintro (_ | _) w'' n'' - hQ
    · exact Sim.ret hQ
    obtain ⟨rfl, s', rfl, hs⟩ := hQ
    refine Sim.seq_update (Sim.seq_update (Sim.ret ⟨rfl, ?_⟩))
    split
    · obtain ⟨peers', next', mtch', heq, -⟩ := ensurePeers_eq
        { n with
          store := s', log := n.log.take (index - n.baseIndex) ++ [e]
          pendingConfig := index, peers := peers, next := next, matchIdx := mtch }
        (e.oldVoters ||| e.newVoters)
      rw [heq]
      refine h.adopt hinv hst hs hb hk hstep hl (fun k e' hk' hke hc => ?_) hone
      rcases entryOf_snoc hke with hke | ⟨hk', -⟩
      · have hkl : k - n.baseIndex < (n.log.take (index - n.baseIndex)).length := by
          unfold entryOf at hke
          split at hke
          · exact getElem?_lt hke
          · cases hke
        show k ≤ index
        omega
      · show k ≤ index
        omega
    · rename_i hnc
      refine h.adopt hinv hst hs hb hk hstep hl (fun k e' hk' hke hc => ?_) hone
      rcases entryOf_snoc hke with hke | ⟨-, rfl⟩
      · exact hpend k e' hk' hke hc
      · exact absurd hc hnc

/-- The next entry of the leader, after a prefix that the follower shares. -/
theorem HasPrefix.upTo_succ {k : Nat} {e : Entry} (h : HasPrefix w i k)
    (he : (w.llog (w.term i))[k]? = some e) :
    w.upTo (w.term i) (k + 1) = (w.log i).take k ++ [e] := by
  obtain ⟨-, hk, hpre⟩ := h
  have hlt := getElem?_lt he
  rw [World.upTo, List.take_succ_eq_append_getElem hlt, (List.getElem?_eq_some_iff.mp he).2]
  congr 1
  have := take_eq_of_isPrefix hpre (k := k) (by rw [World.upTo, List.length_take]; omega)
  rwa [World.upTo, List.take_take, Nat.min_self] at this

theorem HasPrefix.le_length {k : Nat} (h : HasPrefix w i k) : k ≤ (w.log i).length := by
  obtain ⟨-, hk, hpre⟩ := h
  have := hpre.length_le
  rw [World.upTo, List.length_take] at this; omega

/-- A node without a conflict at `index` that does not hold the leader's entry there ends before
it. -/
theorem Ready.cut_self {index : Nat} {e : Entry} (h : Ready mode V True True w i n n.commit)
    (hinv : Inv (params mode V) w) (hb : n.baseIndex ≤ index) (hp : HasPrefix w i index)
    (he : (w.llog (w.term i))[index]? = some e) (hno : ¬ n.conflicts (index + 1) e)
    (hhas : ¬ HasPrefix w i (index + 1)) : Cut n n (index + 1) ∧ (w.log i).length = index := by
  have hlast := h.live.lastIndex_eq
  have hbase := h.live.2.1
  obtain ⟨r, hr⟩ := hp.1
  have hend : (w.log i).length = index := by
    by_contra hne
    have hl : index + 1 ≤ (w.log i).length := by have := hp.le_length; omega
    refine hhas (hasPrefix_of_lastTerm hinv hr (getElem?_lt he) hl ?_)
    rw [Node.conflicts, h.live.termAt_eq (by omega) hl] at hno
    rw [World.upTo, lastTerm_take he]
    simp only [Option.any_some, bne_iff_ne, ne_eq, not_not] at hno
    exact hno
  have hfull : n.log.take (index + 1 - n.baseIndex) = n.log := by
    refine List.take_of_length_le ?_
    unfold Node.lastIndex at hlast; omega
  refine ⟨⟨n.pendingConfig, n.peers, n.next, n.matchIdx, by rw [hfull], ?_⟩, hend⟩
  intro k e' hk hke hc
  rw [hfull, h.live.1.entryOf_eq (by omega)] at hke
  have := h.pending trivial (k - 1) e' (by omega) hke hc
  omega

theorem storeEntry_sim {m : Message} (h : Ready mode V True True w i n n.commit)
    (hinv : Inv (params mode V) w) (hst : n.state = .follower) (hb : n.baseIndex ≤ m.logIndex)
    (hp : HasPrefix w i m.logIndex)
    (he : m.hasEntry = true → (w.llog (w.term i))[m.logIndex]? = some m.entry)
    (hone : mode.serial = true → m.hasEntry = true → m.entry.isConfig = true →
      n.conflicts (m.logIndex + 1) m.entry ∨ m.logIndex = n.lastIndex →
      ∀ j e, w.commit i ≤ j → j < m.logIndex → (w.log i)[j]? = some e → e.isConfig = false) :
    NSim mode V i w (storeEntry m) n fun b w' n' =>
      if b then Ready mode V True True w' i n' n'.commit ∧ HasPrefix w' i m.matched ∧
        (w' = w ∨ w' = w.adopt i (m.logIndex + 1))
      else Rep mode V w' i n' := by
  unfold storeEntry Message.matched
  refine Sim.ite (fun hhas => ?_) fun hhas => Sim.ret ⟨h, by rwa [if_neg hhas], .inl rfl⟩
  rw [if_pos hhas]
  replace he := he hhas
  replace hone := fun hs => hone hs hhas
  obtain ⟨r, hr⟩ := hp.1
  have hlt := getElem?_lt he
  have hlast := h.live.lastIndex_eq
  have hbase := h.live.2.1
  refine Sim.seq (truncateConflict_sim h.live.stored (by omega)) ?_
  rintro - w' n' - ⟨rfl, hcut⟩
  by_cases hhas : HasPrefix w' i (m.logIndex + 1)
  · -- the follower holds the entry
    have hget : (w'.log i)[m.logIndex]? = some m.entry := by
      refine getElem?_of_isPrefix hhas.2.2 ?_
      rw [World.upTo, List.getElem?_take_of_lt (by omega)]; exact he
    have hterm : n.termAt (m.logIndex + 1) = some m.entry.term := by
      rw [h.live.termAt_eq (by omega) (getElem?_lt hget), lastTerm_take hget]; rfl
    rcases hcut with ⟨-, rfl⟩ | ⟨hc, -⟩
    · refine Sim.seq_get ?_
      rw [if_neg (by rw [hlast]; have := getElem?_lt hget; omega)]
      exact Sim.ret ⟨h, hhas, .inl rfl⟩
    · rw [Node.conflicts, hterm] at hc; simp at hc
  · -- it does not, and takes the leader's prefix instead
    have hnp : ¬ w'.upTo (w'.term i) (m.logIndex + 1) <+: w'.log i :=
      fun hcon => hhas ⟨⟨r, hr⟩, hlt, hcon⟩
    have hstep : Step (params mode V) i w' (w'.adopt i (m.logIndex + 1)) := .adopt hr hlt hnp
    have hlog : (w'.adopt i (m.logIndex + 1)).log i =
        (w'.log i).take (m.logIndex + 1 - 1) ++ [m.entry] :=
      (Function.update_self ..).trans (hp.upTo_succ he)
    have hcommit : n.commit < m.logIndex + 1 := by
      by_contra hge
      have hcp := commit_prefix_llog hinv hr
      have hcl := h.live.commit_le hinv
      rw [h.live.1.commit_eq] at hcp
      refine hnp ((prefix_of_le (List.take_prefix _ _) hcp ?_).trans (List.take_prefix _ _))
      rw [List.length_take, List.length_take]; omega
    obtain ⟨hcut, hwhy⟩ : Cut n n' (m.logIndex + 1) ∧
        (n.conflicts (m.logIndex + 1) m.entry ∨ m.logIndex = n.lastIndex) := by
      rcases hcut with ⟨hno, rfl⟩ | ⟨hc, hcut⟩
      · obtain ⟨hcut, hend⟩ := h.cut_self hinv hb hp he hno hhas
        exact ⟨hcut, .inr (by rw [hlast, hend])⟩
      · exact ⟨hcut, .inl hc⟩
    have hend : m.logIndex + 1 = n'.lastIndex + 1 := by
      obtain ⟨p, peers, next, mtch, rfl, -⟩ := hcut
      show m.logIndex + 1 = n.baseIndex + (n.log.take (m.logIndex + 1 - n.baseIndex)).length - 1 + 1
      have := hp.le_length
      unfold Node.lastIndex at hlast
      rw [List.length_take]; omega
    refine Sim.seq_get ?_
    rw [if_pos hend]
    have hle := hp.le_length
    refine (appendEntry_sim h hinv hst hcut hcommit (by omega) hstep hlog
      fun hs hc => hone hs hc hwhy).mono ?_
    rintro (_ | _) w'' n'' - hQ
    · exact hQ
    · obtain ⟨rfl, hready⟩ := hQ
      refine ⟨hready, ⟨⟨r, hr⟩, hlt, ?_⟩, .inr rfl⟩
      show w'.upTo (w'.term i) (m.logIndex + 1) <+: (w'.adopt i (m.logIndex + 1)).log i
      rw [hlog, hp.upTo_succ he]; exact List.prefix_rfl

/-! ## Following the commit index -/

theorem matched_le {m : Message} : m.logIndex ≤ m.matched ∧ m.matched ≤ m.logIndex + 1 := by
  unfold Message.matched; split <;> omega

/-- A follower that persisted the commit index it heard of. -/
theorem Ready.learn {commit : Nat} {s' : σ} (h : Ready mode V M K w i n n.commit)
    (hinv : Inv (params mode V) w)
    (hs : StableStore.saveHardState (n.hardState commit) n.store = .ok () s')
    (hlt : n.commit < commit) (hstep : Step (params mode V) i w (w.learn i commit)) :
    Ready mode V M K (w.learn i commit) i { n with store := s', commit := commit } n.commit := by
  have hx := hinv.ext_step hstep
  have hb := h.live.2.1
  refine ⟨h.id, h.sent.ext hinv hx, h.faulted, ⟨?_, ?_, h.live.2.2.1, ?_⟩,
    fun hM => (h.matched hM).ext hx, fun hK => (h.pending hK).mono hlt.le⟩
  · refine h.live.1.persist hs h.live.1.term_eq h.live.1.vote_eq rfl (Function.update_self ..)
      hlt.le
  · exact ⟨hb.1, by show n.applied ≤ commit; omega⟩
  · exact ⟨h.live.2.2.2.candidate, h.live.2.2.2.leader⟩

theorem followCommit_sim {m : Message} (h : Ready mode V True True w i n n.commit)
    (hinv : Inv (params mode V) w) (hp : HasPrefix w i m.matched)
    (hb : w.Backed (w.term i) (w.llog (w.term i)) m.commit) :
    NSim mode V i w (followCommit m) n fun b w' n' =>
      if b then Ready mode V True True w' i n' n'.commit ∧ HasPrefix w' i m.matched
      else Rep mode V w' i n' := by
  unfold followCommit
  refine Sim.seq_get (Sim.ite (fun hc => ?_) fun _ => Sim.ret ⟨h, hp⟩)
  have hlt : n.commit < min m.commit m.matched := by
    have := matched_le (m := m)
    rcases hc.2 with hgt | ⟨hhas, hgt⟩
    · omega
    · have : m.matched = m.logIndex + 1 := by unfold Message.matched; rw [if_pos hhas]
      omega
  have hstep : Step (params mode V) i w (w.learn i (min m.commit m.matched)) := by
    refine .learn ((hb.mono le_rfl (List.take_prefix _ _)
      (Nat.min_le_left _ m.matched)).mono le_rfl ?_ le_rfl) (h.live.1.commit_eq ▸ hlt.le)
    exact (take_prefix_take (Nat.min_le_right _ _)).trans hp.2.2
  refine Sim.seq (Q := fun b w' n' => if b then w' = w.learn i (min m.commit m.matched) ∧
      Ready mode V True True w' i { n' with commit := min m.commit m.matched } n.commit ∧
        n'.baseIndex = n.baseIndex
      else Rep mode V w' i n') (callStoreOrFail_sim ?_ ?_) ?_
  · exact fun s' hs => ⟨_, .single hstep, rfl, h.learn hinv hs hlt hstep, rfl⟩
  · exact fun e s' hs => h.fail (h.live.stored.saveHardState_error hs)
  · rintro (_ | _) w' n' - hQ
    · exact Sim.ret hQ
    obtain ⟨rfl, hr, hbase⟩ := hQ
    refine Sim.seq_update (Sim.seq (applyCommittedConfigurations_sim hr (hinv.step hstep) ?_
      hlt.le rfl) ?_)
    · show n'.baseIndex ≤ n.commit
      rw [hbase]; have := h.live.2.1; omega
    · rintro - w'' n'' - ⟨rfl, hr'⟩
      exact Sim.ret ⟨hr', hp⟩

/-! ## Appends -/

/-- An append that is not rejected continues a prefix that the follower and the leader share. -/
theorem accepted_prefix {m : Message} (h : Ready mode V True True w i n n.commit)
    (hinv : Inv (params mode V) w) (hle : m.term ≤ n.term) (hty : m.type = .append)
    (hm : ValidMsg mode V w m) (hrej : ¬ n.rejectsAppend m = true) :
    n.baseIndex ≤ m.logIndex ∧ HasPrefix w i m.logIndex ∧
      (m.hasEntry = true → (w.llog (w.term i))[m.logIndex]? = some m.entry) ∧
      w.Backed (w.term i) (w.llog (w.term i)) m.commit := by
  simp only [Node.rejectsAppend, Bool.or_eq_true, decide_eq_true_eq, not_or, bne_iff_ne, ne_eq,
    not_not] at hrej
  obtain ⟨⟨hge, hterm⟩, -⟩ := hrej
  have heq : m.term = w.term i := by rw [h.live.1.term_eq]; omega
  unfold ValidMsg at hm
  rw [hty] at hm
  obtain ⟨r, hr, -, hk, ht, he, hb⟩ := hm
  rw [heq] at hr hk ht he hb
  have hbl : n.baseIndex ≤ m.logIndex := by
    by_contra hlt
    rw [Node.termAt, entryAt?_eq, entryOf, if_neg hlt] at hterm
    cases hterm
  have hll : m.logIndex ≤ (w.log i).length := by
    by_contra hlt
    rw [h.live.termAt_none (by omega)] at hterm
    cases hterm
  rw [h.live.termAt_eq hbl hll, Option.some_inj, ← ht] at hterm
  exact ⟨hbl, hasPrefix_of_lastTerm hinv hr hk hll hterm, he, hb⟩

/-- An entry in the place of another does not add a second change to those that are not
committed. -/
def AppendSafe (n : Node σ) (m : Message) : Prop :=
  m.hasEntry = true → m.entry.isConfig = true → n.conflicts (m.logIndex + 1) m.entry →
    ∀ k e, n.commit < k → k ≤ m.logIndex → n.entryAt? k = some e → e.isConfig = false

omit [DurableStore σ] [LawfulStore σ] in
theorem validNewEntry_pending {e : Entry} (h : n.validNewEntry e = true) (hc : e.isConfig = true) :
    n.pendingConfig = 0 := by
  unfold Node.validNewEntry at h
  unfold Entry.isConfig at hc
  cases hk : e.kind <;> simp_all

/-- An accepted change follows changes that are committed. -/
theorem accepted_serial {m : Message} (h : Ready mode V True True w i n n.commit)
    (hrej : ¬ n.rejectsAppend m = true) (hsafe : AppendSafe n m) (hhas : m.hasEntry = true)
    (hc : m.entry.isConfig = true)
    (hwhy : n.conflicts (m.logIndex + 1) m.entry ∨ m.logIndex = n.lastIndex) {j : Nat} {e : Entry}
    (hj : w.commit i ≤ j) (hjm : j < m.logIndex) (he : (w.log i)[j]? = some e) :
    e.isConfig = false := by
  have hb := h.live.2.1
  rw [h.live.1.commit_eq] at hj
  rcases hwhy with hwhy | hwhy
  · refine hsafe hhas hc hwhy (j + 1) e (by omega) hjm ?_
    rw [h.live.entryAt?_eq (by omega)]; exact he
  · simp only [Node.rejectsAppend, Bool.or_eq_true, not_or, hhas, hwhy, Bool.true_and, beq_self_eq_true,
      Bool.not_eq_true', Bool.not_eq_false] at hrej
    have hp := h.pending trivial j e hj he
    rw [validNewEntry_pending hrej.2 hc] at hp
    by_contra hne
    exact absurd (hp (by simpa using hne)) (Nat.not_lt_zero _)

theorem onAppend_sim {m : Message} (h : Ready mode V True True w i n n.commit)
    (hinv : Inv (params mode V) w) (hle : m.term ≤ n.term) (hty : m.type = .append)
    (hm : ValidMsg mode V w m)
    (hsafe : mode.serial = true → n.rejectsAppend m = false → AppendSafe n m) :
    NSim mode V i w (onAppend m) n fun _ w' n' => Rep mode V w' i n' := by
  unfold onAppend
  refine Sim.seq_get (Sim.ite (fun _ => ?_) fun hrej => ?_)
  · refine (send_sim h.live.stored h.sent ?_).mono fun _ _ _ _ hc => hc.rep h
    exact (nomatch ·)
  obtain ⟨hbl, hp, he, hb⟩ := accepted_prefix h hinv hle hty hm hrej
  have hr : Ready mode V True True w i
      { n with state := .follower, leader := m.src, elapsed := 0 } n.commit :=
    h.stepDown m.src 0 n.readReady
  refine Sim.seq_update (Sim.seq (storeEntry_sim hr hinv rfl hbl hp he fun hs hhas hc hwhy j e =>
    accepted_serial h hrej (hsafe hs (by simpa using hrej)) hhas hc hwhy) ?_)
  rintro (_ | _) w' n' hs hQ
  · exact Sim.ret hQ
  obtain ⟨hr', hp', hw⟩ := hQ
  have hb' : w'.Backed (w'.term i) (w'.llog (w'.term i)) m.commit := by
    rcases hw with rfl | rfl <;> exact hb
  refine Sim.seq (followCommit_sim hr' (hinv.steps hs) hp' hb') ?_
  rintro (_ | _) w'' n'' hs' hQ
  · exact Sim.ret hQ
  obtain ⟨hstep, hready, hack⟩ := hQ.1.ack ((hinv.steps hs).steps hs') hQ.2
  refine Sim.seq_get (Sim.step hstep ?_)
  refine (send_sim hready.live.stored hready.sent ?_).mono fun _ _ _ _ hc => hc.rep hready
  intro _
  show (w''.ack i m.matched).acked n''.term n''.id m.matched
  rw [hready.id]; exact hack

end Promtact.Raft
