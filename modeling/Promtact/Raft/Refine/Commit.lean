import Promtact.Raft.Refine.Basic

/-!
# Committing

When a commit index moves, the node first persists it and then applies the configurations up to
it (`applyCommittedConfigurations_sim`: the voters follow the log one entry at a time). A leader
commits on the acknowledgements of its peers (`commitIndex_sim`), or alone when it is a quorum of
its own (`appendLocal_sim`). The proposals are appends of a leader.
-/

namespace Promtact.Raft

open Refine Consensus

variable {σ : Type} [DurableStore σ] [LawfulStore σ] {mode : Mode} {V : Mask}
  {w : World Nat Entry} {i : Nat} {n : Node σ} {M K : Prop} {c : Nat}

/-! ## Peers -/

omit [DurableStore σ] [LawfulStore σ] in
theorem ensurePeer_eq (n : Node σ) (mask : Mask) (id : Nat) :
    ∃ peers next mtch,
      n.ensurePeer mask id = { n with peers := peers, next := next, matchIdx := mtch } ∧
      ∀ p ∈ peers, mtch p = 0 ∨ p ∈ n.peers ∧ mtch p = n.matchIdx p := by
  unfold Node.ensurePeer
  split
  · exact ⟨n.peers, n.next, n.matchIdx, rfl, fun p hp => .inr ⟨hp, rfl⟩⟩
  split
  · exact ⟨n.peers, n.next, n.matchIdx, rfl, fun p hp => .inr ⟨hp, rfl⟩⟩
  · refine ⟨_, _, _, rfl, fun p hp => ?_⟩
    by_cases hpid : p = id
    · subst hpid; exact .inl (Function.update_self ..)
    · rcases List.mem_append.mp hp with hp | hp
      · exact .inr ⟨hp, Function.update_of_ne hpid ..⟩
      · exact absurd (List.mem_singleton.mp hp) hpid

omit [DurableStore σ] [LawfulStore σ] in
/-- A peer that is added has nothing acknowledged yet. -/
theorem ensurePeers_eq (n : Node σ) (mask : Mask) :
    ∃ peers next mtch,
      n.ensurePeers mask = { n with peers := peers, next := next, matchIdx := mtch } ∧
      ∀ p ∈ peers, mtch p = 0 ∨ p ∈ n.peers ∧ mtch p = n.matchIdx p := by
  suffices key : ∀ (ids : List Nat) (n : Node σ), ∃ peers next mtch,
      ids.foldl (fun n id => n.ensurePeer mask id) n =
        { n with peers := peers, next := next, matchIdx := mtch } ∧
      ∀ p ∈ peers, mtch p = 0 ∨ p ∈ n.peers ∧ mtch p = n.matchIdx p from key _ n
  intro ids
  induction ids with
  | nil => exact fun n => ⟨n.peers, n.next, n.matchIdx, rfl, fun p hp => .inr ⟨hp, rfl⟩⟩
  | cons id ids ih =>
    intro n
    obtain ⟨peers, next, mtch, h1, h2⟩ := ensurePeer_eq n mask id
    obtain ⟨peers', next', mtch', h1', h2'⟩ := ih (n.ensurePeer mask id)
    rw [h1] at h1' h2'
    refine ⟨peers', next', mtch', by rw [List.foldl_cons, h1, h1'], fun p hp => ?_⟩
    rcases h2' p hp with h0 | ⟨hp', he⟩
    · exact .inl h0
    · rcases h2 p hp' with h0 | ⟨hp'', he'⟩
      · exact .inl (he.trans h0)
      · exact .inr ⟨hp'', he.trans he'⟩

theorem Ready.ensurePeers (h : Ready mode V M K w i n c) (mask : Mask) :
    Ready mode V M K w i (n.ensurePeers mask) c ∧ (n.ensurePeers mask).commit = n.commit ∧
      (n.ensurePeers mask).baseIndex = n.baseIndex := by
  obtain ⟨peers, next, mtch, he, hp⟩ := ensurePeers_eq n mask
  rw [he]
  refine ⟨⟨h.id, h.sent, h.faulted, h.live, fun hM hst p hpp => ?_, h.pending⟩, rfl, rfl⟩
  rcases hp p hpp with h0 | ⟨hp', heq⟩
  · exact .inl h0
  · show mtch p = 0 ∨ w.acked n.term p (mtch p)
    rw [heq]; exact h.matched hM hst p hp'

/-! ## Configurations -/

theorem toCfg_apply {e : Entry} (he : e.Valid) (old new : Mask) :
    (e.kind = .jointConfig → toCfg e.oldVoters e.newVoters = (toCfg old new).apply e.change) ∧
    (e.kind = .finalConfig → toCfg e.oldVoters 0 = (toCfg old new).apply e.change) ∧
    (e.isConfig = false → toCfg old new = (toCfg old new).apply e.change) := by
  unfold Entry.Valid at he
  unfold Entry.change Entry.isConfig
  refine ⟨fun hk => ?_, fun hk => ?_, fun hk => ?_⟩
  · rw [hk] at he ⊢
    rw [toCfg, if_neg he.2]; rfl
  · rw [hk]; rfl
  · cases hkk : e.kind <;> simp [hkk] at hk ⊢ <;> rfl

/-- The voters after one more entry. -/
theorem Ready.setVoters (h : Ready mode V M K w i n c) {old new : Mask} {c' : Nat}
    (hm : toCfg old new = (params mode V).cfg ((w.log i).take c')) :
    Ready mode V M K w i { n with votersOld := old, votersNew := new } c' :=
  ⟨h.id, h.sent, h.faulted, ⟨h.live.1, h.live.2.1, hm, h.live.2.2.2⟩, h.matched, h.pending⟩

/-- A node that leaves its role keeps everything else. -/
theorem Ready.stepDown (h : Ready mode V M K w i n c) (leader elapsed : Nat) (ready : Bool) :
    Ready mode V M K w i { n with
      state := .follower, leader := leader, elapsed := elapsed, readReady := ready } c :=
  ⟨h.id, h.sent, h.faulted, ⟨h.live.1, h.live.2.1, h.live.2.2.1, nofun, nofun⟩, nofun, h.pending⟩

theorem applyConfiguration_sim {e : Entry} (h : Ready mode V M K w i n c)
    (hinv : Inv (params mode V) w) (he : (w.log i)[c]? = some e) :
    NSim mode V i w (applyConfiguration e) n fun _ w' n' =>
      w' = w ∧ Ready mode V M K w i n' (c + 1) ∧ n'.commit = n.commit ∧
        n'.baseIndex = n.baseIndex := by
  have hvalid := Inv.valid hinv (List.mem_of_getElem? he)
  have hcfg : (params mode V).cfg ((w.log i).take (c + 1)) =
      ((params mode V).cfg ((w.log i).take c)).apply e.change := by
    rw [List.take_succ_eq_append_getElem (getElem?_lt he), Params.cfg_snoc,
      (List.getElem?_eq_some_iff.mp he).2]
    rfl
  obtain ⟨hj, hf, hk⟩ := toCfg_apply hvalid n.votersOld n.votersNew
  rw [h.live.2.2.1, ← hcfg] at hj hf hk
  unfold applyConfiguration
  cases hkind : e.kind with
  | jointConfig =>
    exact Sim.update ⟨rfl, (h.setVoters (hj hkind)).ensurePeers (e.oldVoters ||| e.newVoters)⟩
  | finalConfig =>
    have h1 := h.setVoters (hf hkind)
    refine Sim.seq_update (Sim.seq_get (Sim.seq_check_of h.live.stored fun voter _ => ?_))
    refine Sim.ite (fun _ => Sim.ret ⟨rfl, h1, rfl, rfl⟩) fun _ => Sim.update ⟨rfl, ?_, rfl, rfl⟩
    exact h1.stepDown 0 n.elapsed false
  | _ =>
    have hsame := hk (by simp [Entry.isConfig, hkind])
    rw [← h.live.2.2.1] at hsame
    exact Sim.ret ⟨rfl, h.setVoters hsame, rfl, rfl⟩

theorem Ready.clearPending (h : Ready mode V M K w i n c) {index : Nat} (hi : index ≤ n.commit)
    {n' : Node σ}
    (hn : n' = if index = n.pendingConfig then { n with pendingConfig := 0 } else n) :
    Ready mode V M K w i n' c ∧ n'.commit = n.commit ∧ n'.baseIndex = n.baseIndex := by
  subst hn
  split
  · refine ⟨⟨h.id, h.sent, h.faulted, h.live, h.matched, fun hK k e hk he hc => ?_⟩, rfl, rfl⟩
    -- a change that is not committed would be below an index that is
    have := h.pending hK k e hk he hc
    have : n.commit ≤ k := hk
    omega
  · exact ⟨h, rfl, rfl⟩

/-- The voters follow the commit index. -/
theorem applyCommittedConfigurations_sim (h : Ready mode V M K w i n c)
    (hinv : Inv (params mode V) w) (hb : n.baseIndex ≤ c) (hc : c ≤ n.commit) {last : Nat}
    (hlast : last = n.commit) :
    NSim mode V i w (applyCommittedConfigurations (c + 1) last) n fun _ w' n' =>
      w' = w ∧ Ready mode V M K w i n' n'.commit := by
  subst hlast
  unfold applyCommittedConfigurations
  refine Sim.seq_get ?_
  rw [if_neg (by omega)]
  refine (Sim.upTo (I := fun k w' n' => w' = w ∧ Ready mode V M K w i n' (k - 1) ∧
    n'.commit = n.commit ∧ n'.baseIndex = n.baseIndex) ⟨rfl, h, rfl, rfl⟩ ?_).mono ?_
  · rintro k hk hkl w' n' ⟨rfl, hr, hcm, hbase⟩
    refine Sim.seq_get (Sim.seq_check_of hr.live.stored fun e he => ?_)
    have he := hr.live.entryAt_inv (by omega) he
    refine Sim.seq (applyConfiguration_sim hr hinv he) ?_
    rintro - w'' n'' - ⟨rfl, hr', hcm', hbase'⟩
    obtain ⟨h1, h2, h3⟩ := hr'.clearPending (show k ≤ n''.commit by omega) rfl
    rw [show k - 1 + 1 = k + 1 - 1 by omega] at h1
    exact Sim.update ⟨rfl, h1, h2.trans (hcm'.trans hcm), h3.trans (hbase'.trans hbase)⟩
  · rintro - w' n' - ⟨rfl, hr, hcm, -⟩
    refine ⟨rfl, ?_⟩
    rw [show max (c + 1) (n.commit + 1) - 1 = n'.commit by omega] at hr
    exact hr

/-! ## Moving the commit index -/

theorem Serial.mono {ℓ : List Entry} {c c' : Nat} (h : Serial ℓ c) (hc : c ≤ c') : Serial ℓ c' :=
  fun j k e e' hj => h j k e e' (hc.trans hj)

/-- A log whose changes are all committed may take one. -/
theorem Serial.snoc {ℓ : List Entry} {c k : Nat} {e : Entry} (h : Serial ℓ c)
    (hk : k ≤ ℓ.length)
    (he : e.isConfig = true → ∀ j e', c ≤ j → j < k → ℓ[j]? = some e' → e'.isConfig = false) :
    Serial (ℓ.take k ++ [e]) c := by
  have hlen : (ℓ.take k).length = k := by rw [List.length_take]; omega
  have hold : ∀ {j e'}, j < k → (ℓ.take k ++ [e])[j]? = some e' → ℓ[j]? = some e' := by
    intro j e' hj hje
    rwa [List.getElem?_append_left (by omega), List.getElem?_take_of_lt hj] at hje
  intro j j' e₁ e₂ hj hjj h₁ h₂ hc
  have hlt := getElem?_lt h₂
  rw [List.length_append, hlen, List.length_singleton] at hlt
  rcases Nat.lt_or_eq_of_le (Nat.lt_succ_iff.mp hlt) with hlt | rfl
  · exact h j j' e₁ e₂ hj hjj (hold (by omega) h₁) (hold hlt h₂) hc
  · rw [List.getElem?_append_right (by omega), hlen, Nat.sub_self] at h₂
    cases h₂
    by_contra hne
    rw [he (by simpa using hne) j e₁ hj hjj (hold hjj h₁)] at hc
    cases hc

/-- The node after its hard state was saved. -/
theorem Held.persist {store s' : σ} {term votedFor commit base baseTerm : Nat} {log : List Entry}
    {snapshot : Snapshot} {hard : HardState} {w' : World Nat Entry}
    (h : Held mode V w i store term votedFor commit base baseTerm log snapshot)
    (hs : StableStore.saveHardState hard store = .ok () s') (ht : w'.term i = hard.term)
    (hv : w'.vote i = optId hard.votedFor) (hl : w'.log i = w.log i)
    (hc : w'.commit i = hard.commit) (hb : commit ≤ hard.commit) :
    Held mode V w' i s' hard.term hard.votedFor hard.commit base baseTerm log snapshot := by
  obtain ⟨hc', hh, hcm⟩ := h.holds
  obtain ⟨h1, h2⟩ := LawfulStore.saveHardState_ok hh hs
  exact { holds := ⟨hard.commit, h1, by omega⟩, clean := h2 h.clean, term_eq := ht, vote_eq := hv
          commit_eq := hc, log_eq := hl ▸ h.log_eq, base_eq := h.base_eq
          baseTerm_eq := h.baseTerm_eq, covers := hl ▸ h.covers
          serial := fun hm => by
            rw [hl, hc]
            exact (h.serial hm).mono (by rw [h.commit_eq]; exact hb) }

theorem Stored.saveHardState_error {store s' : σ} {hard : HardState} {e : StorageError}
    (h : Stored mode V w i store) (hs : StableStore.saveHardState hard store = .error e s') :
    Stored mode V w i s' := by
  obtain ⟨d, hd, hdur⟩ := h
  exact ⟨d, LawfulStore.saveHardState_error hd hs, hdur⟩

theorem Matched.ext {w' : World Nat Entry} {state : State} {term : Nat} {peers : List Nat}
    {mtch : Nat → Nat} (h : Matched w state term peers mtch) (hx : w.Ext w') :
    Matched w' state term peers mtch := fun hst p hp => (h hst p hp).imp_right hx.acked

theorem Pending.mono {ℓ : List Entry} {commit commit' p : Nat} (h : Pending ℓ commit p)
    (hc : commit ≤ commit') : Pending ℓ commit' p := fun k e hk => h k e (hc.trans hk)

/-- The steps of a leader that commits: it acknowledges its own log first. -/
theorem commit_steps {idx : Nat} {acks : Nat → Prop} (hinv : Inv (params mode V) w)
    (hl : Leads w i) (hlt : w.commit i < idx) (hle : idx ≤ (w.log i).length)
    (he : ∀ e, (w.log i)[idx - 1]? = some e → e.term = w.term i)
    (ha : ∀ v, acks v → v = i ∨ w.acked (w.term i) v idx)
    (hq : (params mode V).Quorum ((params mode V).view ((w.log i).take idx) (w.commit i)) acks) :
    Steps (params mode V) i w ((w.ack i idx).advance i idx acks) := by
  have hllog := hl.llog hinv
  obtain ⟨r, hr, hri⟩ := hl
  have h1 : Step (params mode V) i w (w.ack i idx) :=
    .ack hr (hllog ▸ hle) (by rw [World.upTo, hllog]; exact List.take_prefix _ _)
  refine (Relation.ReflTransGen.single h1).tail (.advance hr hri hlt hle he ?_ hq)
  intro v hv
  rcases ha v hv with rfl | hv
  · exact .inr ⟨rfl, rfl, le_rfl⟩
  · exact .inl hv

/-- A leader that persisted a commit index. -/
theorem Ready.advance {idx : Nat} {acks : Nat → Prop} {s' : σ}
    (h : Ready mode V M K w i n n.commit) (hinv : Inv (params mode V) w)
    (hs : StableStore.saveHardState (n.hardState idx) n.store = .ok () s') (hlt : n.commit < idx)
    (hsteps : Steps (params mode V) i w ((w.ack i idx).advance i idx acks)) :
    Ready mode V M K ((w.ack i idx).advance i idx acks) i
      { n with store := s', commit := idx } n.commit := by
  have hx := hinv.ext_steps hsteps
  have hb := h.live.2.1
  refine ⟨h.id, h.sent.ext hinv hx, h.faulted, ⟨?_, ?_, h.live.2.2.1, ?_⟩,
    fun hM => (h.matched hM).ext hx, fun hK => (h.pending hK).mono hlt.le⟩
  · refine h.live.1.persist hs h.live.1.term_eq h.live.1.vote_eq rfl ?_ ?_
    · exact Function.update_self ..
    · exact hlt.le
  · exact ⟨hb.1, by show n.applied ≤ idx; omega⟩
  · exact ⟨h.live.2.2.2.candidate, h.live.2.2.2.leader⟩

/-! ## Appending -/

/-- The node after an entry was stored at `k`, in place of what was there. -/
theorem Held.append {store s' : σ} {term votedFor commit base baseTerm k : Nat} {log : List Entry}
    {snapshot : Snapshot} {e : Entry} {w' : World Nat Entry}
    (h : Held mode V w i store term votedFor commit base baseTerm log snapshot)
    (hs : StableStore.append k e store = .ok () s') (hb : base < k)
    (hk : k ≤ (w.log i).length + 1) (ht : w'.term i = w.term i) (hv : w'.vote i = w.vote i)
    (hc : w'.commit i = w.commit i) (hl : w'.log i = (w.log i).take (k - 1) ++ [e])
    (hone : mode.serial = true → e.isConfig = true → ∀ j e', w.commit i ≤ j → j < k - 1 →
      (w.log i)[j]? = some e' → e'.isConfig = false) :
    Held mode V w' i s' term votedFor commit base baseTerm (log.take (k - base) ++ [e])
      snapshot := by
  obtain ⟨hc', hh, hcm⟩ := h.holds
  obtain ⟨e0, he0, het⟩ := h.log_eq
  have hbase : (⟨⟨term, votedFor, hc'⟩, snapshot, log.tail⟩ : Recovery).base = base := h.base_eq
  have hlen : log.tail.length = (w.log i).length - base := by rw [he0]; simp
  have htake : log.take (k - base) = e0 :: log.tail.take (k - base - 1) := by
    conv_lhs => rw [he0, show k - base = k - base - 1 + 1 by omega, List.take_succ_cons]
    rw [he0, List.tail_cons]
  obtain ⟨h1, h2⟩ := LawfulStore.append_ok hh h.clean (by rw [hbase]; omega)
    (by rw [Recovery.lastIndex, hbase, hlen]; omega) hs
  refine { holds := ⟨hc', ?_, hcm⟩, clean := h2, term_eq := ht ▸ h.term_eq
           vote_eq := hv ▸ h.vote_eq, commit_eq := hc ▸ h.commit_eq, base_eq := h.base_eq
           baseTerm_eq := h.baseTerm_eq, log_eq := ⟨e0, ?_, het⟩, covers := ?_
           serial := fun hm => by
            rw [hl, hc]
            exact (h.serial hm).snoc (by omega) (hone hm) }
  · rw [Recovery.append, hbase] at h1
    rw [htake]; exact h1
  · rw [htake, hl, List.drop_append_of_le_length (by simp; omega), he0, List.tail_cons,
      List.drop_take, List.cons_append]
    congr 3; omega
  · have hle : snapshot.lastIndex ≤ k - 1 := by rw [h.base_eq]; omega
    refine h.covers.of_isPrefix ?_ (by rw [hl]; have := h.covers.le; simp; omega)
    rw [hl, List.take_append_of_le_length (by simp; have := h.covers.le; omega), List.take_take,
      Nat.min_eq_left hle]

theorem Stored.append_error {store s' : σ} {k : Nat} {entry : Entry} {e : StorageError}
    (h : Stored mode V w i store) (hs : StableStore.append k entry store = .error e s') :
    Stored mode V w i s' := by
  obtain ⟨d, hd, hdur⟩ := h
  exact ⟨d, LawfulStore.append_error hd hs, hdur⟩

/-- A leader that stored an entry. -/
theorem Ready.append {e : Entry} {s' : σ} (h : Ready mode V M K w i n n.commit)
    (hinv : Inv (params mode V) w) (hst : n.state = .leader)
    (hs : StableStore.append (n.lastIndex + 1) e n.store = .ok () s')
    (hstep : Step (params mode V) i w (w.append i e)) (hK : K → e.isConfig = false)
    (hafter : e.isConfig = true → ∀ k e', (w.log i)[k]? = some e' → e'.isConfig = true →
      k < w.commit i) :
    Ready mode V M K (w.append i e) i { n with store := s', log := n.log ++ [e] } n.commit := by
  have hx := hinv.ext_step hstep
  have hlog : (w.append i e).log i = w.log i ++ [e] := Function.update_self ..
  have hcl := h.live.commit_le hinv
  rw [h.live.lastIndex_eq] at hs
  refine ⟨h.id, h.sent.ext hinv hx, h.faulted, ⟨?_, h.live.2.1, ?_, ?_, ?_⟩,
    fun hM => (h.matched hM).ext hx, fun hK' k e' hk he' hc' => ?_⟩
  · have hlast := h.live.lastIndex_eq
    have hb := h.live.1.base_le
    have := h.live.1.append hs (by omega) le_rfl (show (w.append i e).term i = w.term i from rfl) rfl rfl
      (by rw [hlog, Nat.add_sub_cancel, List.take_length]) fun _ he j e' hj _ hje => by
        by_contra hc
        have := hafter he j e' hje (by simpa using hc)
        omega
    rwa [List.take_of_length_le (by unfold Node.lastIndex at hlast; omega)] at this
  · rw [hlog, List.take_append_of_le_length hcl]; exact h.live.2.2.1
  · intro hcand; rw [hst] at hcand; cases hcand
  · exact h.live.2.2.2.leader
  · rw [hlog] at he'
    rcases Nat.lt_or_ge k (w.log i).length with hlt | hge
    · rw [List.getElem?_append_left hlt] at he'
      exact h.pending hK' k e' hk he' hc'
    · rw [List.getElem?_append_right hge] at he'
      have := getElem?_lt he'
      rw [show k - (w.log i).length = 0 by simp at this; omega] at he'
      cases he'
      rw [hK hK'] at hc'; cases hc'

end Promtact.Raft
