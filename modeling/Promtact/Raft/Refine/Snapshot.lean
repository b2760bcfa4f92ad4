import Promtact.Raft.Refine.Follow

/-!
# Snapshots

A snapshot replaces the log below it, in memory and in the store. A node that compacts its log
takes no step (`compact_sim`): what the snapshot stands for is still its log. A follower that
installs a leader's snapshot adopts the leader's prefix if it does not hold it, and learns that it
is committed (`onInstallSnapshot_sim`).

The voters in a snapshot have to be those of the entries it stands for. A node records its current
voters, which are those of its commit index, and installs what it receives even below its commit
index. `CompactSafe` and `InstallSafe` say when that is right; they are not needed if the
membership does not change.
-/

namespace Promtact.Raft

open Refine Consensus

variable {σ : Type} [DurableStore σ] [LawfulStore σ] {mode : Mode} {V : Mask}
  {w w' : World Nat Entry} {i : Nat} {n : Node σ} {M K : Prop} {c : Nat}

/-! ## Durable snapshots -/

omit [DurableStore σ] [LawfulStore σ] in
theorem Durable.length_eq {d : Recovery} (h : Durable mode V w i d) :
    (w.log i).length = d.lastIndex := by
  have := h.covers.le
  rw [Recovery.lastIndex, ← h.suffix, List.length_drop, Recovery.base]; omega

theorem Durable.termAt_eq {d : Recovery} (h : Durable mode V w i d) {k : Nat} (hb : d.base ≤ k)
    (hk : k ≤ (w.log i).length) :
    d.termAt k = some ((params mode V).lastTerm ((w.log i).take k)) := by
  unfold Recovery.termAt
  rw [if_neg (by omega)]
  split
  · rename_i hkb
    rw [hkb, Recovery.base, h.covers.term]
  · rename_i hkb
    obtain ⟨e, he⟩ : ∃ e, (w.log i)[k - 1]? = some e :=
      ⟨_, List.getElem?_eq_getElem (show k - 1 < (w.log i).length by omega)⟩
    have ht := lastTerm_take (P := params mode V) he
    rw [show k - 1 + 1 = k by omega] at ht
    rw [← h.suffix, List.getElem?_drop, show d.base + (k - d.base - 1) = k - 1 by omega, he, ht]
    rfl

theorem Durable.le_of_termAt {d : Recovery} (h : Durable mode V w i d) {k t : Nat}
    (hk : d.termAt k = some t) : d.base ≤ k ∧ k ≤ (w.log i).length := by
  unfold Recovery.termAt at hk
  split at hk
  · cases hk
  split at hk
  · rename_i hkb
    exact ⟨by omega, hkb ▸ h.covers.le⟩
  · obtain ⟨e, he, -⟩ := Option.map_eq_some_iff.mp hk
    have := getElem?_lt he
    rw [← h.suffix, List.length_drop] at this
    omega

/-- A snapshot of what the member holds. -/
theorem Durable.install_keep {d : Recovery} {snap : Snapshot} (h : Durable mode V w i d)
    (hb : d.base ≤ snap.lastIndex) (ht : w'.term i = w.term i) (hv : w'.vote i = w.vote i)
    (hl : w'.log i = w.log i) (hc : w'.commit i = max (w.commit i) snap.lastIndex)
    (hcov : Covers mode V (w'.log i) snap) : Durable mode V w' i (d.install snap) := by
  refine ⟨ht ▸ h.term, hv ▸ h.vote, ?_, ?_, hcov,
    fun hm => hl ▸ hc ▸ (h.serial hm).mono (Nat.le_max_left _ _)⟩
  · have := h.commit
    rw [Recovery.install_hard, Recovery.install_base]; omega
  · rw [hl] at hcov ⊢
    rw [Recovery.install_base, Recovery.install, h.termAt_eq hb hcov.le, hcov.term, if_pos rfl,
      ← h.suffix, List.drop_drop]
    congr 1; omega

/-- A snapshot of a prefix that the member did not hold. -/
theorem Durable.install_reset {d : Recovery} {snap : Snapshot} (h : Durable mode V w i d)
    (hterm : d.termAt snap.lastIndex ≠ some snap.lastTerm)
    (ht : w'.term i = w.term i) (hv : w'.vote i = w.vote i) (hc : w'.commit i = snap.lastIndex)
    (hcm : w.commit i ≤ snap.lastIndex) (hl : (w'.log i).length = snap.lastIndex)
    (hcov : Covers mode V (w'.log i) snap) : Durable mode V w' i (d.install snap) := by
  refine ⟨ht ▸ h.term, hv ▸ h.vote, ?_, ?_, hcov, fun _ j k e e' hj _ hje => ?_⟩
  · have := h.commit
    rw [Recovery.install_hard, Recovery.install_base]; omega
  rotate_left
  · -- the log ends at the commit index
    have := getElem?_lt hje
    omega
  · rw [Recovery.install_base, Recovery.install, if_neg hterm]
    exact List.drop_eq_nil_of_le (by omega)

theorem Settled.congr {term base applied commit : Nat} {log : List Entry} {old new : Mask}
    (h : Settled mode V w i term base applied commit log old new)
    (he : w'.term i = w.term i) (ht : (w'.log i).take commit = (w.log i).take commit)
    (hc : commit ≤ w'.commit i) :
    Settled mode V w' i term base applied commit log old new := by
  have hb := h.base_le.trans h.applied_le
  refine ⟨he.trans h.term_eq, h.base_le, h.applied_le, hc, fun k hk1 hk2 => ?_, ?_,
    fun hm => ht ▸ h.masks hm, h.uncompacted⟩
  · rw [h.entry k hk1 hk2, ← List.getElem?_take_of_lt (show k - 1 < commit by omega), ← ht,
      List.getElem?_take_of_lt (by omega)]
  · have := congrArg (List.take base) ht
    rw [List.take_take, List.take_take, Nat.min_eq_left hb] at this
    rw [this]; exact h.baseTerm

/-- The two calls of the store for a snapshot, after which it holds `d'`. -/
theorem saveSnapshot_sim {d d' : Recovery} {snap : Snapshot} (hid : n.id = i)
    (hd : LawfulStore.Holds n.store d) (hdur : Durable mode V w i d)
    (hok : ∀ s, StableStore.saveSnapshot snap n.store = .ok () s → LawfulStore.Holds s d')
    (hset : Settled mode V w i n.term n.baseIndex n.applied n.commit n.log n.votersOld n.votersNew)
    (hsteps : Steps (params mode V) i w w') (hdur' : Durable mode V w' i d')
    (hset' : Settled mode V w' i n.term n.baseIndex n.applied n.commit n.log n.votersOld
      n.votersNew) :
    NSim mode V i w (saveSnapshot snap) n fun b w'' n' =>
      if b then w'' = w' ∧ ∃ s, n' = { n with store := s } ∧ LawfulStore.Holds s d' ∧
        (LawfulStore.Clean n.store → LawfulStore.Clean s)
      else Rep mode V w'' i n' := by
  unfold saveSnapshot
  refine Sim.ite (fun _ => ?_) fun _ => Sim.seq_update (Sim.ret ?_)
  · refine Sim.seq (Q := fun b w'' n' => if b then w'' = w' ∧ ∃ s, n' = { n with store := s } ∧
        StableStore.saveSnapshot snap n.store = .ok () s
      else Rep mode V w'' i n') (callStoreOrFail_sim ?_ ?_) ?_
    · exact fun s hs => ⟨w', hsteps, rfl, s, rfl, hs⟩
    · exact fun e s hs => Failed.rep hid ⟨⟨d, LawfulStore.saveSnapshot_error hd hs, hdur⟩, hset⟩
    · rintro (_ | _) w'' n' - hQ
      · exact Sim.ret hQ
      obtain ⟨rfl, s, rfl, hs⟩ := hQ
      have hh := hok s hs
      refine callStoreOrFail_sim (fun s' hs' => ?_) fun e s' hs' => ?_
      · exact ⟨w'', .refl, rfl, s', rfl, LawfulStore.compactLog_ok hh hs',
          fun hclean => LawfulStore.compactLog_clean hclean hs hs'⟩
      · exact Failed.rep hid ⟨⟨_, LawfulStore.compactLog_error hh hs', hdur'⟩, hset'⟩
  · exact Failed.rep hid ⟨⟨d, hd, hdur⟩, hset⟩

/-! ## Voters without changes -/

/-- Without changes of the membership every prefix has the first voters. -/
theorem cfg_fixed (hinv : Inv (params mode V) w) (hm : mode.members = false) {ℓ : List Entry}
    (hc : Coh (params mode V) w ℓ) (k : Nat) :
    (params mode V).cfg (ℓ.take k) = (params mode V).init := by
  rw [Params.cfg_take_eq (Nat.zero_le k), List.take_zero, Params.cfg_nil]
  intro j e _ _ he hcfg
  have := (hinv.ok hc (List.mem_of_getElem? he)).2 hm
  rw [isConfig_iff.mp hcfg] at this; cases this

/-! ## Compaction -/

/-- The node's voters are those of the entries up to `index`. -/
def CompactSafe (n : Node σ) (index : Nat) : Prop :=
  n.faulted = false ∧ ∀ k e, index < k → k ≤ n.commit → n.entryAt? k = some e → e.isConfig = false

theorem Live.drop_log (h : Live mode V w i n c) {k : Nat} (hb : n.baseIndex < k)
    (hk : k ≤ (w.log i).length) :
    ∃ e, n.log.drop (k - n.baseIndex) = e :: (w.log i).drop k ∧
      e.term = (params mode V).lastTerm ((w.log i).take k) := by
  obtain ⟨e0, he0, -⟩ := h.1.log_eq
  have hlt : k - 1 < (w.log i).length := by omega
  refine ⟨(w.log i)[k - 1], ?_, ?_⟩
  · rw [he0, show k - n.baseIndex = k - n.baseIndex - 1 + 1 by omega, List.drop_succ_cons,
      List.drop_drop, show n.baseIndex + (k - n.baseIndex - 1) = k - 1 by omega,
      List.drop_eq_getElem_cons hlt, show k - 1 + 1 = k by omega]
  · have := lastTerm_take (P := params mode V) (List.getElem?_eq_getElem hlt)
    rw [show k - 1 + 1 = k by omega] at this
    exact this.symm

omit [DurableStore σ] [LawfulStore σ] in
/-- The voters that a node records are those of the entries that its snapshot stands for. -/
theorem ownSnapshot_covers {index : Nat} {state : List UInt8} (hinv : Inv (params mode V) w)
    (hV : V ≠ 0) (hs : mode.snapshots = true) (h0 : 0 < index) (hle : index ≤ (w.log i).length)
    (hcfg : toCfg n.votersOld n.votersNew = (params mode V).cfg ((w.log i).take index))
    (himg : mode.Image ((w.log i).take index) state) :
    Covers mode V (w.log i)
      (n.ownSnapshot index ((params mode V).lastTerm ((w.log i).take index)) state) := by
  refine ⟨hle, rfl, fun h => absurd h (by show index ≠ 0; omega), fun _ => ⟨hs, ?_, hcfg, himg⟩⟩
  have := cfg_old_ne_zero mode hV
    fun e (he : e ∈ (w.log i).take index) => Inv.valid hinv (List.mem_of_mem_take he)
  rwa [← hcfg] at this

/-- What `CompactSafe` is for. -/
theorem Live.cfg_take (h : Live mode V w i n n.commit) (hinv : Inv (params mode V) w) {index : Nat}
    (hb : n.baseIndex < index) (hle : index ≤ n.commit)
    (hsafe : mode.members = true → CompactSafe n index) :
    toCfg n.votersOld n.votersNew = (params mode V).cfg ((w.log i).take index) := by
  rw [h.2.2.1]
  refine Params.cfg_take_eq hle fun k e hk hkc hke hc => ?_
  have hc := isConfig_iff.mp hc
  cases hm : mode.members with
  | false =>
    have := (hinv.ok (hinv.log_coh i).1 (List.mem_of_getElem? hke)).2 hm
    rw [hc] at this; cases this
  | true =>
    have := (hsafe hm).2 (k + 1) e (by omega) (by omega) (by rw [h.entryAt?_eq (by omega)]; exact hke)
    rw [hc] at this; cases this

theorem compact_live_sim {index : Nat} {state : List UInt8}
    (h : Ready mode V True True w i n n.commit) (hinv : Inv (params mode V) w) (hV : V ≠ 0)
    (hs : mode.snapshots = true) (himg : mode.Image ((w.log i).take index) state)
    (hsafe : mode.members = true → CompactSafe n index) (hb : n.baseIndex < index)
    (ha : index ≤ n.applied) :
    NSim mode V i w (compact index state) n fun _ w' n' => Rep mode V w' i n' := by
  have hbase := h.live.2.1
  have hcl := h.live.commit_le hinv
  have hle : index ≤ (w.log i).length := by omega
  have hcov := ownSnapshot_covers hinv hV hs (by omega) hle
    (h.live.cfg_take hinv hb (by omega) hsafe) himg
  obtain ⟨hc, hh, hcm⟩ := h.live.1.holds
  have hdur := h.live.1.durable hcm
  have hdb : (⟨⟨n.term, n.votedFor, hc⟩, n.snapshot, n.log.tail⟩ : Recovery).base = n.baseIndex :=
    h.live.1.base_eq
  have hset := h.live.settled fun _ => h.live.2.2.1
  unfold compact
  refine Sim.seq_get ?_
  rw [if_neg (by omega), h.live.termAt_eq (by omega) hle]
  have hinst := hdur.install_keep (by rw [hdb]; exact hb.le) rfl rfl rfl
    (by rw [h.live.1.commit_eq]; show n.commit = max n.commit index; omega) hcov
  have habove := hdb ▸ hb
  refine Sim.seq (saveSnapshot_sim h.id hh hdur
    (fun s => LawfulStore.saveSnapshot_ok hh (.inl ⟨h.live.1.clean, habove⟩)) hset .refl hinst hset) ?_
  rintro (_ | _) w' n' - hQ
  · exact Sim.ret hQ
  obtain ⟨rfl, s, rfl, hh', hclean⟩ := hQ
  refine Sim.seq_update (Sim.ret (Ready.rep ?_))
  obtain ⟨e, he, het⟩ := h.live.drop_log hb hle
  refine ⟨h.id, h.sent, h.faulted, ⟨?_, ⟨ha, hbase.2⟩, h.live.2.2.1, h.live.2.2.2⟩, h.matched,
    h.pending⟩
  have hheld := hinst.held hh' (hclean h.live.1.clean) het
  rw [h.live.1.commit_eq, ← hinst.suffix] at hheld
  show Held mode V w' i s n.term n.votedFor n.commit index _ (n.log.drop _) _
  rw [he]; exact hheld

theorem compact_failed_sim {index : Nat} {state : List UInt8} (hid : n.id = i)
    (hout : n.outbound = []) (hf : n.faulted = true) (hst : n.state = .follower)
    (h : Failed mode V w i n) (hinv : Inv (params mode V) w) (hV : V ≠ 0)
    (hs : mode.snapshots = true) (himg : mode.Image ((w.log i).take index) state)
    (hm : mode.members = false) (hb : n.baseIndex < index) (ha : index ≤ n.applied) :
    NSim mode V i w (compact index state) n fun _ w' n' => Rep mode V w' i n' := by
  obtain ⟨⟨d, hh, hdur⟩, hset⟩ := h
  have hac := hset.applied_le
  have hcm := hset.commit_le
  have hwl := (hinv.commit_ev i).1
  have hlt : index - 1 < (w.log i).length := by omega
  have hentry : n.entryAt? index = some (w.log i)[index - 1] := by
    rw [entryAt?_eq, hset.entry index hb (by omega), List.getElem?_eq_getElem hlt]
  have hterm : n.termAt index = some ((params mode V).lastTerm ((w.log i).take index)) := by
    have := lastTerm_take (P := params mode V) (List.getElem?_eq_getElem hlt)
    rw [show index - 1 + 1 = index by omega] at this
    rw [Node.termAt, hentry, this]; rfl
  have hcfg : toCfg n.votersOld n.votersNew = (params mode V).cfg ((w.log i).take index) := by
    rw [hset.masks hm, cfg_fixed hinv hm (hinv.log_coh i).1, cfg_fixed hinv hm (hinv.log_coh i).1]
  have hcov := ownSnapshot_covers hinv hV hs (by omega) (by omega) hcfg himg
  unfold compact
  refine Sim.seq_get ?_
  rw [if_neg (by omega), hterm]
  have hinst := fun hb' => hdur.install_keep hb' rfl rfl rfl
    (by show w.commit i = max (w.commit i) index; omega) hcov
  -- the store may have a later snapshot already
  obtain ⟨d', hdur', hok⟩ : ∃ d', Durable mode V w i d' ∧ ∀ s, StableStore.saveSnapshot
      (n.ownSnapshot index ((params mode V).lastTerm ((w.log i).take index)) state) n.store =
        .ok () s → LawfulStore.Holds s d' := by
    rcases Nat.lt_or_ge index d.base with hlt' | hge
    · exact ⟨d, hdur, fun s => LawfulStore.saveSnapshot_below hh hlt'⟩
    · exact ⟨_, hinst hge, fun s => LawfulStore.saveSnapshot_ok hh
        (.inr (hdur.termAt_eq hge (by show index ≤ _; omega)))⟩
  refine Sim.seq (saveSnapshot_sim hid hh hdur hok hset .refl hdur' hset) ?_
  rintro (_ | _) w' n' - hQ
  · exact Sim.ret hQ
  obtain ⟨rfl, s, rfl, hh', -⟩ := hQ
  refine Sim.seq_update (Sim.ret (.inr ⟨hid, hout, hf, hst, ?_, ?_⟩))
  · exact ⟨_, hh', hdur'⟩
  · -- the retained log starts at `index` now
    have hshift : ∀ k, index ≤ k →
        entryOf (n.log.drop (index - n.baseIndex)) index k = entryOf n.log n.baseIndex k := by
      intro k hk
      rw [entryOf, entryOf, if_pos hk, if_pos (by omega), List.getElem?_drop]
      congr 1; omega
    refine ⟨hset.term_eq, ha, hset.applied_le, hset.commit_le, fun k hk1 hk2 => ?_, ?_, hset.masks,
      fun hs' => by rw [hs] at hs'; cases hs'⟩
    · have hk1 : index < k := hk1
      exact (hshift k hk1.le).trans (hset.entry k (by omega) hk2)
    · refine (congrArg _ (hshift index le_rfl)).trans ?_
      rw [← entryAt?_eq]; exact hterm

theorem compact_sim {index : Nat} {state : List UInt8} (h : Rep mode V w i n)
    (hinv : Inv (params mode V) w) (hV : V ≠ 0) (hs : mode.snapshots = true)
    (himg : mode.Image ((w.log i).take index) state)
    (hsafe : mode.members = true → n.baseIndex < index → index ≤ n.applied → CompactSafe n index) :
    NSim mode V i w (compact index state) n fun _ w' n' => Rep mode V w' i n' := by
  by_cases hguard : index ≤ n.baseIndex ∨ n.applied < index
  · unfold compact
    refine Sim.seq_get ?_
    rw [if_pos hguard]; exact Sim.ret h
  · rw [not_or, not_le, not_lt] at hguard
    rcases h with h | ⟨hid, hout, hf, hst, h⟩
    · exact compact_live_sim h hinv hV hs himg (fun hm => hsafe hm hguard.1 hguard.2) hguard.1 hguard.2
    · refine compact_failed_sim hid hout hf hst h hinv hV hs himg ?_ hguard.1 hguard.2
      cases hm : mode.members with
      | false => rfl
      | true => have := (hsafe hm hguard.1 hguard.2).1; rw [hf] at this; cases this

/-! ## Installation -/

/-- Installing the snapshot of `m` does not bring earlier voters back. -/
def InstallSafe (n : Node σ) (m : Message) : Prop :=
  n.commit ≤ m.snapshotIndex ∨ m.snapshotOld = n.votersOld ∧ m.snapshotNew = n.votersNew

/-- The world in which member `i` has its leader's snapshot. -/
theorem install_steps {snap : Snapshot} {r : Election Nat Entry} (h : Live mode V w i n n.commit)
    (hinv : Inv (params mode V) w) (hr : w.lead (w.term i) = some r)
    (hcov : Covers mode V (w.llog (w.term i)) snap)
    (hb : w.Backed (w.term i) (w.llog (w.term i)) snap.lastIndex)
    (hbase : n.baseIndex < snap.lastIndex) :
    ∃ w', Steps (params mode V) i w w' ∧ w'.term i = w.term i ∧ w'.vote i = w.vote i ∧
      w'.commit i = max (w.commit i) snap.lastIndex ∧ HasPrefix w' i snap.lastIndex ∧
      (w'.log i).take (w.commit i) = (w.log i).take (w.commit i) ∧
      Covers mode V (w'.log i) snap ∧
      (n.termAt snap.lastIndex = some snap.lastTerm ∧ w'.log i = w.log i ∨
        n.termAt snap.lastIndex ≠ some snap.lastTerm ∧ (w'.log i).length = snap.lastIndex ∧
          w.commit i ≤ snap.lastIndex) := by
  by_cases hhas : HasPrefix w i snap.lastIndex
  · -- the member holds the prefix already
    have hle := hhas.le_length
    have htake : (w.llog (w.term i)).take snap.lastIndex = (w.log i).take snap.lastIndex := by
      have := take_eq_of_isPrefix hhas.2.2 (k := snap.lastIndex)
        (by rw [World.upTo, List.length_take]; have := hcov.le; omega)
      rwa [World.upTo, List.take_take, Nat.min_self] at this
    have hcov' : Covers mode V (w.log i) snap := hcov.of_isPrefix htake hle
    have hterm : n.termAt snap.lastIndex = some snap.lastTerm := by
      rw [h.termAt_eq hbase.le hle, hcov'.term]
    rcases Nat.le_total snap.lastIndex (w.commit i) with hc | hc
    · exact ⟨w, .refl, rfl, rfl, by omega, hhas, rfl, hcov', .inl ⟨hterm, rfl⟩⟩
    · refine ⟨w.learn i snap.lastIndex, .single (.learn (hb.mono le_rfl hhas.2.2 le_rfl) hc), rfl,
        rfl, ?_, hhas, rfl, hcov', .inl ⟨hterm, rfl⟩⟩
      rw [show max (w.commit i) snap.lastIndex = snap.lastIndex by omega]
      exact Function.update_self ..
  · -- it adopts the leader's prefix, which contains what it has committed
    have hnp : ¬ w.upTo (w.term i) snap.lastIndex <+: w.log i :=
      fun hp => hhas ⟨⟨r, hr⟩, hcov.le, hp⟩
    have hcp := commit_prefix_llog hinv hr
    have hcl := (hinv.commit_ev i).1
    have hc : w.commit i < snap.lastIndex := by
      by_contra hge
      refine hnp ((prefix_of_le (List.take_prefix _ _) hcp ?_).trans (List.take_prefix _ _))
      rw [List.length_take, List.length_take]; omega
    have hstep : Step (params mode V) i w (w.adopt i snap.lastIndex) := .adopt hr hcov.le hnp
    have hlog : (w.adopt i snap.lastIndex).log i = w.upTo (w.term i) snap.lastIndex :=
      Function.update_self ..
    have hlen : (w.upTo (w.term i) snap.lastIndex).length = snap.lastIndex := by
      rw [World.upTo, List.length_take]; have := hcov.le; omega
    have hlearn : Step (params mode V) i (w.adopt i snap.lastIndex)
        ((w.adopt i snap.lastIndex).learn i snap.lastIndex) := by
      refine .learn (hb.mono le_rfl ?_ le_rfl) hc.le
      rw [hlog]; exact List.prefix_rfl
    refine ⟨_, (Relation.ReflTransGen.single hstep).tail hlearn, rfl, rfl, ?_, ⟨⟨r, hr⟩, hcov.le, ?_⟩,
      ?_, ?_, .inr ⟨fun hterm => ?_, ?_, hc.le⟩⟩
    · rw [show max (w.commit i) snap.lastIndex = snap.lastIndex by omega]
      exact Function.update_self ..
    · show w.upTo (w.term i) snap.lastIndex <+: (w.adopt i snap.lastIndex).log i
      rw [hlog]
    · show ((w.adopt i snap.lastIndex).log i).take _ = _
      rw [hlog, World.upTo, List.take_take, Nat.min_eq_left hc.le]
      have := take_eq_of_isPrefix hcp (k := w.commit i) (by rw [List.length_take]; omega)
      rw [List.take_take, Nat.min_self] at this
      exact this.symm
    · show Covers mode V ((w.adopt i snap.lastIndex).log i) snap
      rw [hlog]
      exact hcov.of_isPrefix (by rw [World.upTo, List.take_take, Nat.min_self]) hlen.ge
    · have hle : snap.lastIndex ≤ (w.log i).length := by
        by_contra hlt
        rw [h.termAt_none (by omega)] at hterm; cases hterm
      rw [h.termAt_eq hbase.le hle, Option.some_inj] at hterm
      exact hhas (hasPrefix_of_lastTerm hinv hr hcov.le hle (hterm.trans hcov.term.symm))
    · show ((w.adopt i snap.lastIndex).log i).length = _
      rw [hlog, hlen]

omit [DurableStore σ] [LawfulStore σ] in
/-- The voters of an installed snapshot are those of the commit index. -/
theorem install_cfg {snap : Snapshot} (hinv : Inv (params mode V) w')
    (hcov : Covers mode V (w'.log i) snap) (h0 : snap.lastIndex ≠ 0)
    (hm : toCfg n.votersOld n.votersNew = (params mode V).cfg ((w'.log i).take n.commit))
    (hsafe : mode.members = true → n.commit ≤ snap.lastIndex ∨
      snap.oldVoters = n.votersOld ∧ snap.newVoters = n.votersNew) :
    toCfg snap.oldVoters snap.newVoters =
      (params mode V).cfg ((w'.log i).take (max n.commit snap.lastIndex)) := by
  have hcfg := (hcov.some h0).2.2.1
  rcases Nat.le_total n.commit snap.lastIndex with hle | hle
  · rw [Nat.max_eq_right hle]; exact hcfg
  · rw [Nat.max_eq_left hle]
    cases hmem : mode.members with
    | false =>
      rw [hcfg, cfg_fixed hinv hmem (hinv.log_coh i).1, cfg_fixed hinv hmem (hinv.log_coh i).1]
    | true =>
      rcases hsafe hmem with hge | ⟨h1, h2⟩
      · rw [hcfg, show snap.lastIndex = n.commit by omega]
      · rw [h1, h2]; exact hm

/-- The end of an installation: the follower acknowledges the snapshot. -/
theorem acceptSnapshot_sim {m : Message} (hinv : Inv (params mode V) w)
    (h : Ready mode V True True w i
      { n with state := .follower, leader := m.src, elapsed := 0 } n.commit)
    (hp : HasPrefix w i n.baseIndex) :
    NSim mode V i w (acceptSnapshot m) n fun _ w' n' => Rep mode V w' i n' := by
  obtain ⟨hstep, hready, hack⟩ := h.ack hinv hp
  unfold acceptSnapshot
  refine Sim.seq_update (Sim.seq_get (Sim.step hstep ?_))
  refine (send_sim hready.live.stored hready.sent ?_).mono fun _ _ _ _ hc => hc.rep hready
  intro _
  show (w.ack i n.baseIndex).acked n.term n.id n.baseIndex
  rw [show n.id = i from h.id]; exact hack

/-- A follower with its leader's snapshot. -/
theorem Ready.install {snap : Snapshot} {d : Recovery} {s : σ} {leader : Nat}
    (h : Ready mode V True True w i n n.commit) (hinv' : Inv (params mode V) w')
    (hs : Steps (params mode V) i w w') (hinv : Inv (params mode V) w)
    (hc : w'.commit i = max (w.commit i) snap.lastIndex) (hbase : n.baseIndex < snap.lastIndex)
    (htake : (w'.log i).take (w.commit i) = (w.log i).take (w.commit i))
    (hcov : Covers mode V (w'.log i) snap)
    (hlog : n.termAt snap.lastIndex = some snap.lastTerm ∧ w'.log i = w.log i ∨
        n.termAt snap.lastIndex ≠ some snap.lastTerm ∧ (w'.log i).length = snap.lastIndex ∧
          w.commit i ≤ snap.lastIndex)
    (hd : d.hard.term = n.term ∧ d.hard.votedFor = n.votedFor)
    (hdur : Durable mode V w' i (d.install snap)) (hh : LawfulStore.Holds s (d.install snap))
    (hclean : LawfulStore.Clean s)
    (hsafe : mode.members = true → n.commit ≤ snap.lastIndex ∨
      snap.oldVoters = n.votersOld ∧ snap.newVoters = n.votersNew) :
    Ready mode V True True w' i { { n with store := s }.install snap with
      state := .follower, leader := leader, elapsed := 0 } (max n.commit snap.lastIndex) := by
  have hb := h.live.2.1
  rw [h.live.1.commit_eq] at hc htake
  have habove : ∃ e, { n with store := s }.logAbove snap = e :: (d.install snap).suffix ∧
      e.term = snap.lastTerm := by
    rw [← hdur.suffix, Recovery.install_base, Node.logAbove]
    show ∃ e, (if n.termAt snap.lastIndex = some snap.lastTerm then n.log.drop _ else _) = _ ∧ _
    rcases hlog with ⟨ht, hl⟩ | ⟨ht, hl, -⟩
    · rw [if_pos ht, hl]
      rw [hl] at hcov
      obtain ⟨e, he, het⟩ := h.live.drop_log hbase hcov.le
      exact ⟨e, he, het.trans hcov.term⟩
    · rw [if_neg ht, List.drop_eq_nil_of_le hl.le]
      exact ⟨_, rfl, rfl⟩
  obtain ⟨e, he, het⟩ := habove
  refine ⟨h.id, h.sent.ext hinv (hinv.ext_steps hs), h.faulted,
    ⟨?_, ⟨?_, ?_⟩, ?_, nofun, nofun⟩, nofun, fun _ k e' hk hke hcfg => ?_⟩
  · have := hdur.held hh hclean het
    rw [Recovery.install_hard, hd.1, hd.2, hc] at this
    show Held mode V w' i s n.term n.votedFor (max n.commit snap.lastIndex) snap.lastIndex
      snap.lastTerm ({ n with store := s }.logAbove snap) snap
    rw [he]; exact this
  · show snap.lastIndex ≤ max n.applied snap.lastIndex
    omega
  · show max n.applied snap.lastIndex ≤ max n.commit snap.lastIndex
    omega
  · exact install_cfg hinv' hcov (by omega) (htake ▸ h.live.2.2.1) hsafe
  · have hk : max n.commit snap.lastIndex ≤ k := hk
    rcases hlog with ⟨-, hl⟩ | ⟨-, hl, -⟩
    · rw [hl] at hke
      exact h.pending trivial k e' (by omega) hke hcfg
    · have := getElem?_lt hke
      omega

theorem onInstallSnapshot_sim {m : Message} (h : Ready mode V True True w i n n.commit)
    (hinv : Inv (params mode V) w) (hle : m.term ≤ n.term) (hty : m.type = .installSnapshot)
    (hm : ValidMsg mode V w m)
    (hsafe : mode.members = true → n.rejectsSnapshot m = false → n.baseIndex < m.snapshotIndex →
      InstallSafe n m) :
    NSim mode V i w (onInstallSnapshot m) n fun _ w' n' => Rep mode V w' i n' := by
  unfold onInstallSnapshot
  refine Sim.seq_get (Sim.ite (fun _ => ?_) fun hrej => ?_)
  · refine (send_sim h.live.stored h.sent ?_).mono fun _ _ _ _ hc => hc.rep h
    exact (nomatch ·)
  have hrej' := hrej
  simp only [Node.rejectsSnapshot, Bool.or_eq_true, decide_eq_true_eq, not_or, beq_iff_eq,
    Bool.and_eq_true, bne_iff_ne, ne_eq, not_and, not_not] at hrej
  obtain ⟨⟨⟨hge, hbase⟩, hold⟩, hbt⟩ := hrej
  have heq : m.term = w.term i := by rw [h.live.1.term_eq]; omega
  unfold ValidMsg at hm
  rw [hty] at hm
  obtain ⟨r, hr, -, hcov, hb⟩ := hm hold
  rw [heq] at hr hcov hb
  refine Sim.ite (fun hgt => ?_) fun hngt => ?_
  · obtain ⟨w', hsteps, h1, h2, h3, h4, h5, h6, h7⟩ := install_steps h.live hinv hr hcov hb hgt
    obtain ⟨hc, hh, hcm⟩ := h.live.1.holds
    have hdur := h.live.1.durable hcm
    have hset := h.live.settled fun _ => h.live.2.2.1
    have hdb : (⟨⟨n.term, n.votedFor, hc⟩, n.snapshot, n.log.tail⟩ : Recovery).base = n.baseIndex :=
      h.live.1.base_eq
    have hinst : Durable mode V w' i ((⟨⟨n.term, n.votedFor, hc⟩, n.snapshot, n.log.tail⟩ :
        Recovery).install m.toSnapshot) := by
      rcases h7 with ⟨ht, hl⟩ | ⟨ht, hl, hcl⟩
      · exact hdur.install_keep (by rw [hdb]; exact hgt.le) h1 h2 hl h3 h6
      · refine hdur.install_reset (fun hterm => ht ?_) h1 h2 (by omega) hcl hl h6
        -- the store has the same term there as the node
        obtain ⟨hle, hle'⟩ := hdur.le_of_termAt hterm
        rw [hdur.termAt_eq hle hle'] at hterm
        rw [← hterm]; exact h.live.termAt_eq (hdb ▸ hle) hle'
    have habove := hdb ▸ hgt
    refine Sim.seq (saveSnapshot_sim h.id hh hdur
      (fun s => LawfulStore.saveSnapshot_ok hh (.inl ⟨h.live.1.clean, habove⟩)) hset hsteps hinst
      (hset.congr h1 ?_ ?_)) ?_
    · rw [← h.live.1.commit_eq]; exact h5
    · rw [h3, h.live.1.commit_eq]; omega
    rintro (_ | _) w'' n' - hQ
    · exact Sim.ret hQ
    obtain ⟨rfl, s, rfl, hh', hclean⟩ := hQ
    refine Sim.seq_update (acceptSnapshot_sim (hinv.steps hsteps) ?_ h4)
    exact h.install (hinv.steps hsteps) hsteps hinv h3 hgt h5 h6 h7 ⟨rfl, rfl⟩ hinst hh'
      (hclean h.live.1.clean) fun hmem => hsafe hmem (by simpa using hrej') hgt
  · -- the node has this snapshot already
    have hidx : m.snapshotIndex = n.baseIndex := by omega
    refine acceptSnapshot_sim hinv (h.stepDown m.src 0 n.readReady) ?_
    rw [← hidx]
    refine hasPrefix_of_lastTerm hinv hr hcov.le (hidx ▸ h.live.1.base_le) ?_
    rw [hidx, h.live.1.baseTerm_lastTerm, ← hbt hidx, ← hidx]
    exact hcov.term.symm

end Promtact.Raft
