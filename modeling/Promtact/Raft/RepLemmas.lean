import Promtact.Raft.Rep

/-!
# Reading a node through the history of the log

For a running node: what its log holds at an index, what its last index and term are, which voters
it counts in, and that its store would give it back. For any node: that it is not affected by the
steps of another member.
-/

namespace Promtact.Raft

open Refine Consensus

variable {σ : Type} {mode : Mode} {V : Mask} {w w' : World Nat Entry} {i : Nat} {n : Node σ}

/-! ## Logs -/

theorem entryAt?_eq (n : Node σ) (k : Nat) : n.entryAt? k = entryOf n.log n.baseIndex k := by
  unfold Node.entryAt? Node.offset entryOf
  split
  · rename_i h
    rw [Option.bind_none]
    split
    · have : n.log.length ≤ k - n.baseIndex := by unfold Node.lastIndex at h; omega
      rw [List.getElem?_eq_none this]
    · rfl
  · rename_i h
    rw [if_pos (by omega)]; rfl

theorem isConfig_iff {e : Entry} : (params mode V).IsCfg e ↔ e.isConfig = true := by
  unfold Params.IsCfg Entry.isConfig
  show e.change ≠ .keep ↔ _
  unfold Entry.change
  cases e.kind <;> simp

/-! ## Roles -/

theorem Role.follower {term : Nat} {voteMask : Mask} : Role w i .follower term voteMask :=
  ⟨fun h => State.noConfusion h, fun h => State.noConfusion h⟩

theorem Matched.follower {term : Nat} {peers : List Nat} {matchIdx : Nat → Nat} :
    Matched w .follower term peers matchIdx := fun h => State.noConfusion h

section Held

variable [DurableStore σ] [LawfulStore σ] {store : σ} {term votedFor commit base baseTerm : Nat}
  {log : List Entry} {snapshot : Snapshot}
  (h : Held mode V w i store term votedFor commit base baseTerm log snapshot)
include h

/-- The retained log of a running node. -/
theorem Held.entryOf_eq {k : Nat} (hk : base < k) : entryOf log base k = (w.log i)[k - 1]? := by
  obtain ⟨e, he, -⟩ := h.log_eq
  rw [entryOf, if_pos (by omega), he, List.getElem?_cons, if_neg (by omega), List.getElem?_drop]
  congr 1; omega

theorem Held.entryOf_base : (entryOf log base base).map (·.term) = some baseTerm := by
  obtain ⟨e, he, ht⟩ := h.log_eq
  rw [entryOf, if_pos (le_refl _), he]
  simp [ht]

theorem Held.base_le : base ≤ (w.log i).length := h.base_eq ▸ h.covers.le

theorem Held.baseTerm_lastTerm :
    (params mode V).lastTerm ((w.log i).take base) = baseTerm := by
  rw [← h.baseTerm_eq, ← h.base_eq]; exact h.covers.term

/-- A running node's store would give it back. -/
theorem Held.durable {hc : Nat} (hcm : commit = max hc base) :
    Durable mode V w i ⟨⟨term, votedFor, hc⟩, snapshot, log.tail⟩ := by
  obtain ⟨e, he, -⟩ := h.log_eq
  refine ⟨h.term_eq, h.vote_eq, ?_, ?_, h.covers, h.serial⟩
  · rw [h.commit_eq, hcm, Recovery.base, h.base_eq]
  · rw [Recovery.base, h.base_eq, he]; rfl

/-- Without compaction there is no snapshot. -/
theorem Held.uncompacted (hs : mode.snapshots = false) : base = 0 := by
  by_contra hne
  have := (h.covers.some (h.base_eq ▸ hne)).1
  rw [hs] at this; cases this

omit h in
/-- What a clean store holds, as a node. -/
theorem Durable.held {d : Recovery} {e : Entry} (h : Durable mode V w i d)
    (hh : LawfulStore.Holds store d) (hc : LawfulStore.Clean store)
    (he : e.term = d.snapshot.lastTerm) :
    Held mode V w i store d.hard.term d.hard.votedFor (w.commit i) d.snapshot.lastIndex
      d.snapshot.lastTerm (e :: d.suffix) d.snapshot where
  holds := ⟨d.hard.commit, hh, h.commit⟩
  clean := hc
  term_eq := h.term
  vote_eq := h.vote
  commit_eq := rfl
  log_eq := ⟨e, by rw [← h.suffix]; rfl, he⟩
  base_eq := rfl
  baseTerm_eq := rfl
  covers := h.covers
  serial := h.serial

theorem Held.stored : Stored mode V w i store := by
  obtain ⟨hc, hh, hcm⟩ := h.holds
  exact ⟨_, hh, h.durable hcm⟩

end Held

namespace Live

variable [DurableStore σ] [LawfulStore σ] {c : Nat} (h : Live mode V w i n c)
include h

theorem lastIndex_eq : n.lastIndex = (w.log i).length := by
  obtain ⟨e, he, -⟩ := h.1.log_eq
  have := h.1.base_le
  rw [Node.lastIndex, he, List.length_cons, List.length_drop]; omega

theorem entryAt?_eq {k : Nat} (hk : n.baseIndex < k) : n.entryAt? k = (w.log i)[k - 1]? := by
  rw [Raft.entryAt?_eq, h.1.entryOf_eq hk]

theorem entryAt_ok {k : Nat} {e : Entry} (hk : n.baseIndex < k) (he : (w.log i)[k - 1]? = some e) :
    n.entryAt k = .ok e := by
  rw [Node.entryAt, h.entryAt?_eq hk, he]; rfl

theorem termAt_eq {k : Nat} (hk : n.baseIndex ≤ k) (hk' : k ≤ (w.log i).length) :
    n.termAt k = some ((params mode V).lastTerm ((w.log i).take k)) := by
  rcases Nat.eq_or_lt_of_le hk with rfl | hlt
  · rw [Node.termAt, Raft.entryAt?_eq, h.1.entryOf_base, h.1.baseTerm_lastTerm]
  · obtain ⟨e, he⟩ : ∃ e, (w.log i)[k - 1]? = some e :=
      ⟨_, List.getElem?_eq_getElem (show k - 1 < (w.log i).length by omega)⟩
    have := lastTerm_take (P := params mode V) he
    rw [show k - 1 + 1 = k by omega] at this
    rw [Node.termAt, h.entryAt?_eq hlt, he, this]; rfl

theorem termAt_none {k : Nat} (hk : (w.log i).length < k) : n.termAt k = none := by
  have := h.1.base_le
  rw [Node.termAt, h.entryAt?_eq (by omega), List.getElem?_eq_none (by omega)]; rfl

theorem termAtMust_ok {k : Nat} (hk : n.baseIndex ≤ k) (hk' : k ≤ (w.log i).length) :
    n.termAtMust k = .ok ((params mode V).lastTerm ((w.log i).take k)) := by
  rw [Node.termAtMust, h.termAt_eq hk hk']; rfl

theorem lastTerm_ok :
    n.termAtMust n.lastIndex = .ok ((params mode V).lastTerm (w.log i)) := by
  have := h.1.base_le
  rw [h.lastIndex_eq, h.termAtMust_ok this le_rfl, List.take_length]

theorem commit_le (hinv : Inv (params mode V) w) : n.commit ≤ (w.log i).length := by
  rw [← h.1.commit_eq]; exact (hinv.commit_ev i).1

theorem stored : Stored mode V w i n.store := h.1.stored

theorem settled {old new : Mask} (hm : mode.members = false →
    toCfg old new = (params mode V).cfg ((w.log i).take n.commit)) :
    Settled mode V w i n.term n.baseIndex n.applied n.commit n.log old new := by
  refine ⟨h.1.term_eq, h.2.1.1, h.2.1.2, h.1.commit_eq.ge, fun k hk _ => h.1.entryOf_eq hk, ?_, hm,
    h.1.uncompacted⟩
  rw [h.1.entryOf_base, h.1.baseTerm_lastTerm]

end Live

/-! ## Voters -/

/-- What a joint entry in the log does to the voters. -/
def jointStep (v : Mask × Mask) (e : Entry) : Mask × Mask :=
  if e.kind = .jointConfig then (e.oldVoters, e.newVoters) else v

theorem toCfg_inj {old new old' new' : Mask} (h : toCfg old new = toCfg old' new') :
    (old, new) = (old', new') := by
  unfold toCfg at h
  injection h with h1 h2
  split at h2 <;> split at h2 <;> simp_all

theorem toCfg_jointStep {e : Entry} (he : e.Valid) (v : Mask × Mask) :
    toCfg (jointStep v e).1 (jointStep v e).2 = (toCfg v.1 v.2).applyJoint e.change := by
  unfold Entry.Valid at he
  unfold jointStep Entry.change
  cases hk : e.kind with
  | jointConfig =>
    rw [hk] at he
    rw [if_pos rfl, toCfg, if_neg he.2]; rfl
  | _ => rw [if_neg (by simp)]; rfl

theorem toCfg_foldl {es : List Entry} (hes : ∀ e ∈ es, e.Valid) (v : Mask × Mask) :
    toCfg (es.foldl jointStep v).1 (es.foldl jointStep v).2 =
      es.foldl (fun c e => c.applyJoint e.change) (toCfg v.1 v.2) := by
  induction es generalizing v with
  | nil => rfl
  | cons e es ih =>
    rw [List.foldl_cons, List.foldl_cons, ← toCfg_jointStep (hes e List.mem_cons_self)]
    exact ih (fun e' he' => hes e' (List.mem_cons_of_mem _ he')) _

theorem foldlM_entryAt {α : Type} {g : α → Entry → α} {es : List Entry} {first : Nat} {a : α}
    (h : ∀ j e, es[j]? = some e → n.entryAt (first + j) = .ok e) :
    (List.range' first es.length).foldlM (fun a index => do
      let entry ← n.entryAt index
      pure (g a entry)) a = .ok (es.foldl g a) := by
  induction es generalizing first a with
  | nil => rfl
  | cons e es ih =>
    have h0 := h 0 e rfl
    rw [Nat.add_zero] at h0
    rw [List.length_cons, List.range'_succ, List.foldlM_cons, h0]
    refine ih fun j e' hj => ?_
    rw [show first + 1 + j = first + (j + 1) by omega]
    exact h (j + 1) e' (by simpa using hj)

theorem quorum_of_quorumOf {v : Mask × Mask} {mask : Mask} (h : Node.quorumOf v mask = true) :
    (params mode V).Quorum (toCfg v.1 v.2) fun id => Mem id mask := by
  simp only [Node.quorumOf, Bool.and_eq_true, Bool.or_eq_true, beq_iff_eq] at h
  rintro u (hu | hu)
  · subst hu; exact ⟨mask, h.1, fun _ => id⟩
  · unfold toCfg at hu
    split at hu
    · cases hu
    · cases hu
      rcases h.2 with h0 | h0
      · exact absurd h0 ‹_›
      · exact ⟨mask, h0, fun _ => id⟩

theorem Inv.valid (hinv : Inv (params mode V) w) {e : Entry} (he : e ∈ w.log i) : e.Valid :=
  (hinv.ok (hinv.log_coh i).1 he).1

/-- There are always voters. -/
theorem cfg_old_ne_zero (mode : Mode) (hV : V ≠ 0) {ℓ : List Entry} (h : ∀ e ∈ ℓ, e.Valid) :
    ((params mode V).cfg ℓ).old ≠ 0 := by
  induction ℓ using List.reverseRecOn with
  | nil => exact hV
  | append_singleton ℓ e ih =>
    have he := h e (by simp)
    have ih := ih fun e' he' => h e' (by simp [he'])
    rw [Params.cfg_snoc]
    show (Config.apply _ e.change).old ≠ 0
    unfold Entry.Valid at he
    unfold Entry.change
    cases hk : e.kind <;> simp only [hk] at he ⊢
    case jointConfig => exact he.1
    case finalConfig => exact he.1
    all_goals exact ih

namespace Live

variable [DurableStore σ] [LawfulStore σ]

/-- The voters a running node counts in for an entry up to `last`. -/
theorem jointVoters_ok (h : Live mode V w i n n.commit) (hinv : Inv (params mode V) w) {last : Nat}
    (hl : n.commit ≤ last) (hl' : last ≤ (w.log i).length) :
    ∃ v, n.jointVoters (n.commit + 1) last = .ok v ∧
      toCfg v.1 v.2 = (params mode V).view ((w.log i).take last) n.commit := by
  have hlen : (((w.log i).take last).drop n.commit).length = last + 1 - (n.commit + 1) := by
    rw [List.length_drop, List.length_take]; omega
  refine ⟨(((w.log i).take last).drop n.commit).foldl jointStep (n.votersOld, n.votersNew), ?_, ?_⟩
  · rw [Node.jointVoters, ← hlen]
    refine foldlM_entryAt (g := jointStep) ?_
    intro j e hj
    have hlt := getElem?_lt hj
    rw [List.getElem?_drop, List.getElem?_take_of_lt (by omega)] at hj
    refine h.entryAt_ok (by have := h.2.1; omega) ?_
    rw [← hj]; congr 1; omega
  · rw [toCfg_foldl fun e he => Inv.valid hinv (List.mem_of_mem_take (List.mem_of_mem_drop he)),
      h.2.2.1, Params.view, List.take_take, Nat.min_eq_left hl]
    rfl

theorem effectiveVoters_ok (h : Live mode V w i n n.commit) (hinv : Inv (params mode V) w) :
    ∃ v, n.effectiveVoters = .ok v ∧
      toCfg v.1 v.2 = (params mode V).view (w.log i) n.commit := by
  have hb := h.2.1
  rw [Node.effectiveVoters, show max (n.commit + 1) (n.baseIndex + 1) = n.commit + 1 by omega,
    h.lastIndex_eq]
  obtain ⟨v, hv, hc⟩ := h.jointVoters_ok hinv (h.commit_le hinv) le_rfl
  rw [List.take_length] at hc
  exact ⟨v, hv, hc⟩

theorem quorumMask_quorum (h : Live mode V w i n n.commit) (hinv : Inv (params mode V) w)
    {mask : Mask} (hq : n.quorumMask mask = .ok true) :
    (params mode V).Quorum ((params mode V).view (w.log i) n.commit) fun id => Mem id mask := by
  obtain ⟨v, hv, hc⟩ := h.effectiveVoters_ok hinv
  rw [Node.quorumMask, hv] at hq
  rw [← hc]
  exact quorum_of_quorumOf (Except.ok.inj hq)

theorem canCommitIndex_quorum (h : Live mode V w i n n.commit) (hinv : Inv (params mode V) w)
    {index : Nat} {acked : Mask} (hl : n.commit ≤ index) (hl' : index ≤ (w.log i).length)
    (hq : n.canCommitIndex index acked = .ok true) :
    (params mode V).Quorum ((params mode V).view ((w.log i).take index) n.commit)
      fun id => Mem id acked := by
  obtain ⟨v, hv, hc⟩ := h.jointVoters_ok hinv hl hl'
  rw [Node.canCommitIndex, hv] at hq
  rw [← hc]
  exact quorum_of_quorumOf (Except.ok.inj hq)

end Live

/-! ## The steps of others -/

theorem Covers.of_isPrefix {ℓ ℓ' : List Entry} {s : Snapshot} (h : Covers mode V ℓ s)
    (hp : ℓ.take s.lastIndex = ℓ'.take s.lastIndex) (hle : s.lastIndex ≤ ℓ'.length) :
    Covers mode V ℓ' s :=
  ⟨hle, hp ▸ h.term, h.none, fun h0 => hp ▸ h.some h0⟩

theorem ValidMsg.ext {m : Message} (hinv : Inv (params mode V) w) (hx : w.Ext w')
    (h : ValidMsg mode V w m) : ValidMsg mode V w' m := by
  unfold ValidMsg at h ⊢
  cases ht : m.type <;> simp only [ht] at h ⊢
  case requestVote =>
    obtain ⟨ℓ, hc, hrest⟩ := h
    exact ⟨ℓ, hx.cand hc, hrest⟩
  case requestVoteResponse =>
    intro hr
    obtain ⟨ℓ, hv⟩ := h hr
    exact ⟨ℓ, hx.voted hv⟩
  case append =>
    obtain ⟨r, hr, hsrc, hle, hlt, he, hb⟩ := h
    refine ⟨r, hx.lead hr, hsrc, hle.trans (hx.llog _).length_le, ?_, fun hh => ?_, ?_⟩
    · rw [hx.upTo_eq hle]; exact hlt
    · exact getElem?_of_isPrefix (hx.llog _) (he hh)
    · exact (hinv.backed_ext hx hb).mono le_rfl ((List.take_prefix _ _).trans (hx.llog _)) le_rfl
  case appendResponse => exact fun hr => hx.acked (h hr)
  case installSnapshotResponse => exact fun hr => hx.acked (h hr)
  case installSnapshot =>
    intro h0
    obtain ⟨r, hr, hsrc, hc, hb⟩ := h h0
    refine ⟨r, hx.lead hr, hsrc, hc.of_isPrefix ?_ (hc.le.trans (hx.llog _).length_le), ?_⟩
    · exact (hx.upTo_eq hc.le).symm
    · exact (hinv.backed_ext hx hb).mono le_rfl ((List.take_prefix _ _).trans (hx.llog _)) le_rfl

theorem Sent.ext {out : List Message} (hinv : Inv (params mode V) w) (hx : w.Ext w')
    (h : Sent mode V w out) : Sent mode V w' out := fun m hm => (h m hm).ext hinv hx

theorem Sent.snoc {out : List Message} {m : Message} (h : Sent mode V w out)
    (hm : ValidMsg mode V w m) : Sent mode V w (out ++ [m]) := by
  intro m' hm'
  rcases List.mem_append.mp hm' with h1 | h1
  · exact h m' h1
  · rw [List.mem_singleton.mp h1]; exact hm

theorem Sent.nil : Sent mode V w [] := fun _ hm => absurd hm List.not_mem_nil

section Frame

variable [DurableStore σ] [LawfulStore σ] {j : Nat}

theorem Durable.congr {d : Recovery} (h : Durable mode V w i d) (ht : w'.term i = w.term i)
    (hv : w'.vote i = w.vote i) (hl : w'.log i = w.log i) (hc : w'.commit i = w.commit i) :
    Durable mode V w' i d :=
  ⟨ht ▸ h.term, hv ▸ h.vote, hc ▸ h.commit, hl ▸ h.suffix, hl ▸ h.covers, hl ▸ hc ▸ h.serial⟩

theorem Stored.frame {s : σ} (h : Stored mode V w i s)
    (hs : Steps (params mode V) j w w') (hj : i ≠ j) : Stored mode V w' i s := by
  obtain ⟨d, hd, hdur⟩ := h
  obtain ⟨h1, h2, h3, h4⟩ := hs.frame hj
  exact ⟨d, hd, hdur.congr h1 h2 h3 h4⟩

/-- A node is not affected by the steps of another member. -/
theorem Rep.frame (h : Rep mode V w i n) (hinv : Inv (params mode V) w)
    (hs : Steps (params mode V) j w w') (hj : i ≠ j) : Rep mode V w' i n := by
  obtain ⟨h1, h2, h3, h4⟩ := hs.frame hj
  have hx := hinv.ext_steps hs
  refine h.imp ?_ ?_
  · rintro ⟨hid, hsent, hf, ⟨hheld, hb, hm, hrole⟩, hmatch, hpend⟩
    refine ⟨hid, hsent.ext hinv hx, hf, ⟨?_, hb, h3 ▸ hm, ?_, ?_⟩, fun _ => ?_,
      fun _ => h3 ▸ hpend trivial⟩
    · exact { holds := hheld.holds, clean := hheld.clean, term_eq := h1 ▸ hheld.term_eq
              vote_eq := h2 ▸ hheld.vote_eq, commit_eq := h4 ▸ hheld.commit_eq
              log_eq := h3 ▸ hheld.log_eq, base_eq := hheld.base_eq
              baseTerm_eq := hheld.baseTerm_eq, covers := h3 ▸ hheld.covers
              serial := h3 ▸ h4 ▸ hheld.serial }
    · intro hst
      obtain ⟨hc, hn, hv⟩ := hrole.candidate hst
      refine ⟨h3 ▸ hx.cand hc, fun r hr => ?_, fun v hv' => ?_⟩
      · rcases hs.lead_new hr with hr | hr
        · exact hn r hr
        · exact fun hri => hj (hri.symm.trans hr)
      · obtain ⟨ℓ, hℓ⟩ := hv v hv'
        exact ⟨ℓ, hx.voted hℓ⟩
    · intro hst
      obtain ⟨r, hr, hri⟩ := hrole.leader hst
      exact ⟨r, hx.lead hr, hri⟩
    · exact fun hst p hp => (hmatch trivial hst p hp).imp_right hx.acked
  · rintro ⟨hid, hout, hf, hst, hstored, hset⟩
    refine ⟨hid, hout, hf, hst, hstored.frame hs hj, ?_⟩
    exact { term_eq := h1 ▸ hset.term_eq, base_le := hset.base_le, applied_le := hset.applied_le
            commit_le := h4 ▸ hset.commit_le, entry := h3 ▸ hset.entry
            baseTerm := h3 ▸ hset.baseTerm, masks := h3 ▸ hset.masks
            uncompacted := hset.uncompacted }

end Frame

end Promtact.Raft
