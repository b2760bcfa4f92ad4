import Promtact.Raft.Changes.Runs
import Promtact.Raft.Safety

/-!
# Indexes and panics

With a fixed membership the indexes of a node are in order and its terms do not go down
(`Rep.indexSanity`); the upper bound on the commit index is part of the safety of the cluster. So
every entry that a method looks up is there. The other panics are an identifier out of range and a
full outbound buffer: the identifiers of the nodes, their peers and the senders of messages are
valid in every run (`Setup.keepsIds`), and a method sends at most 192 messages.

`index_sanity` puts this together. Only `TransferLeadership` to an identifier out of range panics.
-/

namespace Promtact.Raft

open Refine Consensus Network

/-! ## Identifiers -/

section

variable {σ : Type} {n n' n₀ : Node σ}

/-- The node at address `i` and its peers have valid identifiers, and it sends in its own name. -/
structure Addressed (i : Nat) (n : Node σ) : Prop where
  id : n.id = i
  ids : n.ValidIds
  outbound : ∀ m ∈ n.outbound, m.src = i

theorem Change.outbound [StableStore σ] {op : Op} (h : Change op n₀ n n') (hlog : n.log ≠ []) :
    ∀ m ∈ n'.outbound, m ∈ n.outbound ∨ m.src = n.id := by
  intro q hq
  cases h with
  | send hm =>
    rcases List.mem_append.mp hq with hq | hq
    · exact .inl hq
    · rw [List.mem_singleton.mp hq]
      exact .inr hm.src
  | track ht => exact .inl (ht.volatile.outbound ▸ hq)
  | ensure hop mask => exact .inl ((Frame.ensurePeers n mask).outbound ▸ hq)
  | commit hr hk hc hs => exact .inl (by rw [(Volatile.settle _ _ _).outbound] at hq; exact hq)
  | store hr hm hs => exact .inl (by rw [(hm.stored hlog _).outbound] at hq; exact hq)
  | save hp =>
    cases hp with
    | own => exact .inl hq
    | install => exact .inl hq
  | persistError | appendError | storeError | saveError | compactError | noSnapshotStore => cases hq
  | wait | follow | preVote | preVoteAck | voteAck | lead | newTerm | campaign | vote | pending
  | append | propose | read | readAck | readReady | apply => exact .inl hq

theorem Enlists.restoreEntries (commit index : Nat) (entries : List Entry) (r : Restored) (n : Node σ) :
    Enlists n (restoreEntries commit index entries r n).2 := by
  induction entries generalizing index r n with
  | nil => exact .refl n
  | cons e entries ih =>
    unfold Raft.restoreEntries
    split
    · exact .refl n
    · exact (Enlists.ensurePeers n _).trans (ih _ _ _)

theorem Enlists.checkRecovered (n : Node σ) : Enlists n n.checkRecovered := by
  unfold Node.checkRecovered Node.restoreConfigurationState
  split
  · exact .of_same rfl rfl rfl rfl rfl
  have he := Enlists.restoreEntries n.commit (n.baseIndex + 1) n.log.tail
    ⟨n.votersOld, n.votersNew, 0⟩ n
  cases hres : Raft.restoreEntries n.commit (n.baseIndex + 1) n.log.tail
    ⟨n.votersOld, n.votersNew, 0⟩ n with
  | mk result n' =>
    rw [hres] at he
    cases result with
    | none => exact he.trans (.of_same rfl rfl rfl rfl rfl)
    | some r => exact he.trans (.of_same rfl rfl rfl rfl rfl)

theorem Addressed.checkRecovered {i : Nat} (h : Addressed i n) : Addressed i n.checkRecovered := by
  have he := Enlists.checkRecovered n
  refine ⟨he.id.trans h.id, he.validIds h.ids, ?_⟩
  obtain ⟨n', hv, heq⟩ := Frame.checkRecovered n
  rcases heq with heq | heq <;> rw [heq]
  · rw [hv.outbound]
    exact h.outbound
  · exact fun _ hm => absurd hm List.not_mem_nil

variable {i timeout : Nat} {peers : List Nat} {store : σ}

theorem Addressed.new (h : newNodeWithStore i peers timeout store = .ok n) : Addressed i n := by
  obtain ⟨hid, hnodup, hpeers, -⟩ := newNodeWithStore_ids h
  obtain ⟨-, -, heq⟩ := newNodeWithStore_ok h
  rw [heq]
  exact ⟨rfl, ⟨hid, fun p hp => (hpeers p hp).1, hnodup⟩, fun _ hm => absurd hm List.not_mem_nil⟩

theorem Addressed.recover {d : Recovery} (h : Raft.recover i peers timeout store d = .ok n) :
    Addressed i n := by
  obtain ⟨n₀, hn₀, h⟩ := recover_cases h
  have h₀ := Addressed.new hn₀
  have hsame : ∀ {n₁ n₂ : Node σ}, Addressed i n₁ → n₂.id = n₁.id → n₂.peers = n₁.peers →
      n₂.outbound = n₁.outbound ∨ n₂.outbound = [] → Addressed i n₂ := by
    intro n₁ n₂ h hid hp hout
    refine ⟨hid.trans h.id, ⟨hid ▸ h.ids.id, hp ▸ h.ids.peers, hp ▸ h.ids.nodup⟩, ?_⟩
    rcases hout with hout | hout <;> rw [hout]
    · exact h.outbound
    · exact fun _ hm => absurd hm List.not_mem_nil
  rcases h with rfl | rfl | rfl
  · exact Addressed.checkRecovered (hsame h₀ rfl rfl (.inl rfl))
  · exact hsame h₀ rfl rfl (.inr rfl)
  · have he := Enlists.ensurePeers (n₀.atSnapshot d) (d.snapshot.oldVoters ||| d.snapshot.newVoters)
    have hv := Frame.ensurePeers (n₀.atSnapshot d) (d.snapshot.oldVoters ||| d.snapshot.newVoters)
    have hat : Addressed i (n₀.atSnapshot d) := hsame h₀ rfl rfl (.inl rfl)
    generalize (n₀.atSnapshot d).ensurePeers _ = m at he hv ⊢
    have hm : Addressed i m := ⟨he.id.trans hat.id, he.validIds hat.ids, by
      rw [hv.outbound]
      exact hat.outbound⟩
    exact Addressed.checkRecovered (hsame hm rfl rfl (.inl rfl))

theorem Addressed.call [StableStore σ] {op : Op} {u : Unit} (h : Addressed i n) (hs : Sane n)
    (hx : op.run n = .ok u n') : Addressed i n' := by
  refine (op.keepsChanges (I := Addressed i) hs h hx ?_).2
  intro n₁ n₂ hs₁ h₁ hc
  have hfit : Fit False n₂ := Fit.change ⟨hs₁.log, .inr h₁.ids⟩ hc
  refine ⟨hc.peers.1.trans h₁.id, hfit.ids.resolve_left fun h => h, fun m hm => ?_⟩
  exact (hc.outbound hs₁.log m hm).elim (h₁.outbound m) (·.trans h₁.id)

/-- In every run the identifiers are valid. -/
theorem Setup.keepsIds [DurableStore σ] [LawfulStore σ] (S : Setup σ) :
    S.Keeps (fun _ _ _ => True) Addressed fun m => Valid m.src where
  new h := .new h
  recovered h := .recover h
  call hs h _ _ hx := h.call hs hx
  drain h := ⟨⟨h.id, ⟨h.ids.id, h.ids.peers, h.ids.nodup⟩, fun _ hm => absurd hm List.not_mem_nil⟩,
    fun m hm => by rw [h.outbound m hm, ← h.id]; exact h.ids.id⟩

end

/-! ## Indexes -/

section

variable {σ : Type} [DurableStore σ] [LawfulStore σ] {mode : Mode} {V : Mask} {w : World Nat Entry}
  {i : Nat} {n : Node σ}

theorem Rep.indexed (h : Rep mode V w i n) (hinv : Inv (params mode V) w) (hlog : n.log ≠ []) :
    n.Indexed := by
  obtain ⟨hb, ha, -⟩ := h.bounds
  refine ⟨hb.trans ha, hb, ?_⟩
  rcases Nat.eq_or_lt_of_le (hb.trans ha) with heq | hlt
  · rw [← heq]
    exact Node.baseIndex_le_lastIndex hlog
  · obtain ⟨e, he⟩ := h.entry_some hinv hlt (Nat.le_refl _)
    unfold Node.entryAt? Node.offset at he
    split at he
    · cases he
    · omega

/-- `checkIndexSanity`, and what the log of a node is like. -/
structure Node.IndexSanity (n : Node σ) : Prop where
  base_le : n.baseIndex ≤ n.applied
  applied_le : n.applied ≤ n.commit
  commit_le : n.commit ≤ n.lastIndex
  terms : ∀ j k s t, j ≤ k → n.termAt j = some s → n.termAt k = some t → s ≤ t
  term_le : ∀ k t, n.termAt k = some t → t ≤ n.term
  base : n.log.head?.map (·.term) = some n.baseTerm
  snapshot : n.snapshot.lastIndex = n.baseIndex

theorem Rep.indexSanity (h : Rep mode V w i n) (hinv : Inv (params mode V) w)
    (hf : n.faulted = false) : n.IndexSanity := by
  obtain ⟨hb, ha, -⟩ := h.bounds
  have hlive : Live mode V w i n n.commit := by
    rcases h with h | ⟨-, -, hfault, -⟩
    · exact h.live
    · cases hf.symm.trans hfault
  obtain ⟨e, hlog, he⟩ := hlive.1.log_eq
  have hlast := hlive.lastIndex_eq
  -- every term in the log is that of a prefix of the log of the world
  have hterm : ∀ k t, n.termAt k = some t →
      k ≤ (w.log i).length ∧ t = (params mode V).lastTerm ((w.log i).take k) := by
    intro k t hk
    obtain ⟨hbk, hkl⟩ := Node.termAt_range hk
    rw [hlast] at hkl
    rw [hlive.termAt_eq hbk hkl] at hk
    exact ⟨hkl, (Option.some.inj hk).symm⟩
  refine
    { base_le := hb, applied_le := ha, commit_le := hlast ▸ hlive.commit_le hinv
      terms := ?_, term_le := ?_, base := ?_, snapshot := hlive.1.base_eq }
  · intro j k s t hjk hj hk
    obtain ⟨-, rfl⟩ := hterm j s hj
    obtain ⟨hlen, rfl⟩ := hterm k t hk
    exact hinv.lastTerm_take_mono (hinv.log_coh i).1 hjk hlen
  · intro k t hk
    obtain ⟨hlen, rfl⟩ := hterm k t hk
    rw [← hlive.1.term_eq]
    exact lastTerm_take_le (hinv.log_coh i).2 hlen
  · rw [hlog, ← he]
    rfl

end

/-! ## Panics -/

section

variable {σ : Type} [StableStore σ] {n n' : Node σ} {e : Panic}

/-- Looking up an identifier out of range. -/
theorem transferLeadership_panic (hlog : n.log ≠ []) {target : Nat} (ht : ¬ Valid target)
    (h : (Op.transferLeadership target).run n = .error e n') : e = .nodeID := by
  unfold Op.run transferLeadership at h
  change (do let _ ← (if n.state ≠ State.leader ∨ target = n.id then _ else _ : NodeM σ Bool); _) n =
    _ at h
  split at h
  · cases h
  · rw [Node.isVoter_panic hlog ht] at h
    cases h
    rfl

/-- Every method returns when the identifiers and the indexes are in range and nothing waits to be
sent. -/
theorem Op.run_ok (op : Op) (hf : Fit False n) (hs : Sane n) (hout : n.outbound = [])
    (hids : op.Answerable n) (hidx : n.Indexed) (h : op.run n = .error e n') : False := by
  have hrun : n.state = .leader → n.faulted = false := by
    intro hl
    cases hfault : n.faulted with
    | false => rfl
    | true => cases hl.symm.trans (hs.stopped hfault)
  have hacts := op.changes hf hrun (.inr (by rw [hout]; decide)) (.inr hids) (.inr hidx)
  obtain ⟨-, -, hpanic, -⟩ := hacts.error h
  exact hpanic

end

/-! ## Runs -/

/-- An event of a run with a fixed membership, in which `Drain` follows every call. -/
def Orderly (_ : Nat) (e : Event) (p : Proc Disk) : Prop :=
  e.fixedMembership ∧ ∀ op n, e = .call op → p = .up n → n.outbound = []

instance : ∀ i e p, Decidable (Orderly i e p)
  | _, .call op, .up n => decidable_of_iff ((Event.call op).fixedMembership ∧ n.outbound = [])
      (and_congr_right fun _ => ⟨fun h _ _ _ hp => Proc.up.inj hp ▸ h, fun h => h op n rfl rfl⟩)
  | _, .call _, .down _ => decidable_of_iff _ (and_iff_left fun _ _ _ => nofun).symm
  | _, .drain, _ | _, .crash, _ | _, .restart, _ =>
    decidable_of_iff _ (and_iff_left fun _ _ => nofun).symm

/-- The indexes of a node are in order, and its methods do not panic. -/
theorem index_sanity (S : Setup Disk) {c : Cluster Disk}
    (hr : Net.Runs S.act Orderly S.start c) {i : Nat} {n : Node Disk} (hn : nodeAt c i = some n) :
    (n.faulted = false → n.IndexSanity) ∧
    ∀ op, Orderly i (.call op) (.up n) → op.Deliverable i c.sent →
      ∀ e n', op.run n = .error e n' →
        e = .nodeID ∧ ∃ target, op = .transferLeadership target ∧ ¬ Valid target := by
  have hfixed := hr.mono fun i e p (h : Orderly i e p) => (h.1 : FixedMembership i e p)
  obtain ⟨w, -, h⟩ := Setup.joined_start.run (fun _ _ => trivial)
    (hfixed.mono fun _ _ _ => FixedMembership.permitted)
  have hrep := h.rep hn
  obtain ⟨hnodes, hsent⟩ := S.keepsIds.run (hfixed.mono fun _ _ _ _ => trivial)
  obtain ⟨hs, hids⟩ := hnodes i n hn
  refine ⟨hrep.indexSanity h.inv, fun op hop hd e n' hx => ?_⟩
  have hpanic : op.Answerable n → False := fun hans =>
    op.run_ok ⟨hs.log, .inr hids.ids⟩ hs (hop.2 op n rfl rfl) hans (hrep.indexed h.inv hs.log) hx
  cases op with
  | transferLeadership target =>
    by_cases ht : Valid target
    · exact (hpanic ht).elim
    · exact ⟨transferLeadership_panic hs.log ht hx, target, rfl, ht⟩
  | step m => exact (hpanic fun _ => hsent m hd.1).elim
  | proposeJoint _ => cases hop.1
  | _ => exact (hpanic trivial).elim

/-- Node 3 has got a snapshot and what comes after it, and the leader has a proposal open. -/
def sanityRun : Option (Cluster Disk) :=
  trio.start.play trio.act Orderly (elected ++ Move.calls 1 (.propose 7) ++
    Move.deliverAll [14, 16] ++ Move.calls 1 .applyEntries ++ Move.calls 1 (.compact 2 []) ++
    Move.calls 1 (.propose 8) ++ Move.deliverAll [12, 19, 22, 20, 25, 26, 23] ++
    Move.calls 1 (.propose 9))

theorem index_sanity_leader :
    ∃ c n, Net.Runs trio.act Orderly trio.start c ∧ nodeAt c 1 = some n ∧ n.IndexSanity ∧
      n.baseIndex = 2 ∧ n.commit < n.lastIndex ∧ n.state = .leader ∧
      (∀ e n', Op.tick.run n ≠ .error e n') ∧
      ∀ e n', (Op.transferLeadership 65).run n = .error e n' → e = .nodeID := by
  have h : sanityRun.any (fun c => (nodeAt c 1).any fun n => decide (n.faulted = false ∧
      n.baseIndex = 2 ∧ n.commit < n.lastIndex ∧ n.state = .leader ∧ n.outbound = [])) = true := by
    decide +kernel
  simp only [Option.any_eq_true, decide_eq_true_eq] at h
  obtain ⟨c, hc, n, hn, hf, hb, hcm, hl, hout⟩ := h
  have hr := Net.Runs.of_play hc
  obtain ⟨hsane, hpanic⟩ := index_sanity trio hr hn
  have horder : ∀ op, (Event.call op).fixedMembership → Orderly 1 (.call op) (.up n) :=
    fun _ hm => ⟨hm, fun _ _ _ hp => Proc.up.inj hp ▸ hout⟩
  refine ⟨c, n, hr, hn, hsane hf, hb, hcm, hl, fun e n' hx => ?_, fun e n' hx => ?_⟩
  · obtain ⟨-, _, htick, -⟩ := hpanic .tick (horder _ rfl) trivial e n' hx
    cases htick
  · exact (hpanic (.transferLeadership 65) (horder _ rfl) trivial e n' hx).1

end Promtact.Raft
