import Promtact.Raft.Safety

/-!
# Configurations and the committed log

The voters of a node are those of the entries it has committed (`voters_follow_committed_log`), as
long as the node does not install a snapshot below its commit index that was made with other voters:
`onInstallSnapshot` keeps the commit index but takes the voters of the snapshot
(`snapshot_brings_voters_back`).
-/

namespace Promtact.Raft

open Refine Consensus Network

/-- The voters after the entries: the old ones, and the new ones during a transition. -/
def foldConfig (voters : Mask) (ℓ : List Entry) : Mask × Mask :=
  ℓ.foldl (fun v e =>
    match e.kind with
    | .jointConfig => (e.oldVoters, e.newVoters)
    | .finalConfig => (e.oldVoters, 0)
    | _ => v) (voters, 0)

/-- The node has committed the first entries of `ℓ`, and its voters are those of these entries. -/
structure Follows {σ : Type} (voters : Mask) (ℓ : List Entry) (a : Node σ) : Prop where
  commit_le : a.commit ≤ ℓ.length
  entry : ∀ k, a.baseIndex < k → k ≤ a.commit → a.entryAt? k = ℓ[k - 1]?
  voters : a.faulted = false → (a.votersOld, a.votersNew) = foldConfig voters (ℓ.take a.commit)

/-! ## Folding -/

theorem toCfg_foldConfig {mode : Mode} {V : Mask} {ℓ : List Entry} (hv : ∀ e ∈ ℓ, e.Valid) :
    toCfg (foldConfig V ℓ).1 (foldConfig V ℓ).2 = (params mode V).cfg ℓ := by
  induction ℓ using List.reverseRecOn with
  | nil => rfl
  | append_singleton ℓ e ih =>
    have ih := ih fun e' he' => hv e' (by simp [he'])
    have happ := toCfg_apply (hv e (by simp)) (foldConfig V ℓ).1 (foldConfig V ℓ).2
    rw [ih] at happ
    rw [Params.cfg_snoc, foldConfig, List.foldl_concat]
    show _ = Config.apply _ e.change
    cases hk : e.kind with
    | jointConfig => exact happ.1 hk
    | finalConfig => exact happ.2.1 hk
    | _ => exact ih.trans (happ.2.2 (by simp [Entry.isConfig, hk]))

/-! ## One log for a whole run -/

section Log

variable {σ : Type} [DurableStore σ] [LawfulStore σ] {mode : Mode} {S : Setup σ}
  {w w' : World Nat Entry} {c : Cluster σ} {ℓ : List Entry} {t : Nat}

/-- Two committed logs have a common continuation. -/
theorem exists_committed {P : Params Nat Entry Mask} (hinv : Inv P w) {ℓ' : List Entry} {t' k : Nat}
    (h : w.Backed t ℓ ℓ.length) (h' : w.Backed t' ℓ' k) :
    ∃ ℓ₁ t₁, ℓ <+: ℓ₁ ∧ ℓ'.take k <+: ℓ₁ ∧ w.Backed t₁ ℓ₁ ℓ₁.length := by
  have hlen : (ℓ'.take k).length = k := by rw [List.length_take]; have := h'.1; omega
  rcases Nat.le_total k ℓ.length with hle | hle
  · refine ⟨ℓ, t, List.prefix_rfl, ?_, h⟩
    rw [← hinv.backed_agree h h' hle le_rfl]; exact List.take_prefix _ _
  · refine ⟨ℓ'.take k, t', ?_, List.prefix_rfl, ?_⟩
    · have := hinv.backed_agree h h' le_rfl hle
      rw [List.take_length] at this
      rw [this]; exact take_prefix_take hle
    · rw [hlen]; exact h'.mono le_rfl List.prefix_rfl le_rfl

/-- A log that continues what the nodes have committed. -/
theorem Setup.Joined.extend (h : S.Joined mode w c) (hinv : Inv (params mode S.voters) w')
    (hx : w.Ext w') (hℓ : w'.Backed t ℓ ℓ.length) (ids : List Nat) :
    ∃ ℓ₁ t₁, ℓ <+: ℓ₁ ∧ w'.Backed t₁ ℓ₁ ℓ₁.length ∧
      ∀ i ∈ ids, ∀ a, nodeAt c i = some a → (w.log i).take a.commit <+: ℓ₁ := by
  induction ids with
  | nil => exact ⟨ℓ, t, List.prefix_rfl, hℓ, nofun⟩
  | cons i ids ih =>
    obtain ⟨ℓ₁, t₁, hp, hb, hall⟩ := ih
    cases ha : nodeAt c i with
    | none =>
      refine ⟨ℓ₁, t₁, hp, hb, fun j hj a hja => ?_⟩
      rcases List.mem_cons.mp hj with rfl | hj
      · rw [ha] at hja; cases hja
      · exact hall j hj a hja
    | some a =>
      obtain ⟨ℓ₂, t₂, hp₂, hp₂', hb₂⟩ := exists_committed hinv hb
        (h.inv.backed_ext hx ((h.rep ha).backed h.inv))
      refine ⟨ℓ₂, t₂, hp.trans hp₂, hb₂, fun j hj b hjb => ?_⟩
      rcases List.mem_cons.mp hj with rfl | hj
      · rw [ha] at hjb; cases hjb; exact hp₂'
      · exact (hall j hj b hjb).trans hp₂

theorem Rep.follows {i : Nat} {a : Node σ} (h : Rep mode S.voters w i a)
    (hinv : Inv (params mode S.voters) w) (hp : (w.log i).take a.commit <+: ℓ) :
    Follows S.voters ℓ a := by
  have hlen := (h.backed hinv).1
  have hp' := hp.length_le
  rw [List.length_take] at hp'
  have htake : ℓ.take a.commit = (w.log i).take a.commit := by
    rw [← take_eq_of_isPrefix hp (by rw [List.length_take]; omega), List.take_take, Nat.min_self]
  refine ⟨by omega, fun k hb hk => ?_, fun hf => ?_⟩
  · rw [h.entryAt?_eq hb hk, ← List.getElem?_take_of_lt (show k - 1 < a.commit by omega), ← htake,
      List.getElem?_take_of_lt (by omega)]
  · have hcfg := (h.ready hf).live.2.2.1
    rw [← toCfg_foldConfig fun e he => Inv.valid hinv (List.mem_of_mem_take he), ← htake] at hcfg
    exact toCfg_inj hcfg

variable (mode) in
theorem Setup.committed_log (himg : ∀ ℓ state, mode.Image ℓ state) {cs : List (Cluster σ)}
    (ht : Net.Trace S.act (Permitted mode) S.start cs) :
    ∃ ℓ, ∀ c ∈ S.start :: cs, ∀ i a, nodeAt c i = some a → Follows S.voters ℓ a := by
  obtain ⟨w', -, hall⟩ := Network.Joined.trace (S.simulates mode himg) Setup.joined_start ht
  obtain ⟨_, -, hinv, -⟩ := hall S.start List.mem_cons_self
  suffices key : ∀ cs : List (Cluster σ), (∀ c ∈ cs, ∃ w, w.Ext w' ∧ S.Joined mode w c) →
      ∃ ℓ t, w'.Backed t ℓ ℓ.length ∧ ∀ c ∈ cs, ∃ w, S.Joined mode w c ∧
        ∀ i a, nodeAt c i = some a → (w.log i).take a.commit <+: ℓ by
    obtain ⟨ℓ, t, -, hℓ⟩ := key (S.start :: cs) fun c hc => by
      obtain ⟨w, hpath, -, h⟩ := hall c hc
      exact ⟨w, ext_of_path hpath, h⟩
    refine ⟨ℓ, fun c hc i a ha => ?_⟩
    obtain ⟨w, h, hp⟩ := hℓ c hc
    exact (h.rep ha).follows h.inv (hp i a ha)
  intro cs hcs
  -- each state only makes the log longer
  induction cs with
  | nil => exact ⟨[], 0, ⟨le_rfl, .inl rfl⟩, nofun⟩
  | cons c cs ih =>
    obtain ⟨ℓ, t, hb, hℓ⟩ := ih fun c' hc' => hcs c' (List.mem_cons_of_mem _ hc')
    obtain ⟨w, hx, h⟩ := hcs c List.mem_cons_self
    obtain ⟨ℓ₁, t₁, hp, hb₁, hℓ₁⟩ := h.extend hinv hx hb S.ids
    refine ⟨ℓ₁, t₁, hb₁, fun c' hc' => ?_⟩
    rcases List.mem_cons.mp hc' with rfl | hc'
    · exact ⟨w, h, fun i a ha => hℓ₁ i (h.node ha).1 a ha⟩
    · obtain ⟨w₁, h₁, hp₁⟩ := hℓ c' hc'
      exact ⟨w₁, h₁, fun i a ha => (hp₁ i a ha).trans hp⟩

end Log

/-! ## The voters of a node -/

/-- The events of a run with changes of the membership: a node compacts what it has applied, when
that is all it has committed. -/
def compactsApplied : Event → Proc Disk → Bool
  | .call (.compact index _), .up n => index == n.applied && n.applied == n.commit
  | _, _ => true

/-- Such an event after which the voters are still those of the committed log. A snapshot that a
running node installs is not below the commit index, unless it was made with the same voters, and a
node that has stopped does not compact its log. -/
def keepsVoters : Event → Proc Disk → Bool
  | .call (.compact index _), .up n => !n.faulted && index == n.applied && n.applied == n.commit
  | .call (.step m), .up n => n.faulted || m.type != .installSnapshot || n.rejectsSnapshot m ||
      decide (m.snapshotIndex ≤ n.baseIndex) || decide (n.commit ≤ m.snapshotIndex) ||
      (m.snapshotOld == n.votersOld && m.snapshotNew == n.votersNew)
  | _, _ => true

/-- Runs in which the membership changes and logs are compacted. -/
def everything : Mode := { members := true, snapshots := true, Image := fun _ _ => True }

theorem keepsVoters_permitted {i : Nat} {e : Event} {p : Proc Disk} (h : keepsVoters e p = true) :
    Permitted everything i e p := by
  rcases e with op | _ | _ | _ <;> rcases p with n | store <;> try trivial
  cases op with
  | proposeJoint _ => rfl
  | proposeFinal => rfl
  | compact index state =>
    simp only [keepsVoters, Bool.and_eq_true, Bool.not_eq_true', beq_iff_eq] at h
    obtain ⟨⟨hf, hi⟩, ha⟩ := h
    exact ⟨rfl, fun _ _ _ => ⟨hf, fun k e hk hk' => by omega⟩⟩
  | step m =>
    refine ⟨fun _ _ hf hty hrej hb => ?_, nofun⟩
    simp only [keepsVoters, hf, hty, hrej, Bool.or_eq_true, Bool.and_eq_true, decide_eq_true_eq,
      beq_iff_eq, bne_self_eq_false, Bool.false_eq_true, false_or] at h
    rcases h with (h | h) | h
    · omega
    · exact .inl h
    · exact .inr h
  | _ => trivial

/-- There is one committed log in all states of a run, and the voters of a node that has not stopped
are those of the entries that it has committed. -/
theorem voters_follow_committed_log (S : Setup Disk) {cs : List (Cluster Disk)}
    (ht : Net.Trace S.act (fun _ e p => keepsVoters e p) S.start cs) :
    ∃ ℓ, ∀ c ∈ S.start :: cs, ∀ i a, nodeAt c i = some a → Follows S.voters ℓ a := by
  refine Setup.committed_log everything (fun _ _ => trivial) (ht.imp ?_)
  rintro c c' ⟨i, e, p, hp, ha, hn⟩
  exact ⟨i, e, p, hp, keepsVoters_permitted ha, hn⟩

/-- Node 1 compacts its first entry and sends the snapshot to node 3, which has the entry by then.
All commit a joint configuration. -/
def delayedSnapshot : List (Move Disk) :=
  elected ++ Move.deliverAll [7, 14] ++ Move.calls 1 .applyEntries ++ Move.calls 1 (.compact 1 []) ++
  [Move.call 1 .tick, Move.call 1 .tick] ++ Move.calls 1 .tick ++ Move.deliverAll [15, 18] ++
  Move.calls 1 (.proposeJoint [1, 2]) ++ Move.deliverAll [19, 20, 21, 24]

theorem voters_follow_committed_log_joint :
    ∃ cs c a, Net.Trace trio.act (fun _ e p => keepsVoters e p) trio.start cs ∧
      c ∈ trio.start :: cs ∧ nodeAt c 3 = some a ∧ a.commit = 2 ∧ a.votersNew = 3 ∧
      ∃ ℓ, ∀ c ∈ trio.start :: cs, ∀ i a, nodeAt c i = some a → Follows trio.voters ℓ a := by
  have h : (trio.start.play trio.act (fun _ e p => keepsVoters e p) delayedSnapshot).any (fun c =>
      (nodeAt c 3).any fun a => decide (a.commit = 2 ∧ a.votersNew = 3)) = true := by
    decide +kernel
  simp only [Option.any_eq_true, decide_eq_true_eq] at h
  obtain ⟨c, hc, a, ha, hcommit, hv⟩ := h
  obtain ⟨cs, ht, hmem⟩ := Net.Trace.of_runs (Net.Runs.of_play hc) (.singleton c)
  exact ⟨cs, c, a, ht, hmem c List.mem_cons_self, ha, hcommit, hv, voters_follow_committed_log trio ht⟩

/-- The snapshot arrives after node 3 has committed the joint configuration, and the node is back to
the voters before it. -/
theorem snapshot_brings_voters_back :
    ∃ cs, Net.Trace trio.act (fun _ e p => compactsApplied e p) trio.start cs ∧
      ¬ ∃ ℓ, ∀ c ∈ trio.start :: cs, ∀ i a, nodeAt c i = some a → Follows trio.voters ℓ a := by
  have h : (trio.start.play trio.act (fun _ e p => compactsApplied e p) delayedSnapshot).any
      (fun c => (c.play trio.act (fun _ e p => compactsApplied e p) [Move.deliver 17]).any fun c' =>
      (nodeAt c 3).any fun a => (nodeAt c' 3).any fun b => decide (a.faulted = false ∧
        b.faulted = false ∧ a.commit = b.commit ∧ a.votersNew ≠ b.votersNew)) = true := by
    decide +kernel
  simp only [Option.any_eq_true, decide_eq_true_eq] at h
  obtain ⟨c, hc, c', hc', a, ha, b, hb, hfa, hfb, hcommit, hne⟩ := h
  obtain ⟨cs', ht', hmem'⟩ := Net.Trace.of_runs (Net.Runs.of_play hc') (.singleton c')
  obtain ⟨cs, ht, hmem⟩ := Net.Trace.of_runs (Net.Runs.of_play hc) ht'
  refine ⟨cs, ht, ?_⟩
  rintro ⟨ℓ, hℓ⟩
  -- at the same commit index the voters would be the same
  have h1 := (hℓ c (hmem c List.mem_cons_self) 3 a ha).voters hfa
  have h2 := (hℓ c' (hmem c' (hmem' c' List.mem_cons_self)) 3 b hb).voters hfb
  rw [hcommit, ← h2] at h1
  exact hne (congrArg Prod.snd h1)

end Promtact.Raft
