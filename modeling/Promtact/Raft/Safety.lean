import Promtact.Raft.Refine.Cluster

/-!
# Safety of clusters (`SPEC.md`)

What holds in every run of a cluster, over any number of crashes, restarts and refused calls of the
stores, whatever the network does with the messages:

* `committed_prefix_agreement`: with a fixed membership, two nodes agree on what both have committed
  and still have, also after their logs were compacted;
* `one_leader_per_term`: with changes of the membership, a term has one leader in the whole history;
* `leader_completeness`: and every later leader has what was committed before.
-/

namespace Promtact.Raft

open Refine Consensus Network

section Rep

variable {σ : Type} [DurableStore σ] [LawfulStore σ] {mode : Mode} {V : Mask}
  {w w' : World Nat Entry} {i j k : Nat} {a b : Node σ}

theorem Rep.term_eq (h : Rep mode V w i a) : w.term i = a.term := by
  rcases h with h | ⟨-, -, -, -, -, h⟩
  · exact h.live.1.term_eq
  · exact h.term_eq

theorem Rep.backed (h : Rep mode V w i a) (hinv : Inv (params mode V) w) :
    w.Backed a.term (w.log i) a.commit := by
  rw [← h.term_eq]
  exact (hinv.commit_ev i).mono le_rfl (List.take_prefix _ _) h.bounds.2.2

theorem Rep.entry_some (h : Rep mode V w i a) (hinv : Inv (params mode V) w) (hb : a.baseIndex < k)
    (hk : k ≤ a.commit) : ∃ e, a.entryAt? k = some e := by
  have := (h.backed hinv).1
  exact ⟨_, (h.entryAt?_eq hb hk).trans (List.getElem?_eq_getElem (by omega))⟩

/-- The term that a node has at an index it has committed. -/
theorem Rep.termAt_eq (h : Rep mode V w i a) (hinv : Inv (params mode V) w) (hb : a.baseIndex ≤ k)
    (hk : k ≤ a.commit) :
    a.termAt k = some ((params mode V).lastTerm ((w.log i).take k)) := by
  rcases Nat.eq_or_lt_of_le hb with rfl | hlt
  · exact h.termAt_base
  · have hlen := (h.backed hinv).1
    have hget := List.getElem?_eq_getElem (show k - 1 < (w.log i).length by omega)
    have hterm := lastTerm_take (P := params mode V) hget
    rw [show k - 1 + 1 = k by omega] at hterm
    rw [Node.termAt, h.entryAt?_eq hlt hk, hget, hterm]; rfl

/-- What two nodes have committed, at different times of one history. -/
theorem Rep.log_agree (ha : Rep mode V w i a) (hb : Rep mode V w' j b)
    (hinv : Inv (params mode V) w) (hinv' : Inv (params mode V) w') (hx : w.Ext w')
    (hka : k ≤ a.commit) (hkb : k ≤ b.commit) : (w.log i).take k = (w'.log j).take k :=
  hinv'.backed_agree (hinv.backed_ext hx (ha.backed hinv)) (hb.backed hinv') hka hkb

theorem Rep.entry_agree (ha : Rep mode V w i a) (hb : Rep mode V w' j b)
    (hinv : Inv (params mode V) w) (hinv' : Inv (params mode V) w') (hx : w.Ext w')
    (hba : a.baseIndex < k) (hbb : b.baseIndex < k) (hka : k ≤ a.commit) (hkb : k ≤ b.commit) :
    ∃ e, a.entryAt? k = some e ∧ b.entryAt? k = some e := by
  obtain ⟨e, he⟩ := ha.entry_some hinv hba hka
  refine ⟨e, he, ?_⟩
  have hlog := ha.log_agree hb hinv hinv' hx hka hkb
  rw [ha.entryAt?_eq hba hka] at he
  rw [hb.entryAt?_eq hbb hkb, ← he, ← List.getElem?_take_of_lt (show k - 1 < k by omega), ← hlog,
    List.getElem?_take_of_lt (by omega)]

/-- A leader's log is the log of its term. -/
theorem Rep.leads (h : Rep mode V w i a) (hinv : Inv (params mode V) w) (hs : a.state = .leader) :
    ∃ r, w.lead a.term = some r ∧ r.leader = i ∧ w.log i = w.llog a.term := by
  obtain ⟨r, hr, rfl⟩ := (h.ready_of_state (by rw [hs]; decide)).live.2.2.2.leader hs
  exact ⟨r, hr, rfl, hinv.lead_own hr h.term_eq⟩

theorem Rep.uncompacted (h : Rep mode V w i a) (hs : mode.snapshots = false) : a.baseIndex = 0 := by
  rcases h with h | ⟨-, -, -, -, -, h⟩
  · exact h.live.1.uncompacted hs
  · exact h.uncompacted hs

/-- A leader has what is in the log of its term. -/
theorem Rep.leader_entry (h : Rep mode V w i a) (hinv : Inv (params mode V) w)
    (hs : a.state = .leader) (hb : a.baseIndex < k) {ℓ : List Entry} {e : Entry}
    (hp : ℓ <+: w.llog a.term) (he : ℓ[k - 1]? = some e) : a.entryAt? k = some e := by
  obtain ⟨r, -, -, hlog⟩ := h.leads hinv hs
  rw [(h.ready_of_state (by rw [hs]; decide)).live.entryAt?_eq hb, hlog]
  exact getElem?_of_isPrefix hp he

end Rep

/-! ## Fixed membership -/

/-- The events of a run without changes of the membership. -/
def Event.fixedMembership : Event → Bool
  | .call (.proposeJoint _) | .call .proposeFinal => false
  | _ => true

/-- No change of membership is proposed. -/
abbrev FixedMembership (_ : Nat) (e : Event) (_ : Proc Disk) : Prop := e.fixedMembership

/-- Runs in which logs are compacted and the membership does not change. -/
def compacting : Mode := { members := false, snapshots := true, Image := fun _ _ => True }

theorem FixedMembership.permitted {i : Nat} {e : Event} {p : Proc Disk}
    (h : FixedMembership i e p) : Permitted compacting i e p := by
  rcases e with op | _ | _ | _ <;> rcases p with n | store <;> try trivial
  cases op with
  | proposeJoint _ => cases h
  | proposeFinal => cases h
  | compact index state => exact ⟨rfl, fun hm => by cases hm⟩
  | step m => exact ⟨nofun, nofun⟩
  | _ => trivial

/-- Committed-prefix agreement. -/
theorem committed_prefix_agreement (S : Setup Disk) {c : Cluster Disk}
    (hr : Net.Runs S.act FixedMembership S.start c) {i j : Nat} {a b : Node Disk}
    (ha : nodeAt c i = some a) (hb : nodeAt c j = some b) :
    (∀ k, max a.baseIndex b.baseIndex < k → k ≤ min a.commit b.commit →
      ∃ e, a.entryAt? k = some e ∧ b.entryAt? k = some e) ∧
    (max a.baseIndex b.baseIndex ≤ min a.commit b.commit →
      ∃ t, a.termAt (max a.baseIndex b.baseIndex) = some t ∧
        b.termAt (max a.baseIndex b.baseIndex) = some t) := by
  obtain ⟨w, -, h⟩ := Setup.joined_start.run (fun _ _ => trivial)
    (hr.mono fun _ _ _ => FixedMembership.permitted)
  have hra := h.rep ha
  have hrb := h.rep hb
  have hx := World.Ext.refl w
  refine ⟨fun k hk hk' => ?_, fun hk => ?_⟩
  · exact hra.entry_agree hrb h.inv h.inv hx (by omega) (by omega) (by omega) (by omega)
  · refine ⟨_, hra.termAt_eq h.inv (by omega) (by omega), ?_⟩
    rw [hra.log_agree hrb h.inv h.inv hx (by omega) (by omega)]
    exact hrb.termAt_eq h.inv (by omega) (by omega)

/-- Node 2 restarts, and node 3 has got a snapshot and what comes after it. -/
def compactedRun : Option (Cluster Disk) :=
  trio.start.play trio.act FixedMembership (elected ++ Move.calls 1 (.propose 7) ++
    Move.deliverAll [14, 16] ++ Move.calls 1 .applyEntries ++ Move.calls 1 (.compact 2 []) ++
    Move.calls 1 (.propose 8) ++ Move.deliverAll [12, 19, 22, 20, 25, 26, 23] ++
    [Move.crash 2, Move.restart 2])

theorem committed_prefix_agreement_after_snapshot :
    ∃ c a b, Net.Runs trio.act FixedMembership trio.start c ∧
      nodeAt c 2 = some a ∧ nodeAt c 3 = some b ∧ a.baseIndex = 0 ∧ b.baseIndex = 2 ∧
      a.commit = 3 ∧ b.commit = 3 ∧ (∃ e, a.entryAt? 3 = some e ∧ b.entryAt? 3 = some e) ∧
      ∃ t, a.termAt 2 = some t ∧ b.termAt 2 = some t := by
  have h : compactedRun.any (fun c => (nodeAt c 2).any fun a => (nodeAt c 3).any fun b =>
      decide (a.baseIndex = 0 ∧ b.baseIndex = 2 ∧ a.commit = 3 ∧ b.commit = 3)) = true := by
    decide +kernel
  simp only [Option.any_eq_true, decide_eq_true_eq] at h
  obtain ⟨c, hc, a, ha, b, hb, h1, h2, h3, h4⟩ := h
  have hr := Net.Runs.of_play hc
  have hagree := committed_prefix_agreement trio hr ha hb
  rw [h1, h2, h3, h4] at hagree
  exact ⟨c, a, b, hr, ha, hb, h1, h2, h3, h4, hagree.1 3 (by decide) (by decide),
    hagree.2 (by decide)⟩

/-! ## Changes of the membership -/

/-- The events of a run in which no log is compacted. -/
def Event.noCompaction : Event → Bool
  | .call (.compact ..) => false
  | _ => true

/-- No member compacts its log. -/
abbrev NoCompaction (_ : Nat) (e : Event) (_ : Proc Disk) : Prop := e.noCompaction

/-- Runs in which the membership changes and logs are not compacted. -/
def reconfiguring : Mode := { members := true, snapshots := false, Image := fun _ _ => True }

theorem NoCompaction.permitted {i : Nat} {e : Event} {p : Proc Disk}
    (h : NoCompaction i e p) : Permitted reconfiguring i e p := by
  rcases e with op | _ | _ | _ <;> rcases p with n | store <;> try trivial
  cases op with
  | compact index state => cases h
  | step m => exact ⟨fun _ => nofun, nofun⟩
  | proposeJoint _ => rfl
  | proposeFinal => rfl
  | _ => trivial

/-- Two states of one run, and the world at those times. -/
theorem NoCompaction.worlds (S : Setup Disk) {c c' : Cluster Disk}
    (hr : Net.Runs S.act NoCompaction S.start c) (hr' : Net.Runs S.act NoCompaction c c') :
    ∃ w w', w.Ext w' ∧ S.Joined reconfiguring w c ∧ S.Joined reconfiguring w' c' := by
  obtain ⟨w, -, h⟩ := Setup.joined_start.run (fun _ _ => trivial)
    (hr.mono fun _ _ _ => NoCompaction.permitted)
  obtain ⟨w', hx, h'⟩ := h.run (fun _ _ => trivial) (hr'.mono fun _ _ _ => NoCompaction.permitted)
  exact ⟨w, w', hx, h, h'⟩

/-- Nodes 1 and 2 commit a joint configuration. -/
def jointScript : List (Move Disk) :=
  Move.calls 1 (.proposeJoint [1, 2]) ++ Move.deliverAll [14, 16]

/-- Node 2 takes over with the vote of node 1. -/
def takeOverScript : List (Move Disk) :=
  [Move.call 1 .tick, Move.call 2 .tick] ++ Move.calls 2 .tick ++ Move.deliverAll [19, 21, 22, 24]

/-- Election safety: over the whole history a term has one leader. -/
theorem one_leader_per_term (S : Setup Disk) {c c' : Cluster Disk}
    (hr : Net.Runs S.act NoCompaction S.start c) (hr' : Net.Runs S.act NoCompaction c c')
    {i j : Nat} {a b : Node Disk} (ha : nodeAt c i = some a) (hb : nodeAt c' j = some b)
    (hla : a.state = .leader) (hlb : b.state = .leader) (ht : a.term = b.term) : i = j := by
  obtain ⟨w, w', hx, h, h'⟩ := NoCompaction.worlds S hr hr'
  obtain ⟨r, hr, rfl, -⟩ := (h.rep ha).leads h.inv hla
  obtain ⟨r', hr', rfl, -⟩ := (h'.rep hb).leads h'.inv hlb
  have := hx.lead hr
  rw [ht, hr'] at this
  cases this; rfl

theorem one_leader_per_term_joint :
    ∃ c c' a b, Net.Runs trio.act NoCompaction trio.start c ∧ Net.Runs trio.act NoCompaction c c' ∧
      nodeAt c 1 = some a ∧ nodeAt c' 1 = some b ∧ a.state = .leader ∧ b.state = .leader ∧
      a.term = b.term ∧ b.votersNew = 3 ∧ (1 : Nat) = 1 := by
  have h : (trio.start.play trio.act NoCompaction elected).any (fun c => (nodeAt c 1).any fun a =>
      (c.play trio.act NoCompaction jointScript).any fun c' => (nodeAt c' 1).any fun b =>
      decide (a.state = .leader ∧ b.state = .leader ∧ a.term = b.term ∧ b.votersNew = 3)) = true := by
    decide +kernel
  simp only [Option.any_eq_true, decide_eq_true_eq] at h
  obtain ⟨c, hc, a, ha, c', hc', b, hb, hla, hlb, ht, hv⟩ := h
  have hr := Net.Runs.of_play hc
  have hr' := Net.Runs.of_play hc'
  exact ⟨c, c', a, b, hr, hr', ha, hb, hla, hlb, ht, hv,
    one_leader_per_term trio hr hr' ha hb hla hlb ht⟩

/-- Leader completeness: what a node has committed at its term, a leader of the same term or a later
one has from then on, and a leader of a later term has had before. Two nodes agree on what they have
committed at any two times. -/
theorem leader_completeness (S : Setup Disk) {c c' : Cluster Disk}
    (hr : Net.Runs S.act NoCompaction S.start c) (hr' : Net.Runs S.act NoCompaction c c')
    {i j : Nat} {a b : Node Disk} (ha : nodeAt c i = some a) (hb : nodeAt c' j = some b) :
    (∀ k e, 0 < k → k ≤ a.commit → a.entryAt? k = some e → b.state = .leader → a.term ≤ b.term →
      b.entryAt? k = some e) ∧
    (∀ k e, 0 < k → k ≤ b.commit → b.entryAt? k = some e → a.state = .leader → b.term < a.term →
      a.entryAt? k = some e) ∧
    (∀ k, 0 < k → k ≤ a.commit → k ≤ b.commit →
      ∃ e, a.entryAt? k = some e ∧ b.entryAt? k = some e) := by
  obtain ⟨w, w', hx, h, h'⟩ := NoCompaction.worlds S hr hr'
  have hra := h.rep ha
  have hrb := h'.rep hb
  have hbase := hra.uncompacted rfl
  have hbase' := hrb.uncompacted rfl
  refine ⟨fun k e h0 hk he hl ht => ?_, fun k e h0 hk he hl ht => ?_, fun k h0 hk hk' => ?_⟩
  · obtain ⟨r, hr, -, -⟩ := hrb.leads h'.inv hl
    refine hrb.leader_entry h'.inv hl (by omega)
      (h'.inv.backed_llog (h.inv.backed_ext hx (hra.backed h.inv)) hr ht) ?_
    rwa [List.getElem?_take_of_lt (by omega), ← hra.entryAt?_eq (by omega) hk]
  · obtain ⟨r, hr, -, -⟩ := hra.leads h.inv hl
    -- the leader was elected with it
    refine hra.leader_entry h.inv hl (by omega)
      ((h'.inv.backed_elected (hrb.backed h'.inv) (hx.lead hr) ht).trans (h.inv.lead_log hr)) ?_
    rwa [List.getElem?_take_of_lt (by omega), ← hrb.entryAt?_eq (by omega) hk]
  · exact hra.entry_agree hrb h.inv h'.inv hx (by omega) (by omega) hk hk'

theorem leader_completeness_takeover :
    ∃ c c' a b e, Net.Runs trio.act NoCompaction trio.start c ∧
      Net.Runs trio.act NoCompaction c c' ∧ nodeAt c 1 = some a ∧ nodeAt c' 2 = some b ∧
      a.commit = 2 ∧ a.term = 1 ∧ b.state = .leader ∧ b.term = 2 ∧ e.kind = .jointConfig ∧
      a.entryAt? 2 = some e ∧ b.entryAt? 2 = some e := by
  have h : (trio.start.play trio.act NoCompaction (elected ++ jointScript)).any (fun c =>
      (nodeAt c 1).any fun a => (c.play trio.act NoCompaction takeOverScript).any fun c' =>
      (nodeAt c' 2).any fun b => (a.entryAt? 2).any fun e => decide (a.commit = 2 ∧ a.term = 1 ∧
        b.state = .leader ∧ b.term = 2 ∧ e.kind = .jointConfig)) = true := by
    decide +kernel
  simp only [Option.any_eq_true, decide_eq_true_eq] at h
  obtain ⟨c, hc, a, ha, c', hc', b, hb, e, he, hcommit, hta, hl, htb, hk⟩ := h
  have hr := Net.Runs.of_play hc
  have hr' := Net.Runs.of_play hc'
  exact ⟨c, c', a, b, e, hr, hr', ha, hb, hcommit, hta, hl, htb, hk, he,
    (leader_completeness trio hr hr' ha hb).1 2 e (by decide) hcommit.ge he hl (by omega)⟩

end Promtact.Raft
