import Promtact.Raft.Changes.Runs
import Promtact.Raft.RepLemmas

/-!
# The pending configuration of a node

`pendingConfig` is meant to be the index of the last configuration in the log above the commit
index, or 0 if there is none (`Node.IsPending`). While it is not 0 a leader proposes no
configuration, and a follower accepts none.

* `Exact.change`: every change of a method keeps it, except where `Node.KeepsPending` excludes it. A
  single voter commits its proposal before it notes it as pending; a snapshot that covers the pending
  configuration, or replaces the log, does not clear it.
* `pending_is_last_config`: so it holds in every run without these.
-/

namespace Promtact.Raft

open Refine Network

variable {σ : Type} {n n' n₀ : Node σ} {e : Entry} {p hi : Nat}

/-- Below `hi`, `p` is the index of the last configuration above the commit index, or 0 if there is
none. -/
structure Node.IsPending (n : Node σ) (hi p : Nat) : Prop where
  config : p = 0 ∨ n.commit < p ∧ ∃ e, n.entryAt? p = some e ∧ e.isConfig = true
  last : ∀ k e, n.commit < k → p < k → k < hi → n.entryAt? k = some e → e.isConfig = false

/-- The indexes of the node are in order, and its pending configuration is exact. -/
structure Exact (n : Node σ) : Prop where
  base_le : n.baseIndex ≤ n.commit
  applied_le : n.applied ≤ n.commit
  commit_le : n.commit ≤ n.lastIndex
  pending : n.IsPending (n.lastIndex + 1) n.pendingConfig

/-! ## Reading the log -/

theorem Node.entryAt?_of_same (hlog : n'.log = n.log) (hb : n'.baseIndex = n.baseIndex) (k : Nat) :
    n'.entryAt? k = n.entryAt? k := by
  rw [entryAt?_eq, entryAt?_eq, hlog, hb]

theorem Node.entryAt?_append (hlog : n.log ≠ []) (hlog' : n'.log = n.log ++ [e])
    (hb : n'.baseIndex = n.baseIndex) (k : Nat) :
    n'.entryAt? k = if k = n.lastIndex + 1 then some e else n.entryAt? k := by
  have hpos := List.length_pos_of_ne_nil hlog
  rw [entryAt?_eq, entryAt?_eq, hlog', hb, entryOf, entryOf]
  unfold Node.lastIndex
  split
  · split
    · rw [show k - n.baseIndex = n.log.length by omega, List.getElem?_concat_length]
    · rcases Nat.lt_or_ge (k - n.baseIndex) n.log.length with hk | hk
      · exact List.getElem?_append_left hk
      · rw [List.getElem?_eq_none (by rw [List.length_append, List.length_singleton]; omega),
          List.getElem?_eq_none hk]
  · rw [if_neg (by omega)]

theorem Node.entryAt?_drop {index : Nat} (hlog' : n'.log = n.log.drop (index - n.baseIndex))
    (hb : n'.baseIndex = index) (hle : n.baseIndex ≤ index) {k : Nat} (hk : index ≤ k) :
    n'.entryAt? k = n.entryAt? k := by
  rw [entryAt?_eq, entryAt?_eq, hlog', hb, entryOf, entryOf, if_pos hk, if_pos (by omega),
    List.getElem?_drop]
  congr 1
  omega

theorem Node.entryAt?_range {k : Nat} (h : n.entryAt? k = some e) :
    n.baseIndex ≤ k ∧ k ≤ n.lastIndex := by
  unfold Node.entryAt? Node.offset at h
  split at h
  · cases h
  · omega

/-- There is one such index. -/
theorem Node.IsPending.unique {q : Nat} (h : n.IsPending (n.lastIndex + 1) p)
    (h' : n.IsPending (n.lastIndex + 1) q) : p = q := by
  have hlt : ∀ {p q}, n.IsPending (n.lastIndex + 1) p → n.IsPending (n.lastIndex + 1) q → ¬ p < q := by
    intro p q h h' hlt
    rcases h'.config with rfl | ⟨hc, e, he, hcfg⟩
    · cases hlt
    · have hle : q ≤ n.lastIndex := (Node.entryAt?_range he).2
      cases (h.last q e hc hlt (by omega) he).symm.trans hcfg
  exact Nat.le_antisymm (Nat.not_lt.mp (hlt h' h)) (Nat.not_lt.mp (hlt h h'))

theorem Node.IsPending.of_same (h : n.IsPending hi p) (hlog : n'.log = n.log)
    (hb : n'.baseIndex = n.baseIndex) (hc : n'.commit = n.commit) : n'.IsPending hi p := by
  have he := Node.entryAt?_of_same hlog hb
  refine ⟨?_, fun k e hk => ?_⟩
  · rw [hc, he]
    exact h.config
  · rw [he]
    exact h.last k e (hc ▸ hk)

namespace Exact

theorem of_same (h : Exact n) (hlog : n'.log = n.log) (hb : n'.baseIndex = n.baseIndex)
    (hc : n'.commit = n.commit) (ha : n'.applied = n.applied) (hp : n'.pendingConfig = n.pendingConfig) :
    Exact n' := by
  have hl : n'.lastIndex = n.lastIndex := by rw [Node.lastIndex, Node.lastIndex, hlog, hb]
  refine ⟨hb ▸ hc ▸ h.base_le, ha ▸ hc ▸ h.applied_le, hl ▸ hc ▸ h.commit_le, ?_⟩
  rw [hl, hp]
  exact h.pending.of_same hlog hb hc

end Exact

/-! ## Committing -/

theorem Node.ensurePeers_pending (n : Node σ) (mask : Mask) :
    (n.ensurePeers mask).pendingConfig = n.pendingConfig := by
  obtain ⟨peers, next, mtch, heq⟩ := n.ensurePeers_same mask
  rw [heq]

theorem Node.configure_pending (n : Node σ) (e : Entry) :
    (n.configure e).pendingConfig = n.pendingConfig := by
  unfold Node.configure
  split
  · exact Node.ensurePeers_pending _ _
  · unfold Node.retire
    split <;> rfl
  · rfl

theorem Node.foldl_settleAt_pending (first count : Nat) (h0 : 0 < first)
    (he : ∀ k, first ≤ k → k < first + count → ∃ e, n.entryAt? k = some e) :
    ((List.range' first count).foldl Node.settleAt n).pendingConfig =
      if first ≤ n.pendingConfig ∧ n.pendingConfig < first + count then 0 else n.pendingConfig := by
  induction count generalizing first n with
  | zero => rw [if_neg (by omega)]; rfl
  | succ count ih =>
    have hv := Volatile.settleAt n first
    have hfirst : (n.settleAt first).pendingConfig =
        if first = n.pendingConfig then 0 else n.pendingConfig := by
      obtain ⟨e, he⟩ := he first (Nat.le_refl _) (by omega)
      unfold Node.settleAt Node.clearPending
      rw [he]
      dsimp only
      rw [Node.configure_pending]
      split
      · rfl
      · exact Node.configure_pending n e
    rw [List.range'_succ, List.foldl_cons, ih (first + 1) (Nat.succ_pos _), hfirst]
    · by_cases hp : first = n.pendingConfig
      · rw [if_pos hp, if_neg (by omega), if_pos (by omega)]
      · rw [if_neg hp]
        by_cases hr : first + 1 ≤ n.pendingConfig ∧ n.pendingConfig < first + 1 + count
        · rw [if_pos hr, if_pos (by omega)]
        · rw [if_neg hr, if_neg (by omega)]
    · intro k hk hlt
      rw [Node.entryAt?_of_same hv.log hv.baseIndex]
      exact he k (by omega) (by omega)

/-- Going over the entries from `first` to `last` clears the pending configuration if it is one of
them. -/
theorem Node.settle_pending (hlog : n.log ≠ []) {first last : Nat} (hb : n.baseIndex < first)
    (hl : last ≤ n.lastIndex) : (n.settle first last).pendingConfig =
      if first ≤ n.pendingConfig ∧ n.pendingConfig ≤ last then 0 else n.pendingConfig := by
  have hfold := Node.foldl_settleAt_pending (n := n) first (last + 1 - first)
    (by omega) fun k hk hlt => ?_
  · unfold Node.settle
    rw [if_neg (Nat.not_le.mpr hb)]
    refine hfold.trans ?_
    by_cases hr : first ≤ n.pendingConfig ∧ n.pendingConfig ≤ last
    · rw [if_pos hr, if_pos (by omega)]
    · rw [if_neg hr, if_neg (by omega)]
  · obtain ⟨e, -, he, -⟩ := Node.entryAt_ok hlog (show n.baseIndex ≤ k by omega) (by omega)
    exact ⟨e, he⟩

theorem Exact.commit (h : Exact n) (hlog : n.log ≠ []) {k : Nat} (hk : k ≤ n.lastIndex)
    (hle : n.commit ≤ k) (s : σ) :
    Exact ({ n with commit := k, store := s }.settle (n.commit + 1) k) := by
  have hb := h.base_le
  have hv := Volatile.settle { n with commit := k, store := s } (n.commit + 1) k
  have hp : (Node.settle { n with commit := k, store := s } (n.commit + 1) k).pendingConfig =
      if n.commit + 1 ≤ n.pendingConfig ∧ n.pendingConfig ≤ k then 0 else n.pendingConfig :=
    Node.settle_pending (n := { n with commit := k, store := s }) hlog (Nat.lt_succ_of_le hb) hk
  have hl := hv.lastIndex
  refine ⟨by rw [hv.baseIndex, hv.commit]; exact hb.trans hle, ?_, by rw [hl, hv.commit]; exact hk, ?_⟩
  · rw [hv.applied, hv.commit]
    exact h.applied_le.trans hle
  rw [hl, hp]
  have hlast := h.pending.last
  refine Node.IsPending.of_same (n := { n with commit := k, store := s }) ?_ hv.log hv.baseIndex hv.commit
  split
  · -- the configuration is committed, and there is none above it
    refine ⟨.inl rfl, fun j e hj _ hlt he => ?_⟩
    have hj : k < j := hj
    exact hlast j e (by omega) (by omega) hlt he
  · rename_i hout
    refine ⟨?_, fun j e hj => hlast j e (Nat.lt_of_le_of_lt hle hj)⟩
    refine h.pending.config.imp_right fun hc => ⟨?_, hc.2⟩
    have := hc.1
    show k < n.pendingConfig
    omega

/-! ## Appending -/

/-- An entry that is no configuration changes nothing. -/
theorem Exact.append (h : Exact n) (hlog : n.log ≠ []) (hlog' : n'.log = n.log ++ [e])
    (hb : n'.baseIndex = n.baseIndex) (hc : n'.commit = n.commit) (ha : n'.applied = n.applied)
    (hp : n'.pendingConfig = if e.isConfig then n.lastIndex + 1 else n.pendingConfig) : Exact n' := by
  have hpos := List.length_pos_of_ne_nil hlog
  have hl : n'.lastIndex = n.lastIndex + 1 := by
    rw [Node.lastIndex, Node.lastIndex, hlog', hb, List.length_append, List.length_singleton]
    omega
  have hat := Node.entryAt?_append hlog hlog' hb
  have hcl := h.commit_le
  refine ⟨hb ▸ hc ▸ h.base_le, ha ▸ hc ▸ h.applied_le, by omega, ?_⟩
  rw [hl, hp]
  cases he : e.isConfig with
  | true =>
    rw [if_pos rfl]
    refine ⟨.inr ⟨by omega, e, ?_, he⟩, fun k e' _ hlt hhi => absurd hlt (by omega)⟩
    rw [hat, if_pos rfl]
  | false =>
    rw [if_neg Bool.false_ne_true]
    refine ⟨?_, fun k e' hk hlt hhi he' => ?_⟩
    · refine h.pending.config.imp_right ?_
      rintro ⟨hcp, e', he', hcfg⟩
      refine ⟨hc ▸ hcp, e', ?_, hcfg⟩
      rw [hat, if_neg, he']
      have := (Node.entryAt?_range he').2
      omega
    · rw [hat] at he'
      split at he'
      · cases he'
        exact he
      · exact h.pending.last k e' (hc ▸ hk) hlt (by omega) he'

/-! ## Cutting the log -/

theorem Node.noteAt_pending (hat : n.entryAt? p = some e) :
    (n.noteAt p).pendingConfig = if e.isConfig then p else n.pendingConfig := by
  unfold Node.noteAt Node.note
  rw [hat]
  dsimp only
  split
  · exact Node.ensurePeers_pending _ _
  · rfl

/-- The loop of `rebuildPendingConfig` has looked at the entries before `first`. -/
theorem Node.IsPending.rebuild (first count : Nat) (hc : n.commit < first)
    (he : ∀ k, first ≤ k → k < first + count → ∃ e, n.entryAt? k = some e)
    (h : n.IsPending first n.pendingConfig) :
    n.IsPending (first + count) ((List.range' first count).foldl Node.noteAt n).pendingConfig := by
  induction count generalizing first n with
  | zero => exact h
  | succ count ih =>
    obtain ⟨e, hat⟩ := he first (Nat.le_refl _) (by omega)
    have hv := Volatile.noteAt n first
    have hsame := Node.entryAt?_of_same hv.log hv.baseIndex
    have hnext : n.IsPending (first + 1) (n.noteAt first).pendingConfig := by
      rw [Node.noteAt_pending hat]
      cases hcfg : e.isConfig with
      | true =>
        refine ⟨.inr ⟨hc, e, hat, hcfg⟩, fun k e' _ hlt hhi => absurd hlt ?_⟩
        rw [if_pos rfl]
        omega
      | false =>
        rw [if_neg Bool.false_ne_true]
        refine ⟨h.config, fun k e' hk hlt hhi he' => ?_⟩
        rcases Nat.lt_or_ge k first with hlt' | hge
        · exact h.last k e' hk hlt hlt' he'
        · rw [show k = first by omega, hat] at he'
          cases he'
          exact hcfg
    rw [List.range'_succ, List.foldl_cons]
    have hrest := ih (n := n.noteAt first) (first + 1) (by rw [hv.commit]; omega)
      (fun k hk hlt => by rw [hsame]; exact he k (by omega) (by omega))
      (hnext.of_same hv.log hv.baseIndex hv.commit)
    rw [show first + (count + 1) = first + 1 + count by omega]
    exact hrest.of_same hv.log.symm hv.baseIndex.symm hv.commit.symm

/-- The log is cut above the commit index. -/
theorem Exact.trim (h : Exact n) (hlog : n.log ≠ []) {index : Nat} (hc : n.commit < index) :
    Exact (n.trim index) := by
  have hb := h.base_le
  have hcl := h.commit_le
  have hpos := List.length_pos_of_ne_nil hlog
  unfold Node.trim
  split
  · rename_i hle
    have hlen : Node.lastIndex { n with log := n.log.take (index - n.baseIndex) } = index - 1 := by
      unfold Node.lastIndex at hle ⊢
      dsimp only
      rw [List.length_take]
      omega
    have hne : Node.log { n with log := n.log.take (index - n.baseIndex) } ≠ [] := by
      dsimp only
      rw [← List.length_pos_iff, List.length_take]
      omega
    unfold Node.cut
    generalize hm : ({ n with log := n.log.take (index - n.baseIndex) } : Node σ) = m at hlen hne ⊢
    have hmb : m.baseIndex = n.baseIndex := by rw [← hm]
    have hmc : m.commit = n.commit := by rw [← hm]
    have hma : m.applied = n.applied := by rw [← hm]
    have hv := Volatile.rebuild m
    refine ⟨by rw [hv.baseIndex, hv.commit, hmb, hmc]; exact hb, ?_, ?_, ?_⟩
    · rw [hv.applied, hv.commit, hma, hmc]
      exact h.applied_le
    · rw [hv.commit, hv.lastIndex, hmc, hlen]
      omega
    · rw [hv.lastIndex, hlen]
      refine Node.IsPending.of_same (n := { m with pendingConfig := 0 }) ?_ hv.log hv.baseIndex hv.commit
      unfold Node.rebuild
      dsimp only
      have hstart : Node.IsPending { m with pendingConfig := 0 } (max (m.commit + 1) (m.baseIndex + 1)) 0 :=
        ⟨.inl rfl, fun k e hk _ hhi => absurd hk (by dsimp only; omega)⟩
      have := hstart.rebuild _ (m.lastIndex + 1 - max (m.commit + 1) (m.baseIndex + 1))
        (by dsimp only; omega) fun k hk hlt => ?_
      · rw [show max (m.commit + 1) (m.baseIndex + 1) +
          (m.lastIndex + 1 - max (m.commit + 1) (m.baseIndex + 1)) = index - 1 + 1 by omega] at this
        exact this
      · obtain ⟨e, -, he, -⟩ := Node.entryAt_ok (n := { m with pendingConfig := 0 }) hne (k := k)
          (by dsimp only; omega) (by show k ≤ m.lastIndex; omega)
        exact ⟨e, he⟩
  · exact h

theorem Node.trim_lastIndex (hlog : n.log ≠ []) {index : Nat} (hb : n.baseIndex < index)
    (hl : index ≤ n.lastIndex + 1) : (n.trim index).lastIndex + 1 = index := by
  have hpos := List.length_pos_of_ne_nil hlog
  unfold Node.trim
  split
  · rw [Node.cut, (Volatile.rebuild _).lastIndex]
    unfold Node.lastIndex at hl ⊢
    dsimp only
    rw [List.length_take]
    omega
  · omega

theorem Exact.stored (h : Exact n) (hlog : n.log ≠ []) (e : Entry) (s : σ) :
    Exact (n.stored (n.lastIndex + 1) e s) := by
  have hv := Volatile.note (n := { n with store := s, log := n.log ++ [e] })
    (List.mem_append_right _ List.mem_cons_self) (n.lastIndex + 1)
  refine h.append hlog hv.log hv.baseIndex hv.commit (hv.applied) ?_
  unfold Node.stored Node.note
  split
  · exact Node.ensurePeers_pending _ _
  · rfl

/-! ## Snapshots -/

/-- The entries from `index` on are retained, and the commit index does not go back. -/
theorem Exact.drop (h : Exact n) (hlog : n.log ≠ []) {index : Nat} (hb : n.baseIndex ≤ index)
    (hl : index ≤ n.lastIndex) (hlog' : n'.log = n.log.drop (index - n.baseIndex))
    (hb' : n'.baseIndex = index) (hc : n'.commit = max n.commit index) (ha : n'.applied ≤ n'.commit)
    (hp : n'.pendingConfig = n.pendingConfig)
    (hpending : n.pendingConfig = 0 ∨ index < n.pendingConfig) : Exact n' := by
  have hpos := List.length_pos_of_ne_nil hlog
  have hl' : n'.lastIndex = n.lastIndex := by
    unfold Node.lastIndex at hl ⊢
    rw [hlog', hb', List.length_drop]
    omega
  have hcl := h.commit_le
  refine ⟨by omega, ha, by omega, ?_⟩
  rw [hl', hp]
  refine ⟨?_, fun k e hk hlt hhi he => ?_⟩
  · rcases hpending with hz | hz
    · exact .inl hz
    · refine h.pending.config.imp_right ?_
      rintro ⟨hcp, e, he, hcfg⟩
      exact ⟨by omega, e, by rw [Node.entryAt?_drop hlog' hb' hb hz.le, he], hcfg⟩
  · rw [Node.entryAt?_drop hlog' hb' hb (by omega)] at he
    exact h.pending.last k e (by omega) hlt hhi he

/-- The log is replaced by a snapshot. -/
theorem Exact.reset {index : Nat} (hlog' : n'.log = [e]) (hb' : n'.baseIndex = index)
    (hc : n'.commit = index) (ha : n'.applied ≤ n'.commit) (hp : n'.pendingConfig = 0) : Exact n' := by
  have hl' : n'.lastIndex = index := by
    rw [Node.lastIndex, hlog', hb']
    rfl
  refine ⟨by omega, ha, by omega, ?_⟩
  rw [hp, hl']
  exact ⟨.inl rfl, fun k e hk _ hhi => absurd hk (by omega)⟩

/-! ## Changes -/

variable [StableStore σ] {op : Op}

/-- An append does not conflict with what is committed. -/
def Node.AppendsAbove (n : Node σ) (m : Message) : Prop :=
  m.type = .append → m.hasEntry = true → n.term ≤ m.term → n.termAt m.logIndex = some m.logTerm →
    (n.termAt (m.logIndex + 1)).any (· != m.entry.term) = true → n.commit ≤ m.logIndex

/-- A snapshot that continues the log leaves the pending configuration above it, and one that
replaces the log finds none, and nothing committed above it. -/
def Node.InstallsBelow (n : Node σ) (m : Message) : Prop :=
  m.type = .installSnapshot → n.rejectsSnapshot m = false → n.baseIndex < m.snapshotIndex →
    n.termAt m.snapshotIndex = some m.snapshotTerm ∧
      (n.pendingConfig = 0 ∨ m.snapshotIndex < n.pendingConfig) ∨
    n.pendingConfig = 0 ∧ n.commit ≤ m.snapshotIndex

/-- What keeps the pending configuration exact. A leader that proposes a configuration needs another
node to commit it. -/
def Node.KeepsPending (n : Node σ) : Op → Prop
  | .proposeJoint voters => n.state = .leader → n.votersNew = 0 → n.pendingConfig = 0 →
      ((voterMask voters).toOption.join.any fun mask => quorumOf (n.votersOld, mask) (bit n.id)) = false
  | .proposeFinal => n.state = .leader → n.votersNew ≠ 0 → n.pendingConfig = 0 →
      quorumOf (n.votersOld, n.votersNew) (bit n.id) = false
  | .step m => n.AppendsAbove m ∧ n.InstallsBelow m
  | _ => True

omit [StableStore σ] in
/-- The effective voters with an entry at the end of the log: its own ones if it is a joint
configuration, and those of the node if there is none above the commit index. -/
theorem Node.quorumMask_append (hlog : n.log ≠ []) (hb : n.baseIndex ≤ n.commit)
    (hc : n.commit ≤ n.lastIndex) {s : σ} {mask : Mask}
    (h : Node.quorumMask { n with store := s, log := n.log ++ [e] } mask = .ok true) :
    quorumOf (if e.kind = .jointConfig then (e.oldVoters, e.newVoters) else (n.votersOld, n.votersNew))
        mask = true ∨
      ∃ k e', n.commit < k ∧ n.entryAt? k = some e' ∧ e'.kind = .jointConfig := by
  have hpos := List.length_pos_of_ne_nil hlog
  obtain ⟨voters, hv, h⟩ := check_ok h
  have hq : quorumOf voters mask = true := Except.ok.inj h
  generalize hm : ({ n with store := s, log := n.log ++ [e] } : Node σ) = m at hv
  have hlast : m.lastIndex = n.lastIndex + 1 := by
    rw [← hm]
    unfold Node.lastIndex
    dsimp only
    rw [List.length_append, List.length_singleton]
    omega
  have hat := Node.entryAt?_append hlog (show m.log = n.log ++ [e] by rw [← hm])
    (show m.baseIndex = n.baseIndex by rw [← hm])
  have hfirst : max (m.commit + 1) (m.baseIndex + 1) = n.commit + 1 := by
    rw [← hm]
    dsimp only
    omega
  unfold Node.effectiveVoters at hv
  rw [hlast, hfirst] at hv
  obtain ⟨v, e', hv', he', rfl⟩ := Node.jointVoters_succ (by omega) hv
  rw [hat, if_pos rfl] at he'
  cases he'
  rcases Node.jointVoters_cases hv' with rfl | ⟨k, e', hk, hle, he', hjoint, -⟩
  · left
    rw [← hm] at hq
    exact hq
  · rw [hat, if_neg (by omega)] at he'
    exact .inr ⟨k, e', hk, he', hjoint⟩

omit [StableStore σ] in
/-- A node that is alone does not meet the condition. -/
theorem Exact.not_alone (h : Exact n₀) (hlog : n₀.log ≠ []) (hk : n₀.KeepsPending op) :
    ¬ Alone op n₀ := by
  rintro ⟨hl, hn, hid, hold, hnew, hp, he, hc, hq⟩
  have hat := Node.entryAt?_of_same hn.log hn.baseIndex
  have hq := Node.quorumMask_append (hn.log ▸ hlog) (hn.baseIndex ▸ hn.commit ▸ h.base_le)
    (hn.lastIndex ▸ hn.commit ▸ h.commit_le) hq
  -- there is no configuration above the commit index
  have hnone : n₀.pendingConfig = 0 → ∀ {k e'}, n₀.commit < k → n₀.entryAt? k = some e' →
      e'.kind ≠ .jointConfig := by
    intro hz k e' hk he' hjoint
    have hle : k ≤ n₀.lastIndex := (Node.entryAt?_range he').2
    have := h.pending.last k e' hk (by omega) (by omega) he'
    simp [Entry.isConfig, hjoint] at this
  have hz : ∀ {b}, (n₀.pendingConfig = 0 → Node.quorumOf b (bit n₀.id) = false) → n₀.pendingConfig = 0 →
      ¬ (Node.quorumOf b (bit n₀.id) = true ∨
        ∃ k e', n₀.commit < k ∧ n₀.entryAt? k = some e' ∧ e'.kind = .jointConfig) := by
    rintro b hb hz (hq | ⟨k, e', hk, he', hjoint⟩)
    · cases (hb hz).symm.trans hq
    · exact hnone hz hk he' hjoint
  simp only [hat, hn.commit, hid, hold, hnew] at hq
  cases he with
  | noop => cases hc
  | command h => simp [Entry.isConfig, h.kind] at hc
  | joint hop hmask hnew' hp' hpeers =>
    subst hop
    have hjoint := hk hl
    rw [hmask] at hjoint
    exact hz (fun hz => hjoint (hnew ▸ hnew') hz) (hp ▸ hp') (by simpa [hold] using hq)
  | final hop hnew' hp' =>
    subst hop
    exact hz (fun hz => hk hl (hnew ▸ hnew') hz) (hp ▸ hp') (by simpa [hold, hnew] using hq)

theorem Exact.change (h₀ : Exact n₀) (hlog₀ : n₀.log ≠ []) (hk : n₀.KeepsPending op) (h : Exact n)
    (hs : Sane n) (hc : Change op n₀ n n') (hf : n'.faulted = false) : Exact n' := by
  have halone := h₀.not_alone hlog₀ hk
  have hcl := h.commit_le
  cases hc with
  | track ht =>
    cases ht with
    | start =>
      obtain ⟨next, mtch, heq⟩ := n.track_eq
      rw [heq]
      exact h.of_same rfl rfl rfl rfl rfl
    | clamp | back | ack | snapshotAck => exact h.of_same rfl rfl rfl rfl rfl
  | ensure hop mask =>
    obtain ⟨peers, next, mtch, heq⟩ := n.ensurePeers_same mask
    rw [heq]
    exact h.of_same rfl rfl rfl rfl rfl
  | commit hr hk hc => exact h.commit hs.log hk (by omega) _
  | append hr hl hn he ha =>
    refine h.append hs.log rfl rfl rfl rfl ?_
    rw [if_neg fun hcfg => halone (ha hcfg)]
  | propose hr hl hn he hcfg => exact h.append hs.log rfl rfl rfl rfl (by rw [if_pos hcfg])
  | pending ha => exact absurd ha halone
  | @store m s hr hm =>
    obtain ⟨hb, hl⟩ := Node.termAt_range hm.prev
    have hlt : n.commit < m.logIndex + 1 := by
      rcases hm.place with ⟨hlast, -⟩ | ⟨t, ht, hne⟩
      · omega
      · have hop := hm.op
        subst hop
        have hprev := hm.prev
        have hterm := hm.term
        have hterm₀ := hm.since.term
        rw [hm.since.termAt] at hprev ht
        have := hk.1 hm.type hm.entry (by omega) hprev (by rw [ht]; exact bne_iff_ne.mpr hne)
        rw [hm.since.commit]
        omega
    have htrim : Fit True (n.trim (m.logIndex + 1)) := .trim ⟨hs.log, .inl trivial⟩ (by omega)
    have hstored := (h.trim hs.log hlt).stored htrim.log m.entry s
    rw [Node.trim_lastIndex hs.log (by omega) (by omega)] at hstored
    exact hstored
  | save hp =>
    have hpending : n.pendingConfig = 0 ∨ n.commit < n.pendingConfig := h.pending.config.imp_right (·.1)
    cases hp with
    | own hn hop hb ha ht =>
      have hca := h.applied_le
      obtain ⟨-, hl⟩ := Node.termAt_range ht
      exact h.drop hs.log hb.le hl rfl rfl (by show n.commit = _; omega) hca rfl (by omega)
    | @install m hn hop htype hm hb =>
      subst hop
      have hpend : n₀.pendingConfig = n.pendingConfig :=
        h₀.pending.unique ((hn.lastIndex ▸ h.pending).of_same hn.log.symm hn.baseIndex.symm hn.commit.symm)
      have hcond := hk.2 htype (hn.rejectsSnapshot hm hb) (hn.baseIndex ▸ hb)
      rw [← hn.termAt, hpend, ← hn.commit] at hcond
      have hca := h.applied_le
      have hmax : max n.applied m.snapshotIndex ≤ max n.commit m.snapshotIndex := by omega
      by_cases hcont : n.termAt m.snapshotIndex = some m.snapshotTerm
      · have hcond : n.pendingConfig = 0 ∨ m.snapshotIndex < n.pendingConfig :=
          hcond.elim (·.2) fun h => .inl h.1
        have hlog : n.logAbove m.toSnapshot = n.log.drop (m.snapshotIndex - n.baseIndex) := if_pos hcont
        exact h.drop hs.log hb.le (Node.termAt_range hcont).2 hlog rfl rfl hmax rfl hcond
      · have hcond := hcond.resolve_left fun h => hcont h.1
        have hlog : n.logAbove m.toSnapshot = [{ term := m.snapshotTerm }] := if_neg hcont
        exact .reset hlog rfl (Nat.max_eq_right hcond.2) hmax hcond.1
  | apply hop ha =>
    refine ⟨h.base_le, ha, h.commit_le, ?_⟩
    exact h.pending.of_same rfl rfl rfl
  | persistError | appendError | storeError | saveError | compactError | noSnapshotStore => cases hf
  | wait | follow | preVote | preVoteAck | voteAck | lead | send | newTerm | campaign | vote
  | read | readAck | readReady => exact h.of_same rfl rfl rfl rfl rfl

/-! ## Recovery -/

theorem restoreEntry_pending {commit index : Nat} {r r' : Restored}
    (h : restoreEntry commit index e r = some r') :
    r'.pending = if e.isConfig = true ∧ commit < index then index else r.pending := by
  unfold restoreEntry at h
  unfold Entry.isConfig
  cases hk : e.kind <;> simp only [hk] at h ⊢ <;> repeat' split at h
  all_goals cases h <;> simp <;> omega

omit [StableStore σ] in
/-- The entries before `index` have been checked. -/
theorem Node.IsPending.restoreEntries {index : Nat} {entries : List Entry} {r r' : Restored}
    {n₁ n₁' : Node σ} (hres : restoreEntries n.commit index entries r n₁ = (some r', n₁'))
    (hat : ∀ i e, entries[i]? = some e → n.entryAt? (index + i) = some e)
    (h : n.IsPending index r.pending) : n.IsPending (index + entries.length) r'.pending := by
  induction entries generalizing index r n₁ with
  | nil =>
    cases hres
    exact h
  | cons e entries ih =>
    unfold Raft.restoreEntries at hres
    cases hr : restoreEntry n.commit index e r with
    | none => rw [hr] at hres; cases hres
    | some r₁ =>
      rw [hr] at hres
      have he : n.entryAt? index = some e := hat 0 e rfl
      have hnext : n.IsPending (index + 1) r₁.pending := by
        rw [restoreEntry_pending hr]
        split
        · rename_i hc
          exact ⟨.inr ⟨hc.2, e, he, hc.1⟩, fun k e' _ hlt hhi => absurd hlt (by omega)⟩
        · rename_i hc
          refine ⟨h.config, fun k e' hk hlt hhi he' => ?_⟩
          rcases Nat.lt_or_ge k index with hlt' | hge
          · exact h.last k e' hk hlt hlt' he'
          · obtain rfl : k = index := by omega
            rw [he] at he'
            cases he'
            exact eq_false_of_ne_true fun hcfg => hc ⟨hcfg, hk⟩
      rw [List.length_cons, show index + (entries.length + 1) = index + 1 + entries.length by omega]
      refine ih hres (fun i e' hi => ?_) hnext
      rw [show index + 1 + i = index + (i + 1) by omega]
      exact hat (i + 1) e' hi

omit [StableStore σ] in
theorem Exact.checkRecovered (hf : n.checkRecovered.faulted = false) (hlog : n.log ≠ [])
    (hb : n.baseIndex ≤ n.commit) (ha : n.applied ≤ n.commit) : Exact n.checkRecovered := by
  obtain ⟨hcl, r, n', hres, heq⟩ := Node.checkRecovered_running hf
  have hv := Frame.restoreEntries n.commit (n.baseIndex + 1) n.log.tail ⟨n.votersOld, n.votersNew, 0⟩ n
  rw [hres] at hv
  have hpos := List.length_pos_of_ne_nil hlog
  have hstart : n.IsPending (n.baseIndex + 1) 0 :=
    ⟨.inl rfl, fun k e hk _ hhi => absurd hk (by omega)⟩
  have hpending := hstart.restoreEntries hres fun i e he => by
    rw [List.getElem?_tail] at he
    rw [entryAt?_eq, entryOf, if_pos (by omega), ← he]
    congr 1
    omega
  have hlast : n.baseIndex + 1 + n.log.tail.length = n'.lastIndex + 1 := by
    rw [hv.lastIndex, Node.lastIndex, List.length_tail]
    omega
  rw [hlast] at hpending
  rw [heq]
  refine ⟨by rw [← hv.baseIndex, ← hv.commit] at hb; exact hb, ?_, ?_, ?_⟩
  · rw [← hv.commit, ← hv.applied] at ha
    exact ha
  · rw [← hv.commit, ← hv.lastIndex] at hcl
    exact hcl
  · exact hpending.of_same hv.log hv.baseIndex hv.commit

omit [StableStore σ] in
theorem Exact.recover {id timeout : Nat} {peers : List Nat} {store : σ} {d : Recovery}
    (h : Raft.recover id peers timeout store d = .ok n) (hf : n.faulted = false) : Exact n := by
  obtain ⟨n₀, hn₀, h⟩ := recover_cases h
  obtain ⟨-, -, heq⟩ := newNodeWithStore_ok hn₀
  rcases h with rfl | rfl | rfl
  · refine .checkRecovered hf (List.cons_ne_nil _ _) ?_ ?_
    · show n₀.baseIndex ≤ _
      rw [heq]
      exact Nat.zero_le _
    · show n₀.applied ≤ _
      rw [heq]
      exact Nat.zero_le _
  · cases hf
  · have hbase := (Frame.ensurePeers (n₀.atSnapshot d)
      (d.snapshot.oldVoters ||| d.snapshot.newVoters)).baseIndex
    generalize (n₀.atSnapshot d).ensurePeers _ = m at hbase hf ⊢
    refine .checkRecovered hf (List.cons_ne_nil _ _) ?_ (Nat.le_max_right _ _)
    show m.baseIndex ≤ _
    rw [hbase]
    exact Nat.le_max_right _ _

/-! ## Runs -/

theorem Exact.call {u : Unit} (h : Exact n) (hs : Sane n) (hk : n.KeepsPending op)
    (hx : op.run n = .ok u n') (hf : n'.faulted = false) : Exact n' := by
  refine (op.keepsChanges (I := fun n₁ => n₁.faulted = false → Exact n₁) hs (fun _ => h) hx ?_).2 hf
  intro n₁ n₂ hs₁ h₁ hc hf₂
  exact h.change hs.log hk (h₁ (hc.running hf₂)) hs₁ hc hf₂

/-- The event keeps the pending configuration of a running node exact. -/
def Event.KeepsPending : Event → Proc σ → Prop
  | .call op, .up n => n.faulted = false → n.KeepsPending op
  | _, _ => True

instance (n : Node σ) (m : Message) : Decidable (n.AppendsAbove m) := by
  unfold Node.AppendsAbove
  infer_instance

instance (n : Node σ) (m : Message) : Decidable (n.InstallsBelow m) := by
  unfold Node.InstallsBelow
  infer_instance

instance (n : Node σ) : DecidablePred n.KeepsPending
  | .proposeJoint voters => inferInstanceAs (Decidable (n.state = .leader → n.votersNew = 0 →
      n.pendingConfig = 0 →
      ((voterMask voters).toOption.join.any fun mask => Node.quorumOf (n.votersOld, mask) (bit n.id)) =
        false))
  | .proposeFinal => inferInstanceAs (Decidable (n.state = .leader → n.votersNew ≠ 0 →
      n.pendingConfig = 0 → Node.quorumOf (n.votersOld, n.votersNew) (bit n.id) = false))
  | .step m => inferInstanceAs (Decidable (n.AppendsAbove m ∧ n.InstallsBelow m))
  | .tick | .propose _ | .proposeRequest .. | .transferLeadership _ | .startReadIndex _ | .applyEntries
  | .compact .. => .isTrue trivial

instance (e : Event) (p : Proc σ) : Decidable (e.KeepsPending p) :=
  match e, p with
  | .call op, .up n => inferInstanceAs (Decidable (n.faulted = false → n.KeepsPending op))
  | .call _, .down _ | .drain, _ | .crash, _ | .restart, _ => .isTrue trivial

section

variable {σ : Type} [DurableStore σ] [LawfulStore σ]

theorem Setup.keepsExact (S : Setup σ) :
    S.Keeps (fun _ e p => e.KeepsPending p) (fun _ n => n.faulted = false → Exact n) fun _ => True where
  new h _ := by
    obtain ⟨-, -, heq⟩ := newNodeWithStore_ok h
    rw [heq]
    exact .reset rfl rfl rfl (Nat.le_refl _) rfl
  recovered h hf := .recover h hf
  call {id op n n'} hs h ha _ hx hf := by
    have hrun := op.running hs hx hf
    exact (h hrun).call hs (ha hrun) hx hf
  drain h := ⟨fun hf => (h hf).of_same rfl rfl rfl rfl rfl, fun _ _ => trivial⟩

/-- In every run, the pending configuration of a node is the last configuration in its log above its
commit index, and 0 exactly when there is none. -/
theorem pending_is_last_config (S : Setup σ) {c : Cluster σ}
    (hr : Net.Runs S.act (fun _ e p => e.KeepsPending p) S.start c) {id : Nat} {n : Node σ}
    (hn : nodeAt c id = some n) (hf : n.faulted = false) :
    (n.pendingConfig = 0 ↔ ∀ k e, n.commit < k → n.entryAt? k = some e → e.isConfig = false) ∧
    (n.pendingConfig ≠ 0 → n.commit < n.pendingConfig ∧
      (∃ e, n.entryAt? n.pendingConfig = some e ∧ e.isConfig = true) ∧
      ∀ k e, n.pendingConfig < k → n.entryAt? k = some e → e.isConfig = false) := by
  obtain ⟨-, h⟩ := (S.keepsExact.run hr).1 id n hn
  have hp := (h hf).pending
  have hlast : ∀ k e, n.commit < k → n.pendingConfig < k → n.entryAt? k = some e → e.isConfig = false :=
    fun k e hk hlt he => hp.last k e hk hlt (Nat.lt_succ_of_le (Node.entryAt?_range he).2) he
  refine ⟨⟨fun hz k e hk he => hlast k e hk (by omega) he, fun hnone => ?_⟩, fun hz => ?_⟩
  · refine hp.config.resolve_right ?_
    rintro ⟨hc, e, he, hcfg⟩
    cases (hnone _ e hc he).symm.trans hcfg
  · obtain ⟨hc, he⟩ := hp.config.resolve_left hz
    exact ⟨hc, he, fun k e hk => hlast k e (hc.trans hk) hk⟩

end

/-- All nodes append a joint configuration. Nodes 1 and 2 commit it, and node 1 compacts it and
sends the snapshot to node 3, whose answer it has not received. -/
def jointCompacted : List (Move Disk) :=
  elected ++ Move.deliverAll [7, 14, 15, 16] ++ Move.calls 1 (.proposeJoint [1, 2]) ++
  Move.deliverAll [18, 17, 20] ++ Move.calls 1 .applyEntries ++ Move.calls 1 (.compact 2 []) ++
  [Move.call 1 .tick, Move.call 1 .tick] ++ Move.calls 1 .tick

theorem pending_is_last_config_joint : ∃ c n,
    Net.Runs trio.act (fun _ e p => e.KeepsPending p) trio.start c ∧ nodeAt c 3 = some n ∧
      n.faulted = false ∧ n.commit = 1 ∧ n.pendingConfig = 2 ∧
      ∃ e, n.entryAt? n.pendingConfig = some e ∧ e.isConfig = true := by
  have h : (trio.start.play trio.act (fun _ e p => e.KeepsPending p) jointCompacted).any (fun c =>
      (nodeAt c 3).any fun n => decide (n.faulted = false ∧ n.commit = 1 ∧ n.pendingConfig = 2)) =
        true := by
    decide +kernel
  simp only [Option.any_eq_true, decide_eq_true_eq] at h
  obtain ⟨c, hc, n, hn, hf, hcommit, hp⟩ := h
  have hpending := pending_is_last_config trio (.of_play hc) hn hf
  exact ⟨c, n, .of_play hc, hn, hf, hcommit, hp, (hpending.2 (by rw [hp]; decide)).2.1⟩

/-- A cluster of one node. -/
def single : Setup Disk where
  ids := [1]
  peers _ := []
  timeout _ := 1
  store _ := {}
  voters := 1
  agree id hid := by
    rw [List.mem_singleton.mp hid]
    rfl
  empty _ _ := ⟨rfl, trivial⟩

/-- A single voter that proposes a configuration commits it, and then has it pending; and so has
node 3 after it has installed the snapshot. -/
theorem committed_config_stays_pending :
    (∃ c n, Net.Runs single.act (fun _ _ _ => True) single.start c ∧ nodeAt c 1 = some n ∧
      n.faulted = false ∧ n.pendingConfig ≠ 0 ∧ n.pendingConfig ≤ n.commit) ∧
    ∃ c n, Net.Runs trio.act (fun _ _ _ => True) trio.start c ∧ nodeAt c 3 = some n ∧
      n.faulted = false ∧ n.pendingConfig ≠ 0 ∧ n.pendingConfig ≤ n.commit := by
  constructor
  · have h : (single.start.play single.act (fun _ _ _ => True)
        [Move.call 1 .tick, Move.call 1 (.proposeJoint [1])]).any (fun c => (nodeAt c 1).any fun n =>
        decide (n.faulted = false ∧ n.pendingConfig ≠ 0 ∧ n.pendingConfig ≤ n.commit)) = true := by
      decide +kernel
    simp only [Option.any_eq_true, decide_eq_true_eq] at h
    obtain ⟨c, hc, n, hn, h⟩ := h
    exact ⟨c, n, .of_play hc, hn, h⟩
  · have h : (trio.start.play trio.act (fun _ _ _ => True) (jointCompacted ++ [Move.deliver 24])).any
        (fun c => (nodeAt c 3).any fun n =>
        decide (n.faulted = false ∧ n.pendingConfig ≠ 0 ∧ n.pendingConfig ≤ n.commit)) = true := by
      decide +kernel
    simp only [Option.any_eq_true, decide_eq_true_eq] at h
    obtain ⟨c, hc, n, hn, h⟩ := h
    exact ⟨c, n, .of_play hc, hn, h⟩

end Promtact.Raft
