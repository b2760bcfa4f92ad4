import Promtact.Raft.Effects.Methods
import Promtact.Raft.Mirror

/-!
# A node whose store refuses nothing

A node stops when its store refuses a call. `AcceptingStore` is a store that refuses nothing in
order: hard states that do not go back, entries that leave no gap, snapshots above the last one.

`Locked n d`: the store holds `d`, and so does the node. Every effect of a method keeps it
(`Locked.effect`), so the method meets no error of the store. The method must not cut the log below
the commit index (`Node.KeepsCommitted`).
-/

namespace Promtact.Raft

/-- A method does not cut the log below the commit index. Only an accepted append that conflicts
with the log, and a snapshot that does not continue it, cut the log. -/
def Node.KeepsCommitted {σ : Type} (n : Node σ) : Op → Prop
  | .step m =>
    (m.type = .append → m.hasEntry = true → n.term ≤ m.term → n.termAt m.logIndex = some m.logTerm →
      ∀ t, n.termAt (m.logIndex + 1) = some t → t ≠ m.entry.term → n.commit ≤ m.logIndex + 1) ∧
    (m.type = .installSnapshot → n.term ≤ m.term → m.snapshotOld ≠ 0 →
      n.baseIndex < m.snapshotIndex → n.termAt m.snapshotIndex ≠ some m.snapshotTerm →
      n.commit ≤ m.snapshotIndex)
  | _ => True

/-- A store that refuses nothing in order. -/
class AcceptingStore (σ : Type) [DurableStore σ] [LawfulStore σ] where
  /-- The indexes below can be kept. -/
  limit : Nat
  isSnapshotStore : StableStore.isSnapshotStore σ = true
  saveHardState : ∀ {s : σ} {d h}, LawfulStore.Holds s d → LawfulStore.Sound s →
    d.hard.KeptBy h → d.hard.commit ≤ h.commit →
    ∃ s', StableStore.saveHardState h s = .ok () s' ∧ LawfulStore.Sound s'
  append : ∀ {s : σ} {d k} (e : Entry), LawfulStore.Holds s d → LawfulStore.Clean s →
    LawfulStore.Sound s → d.base < k → k ≤ d.lastIndex + 1 → d.lastIndex + 1 < limit →
    ∃ s', StableStore.append k e s = .ok () s' ∧ LawfulStore.Sound s'
  saveSnapshot : ∀ {s : σ} {d snap}, LawfulStore.Holds s d → LawfulStore.Clean s →
    LawfulStore.Sound s → d.base < snap.lastIndex →
    ∃ s₁ s₂, StableStore.saveSnapshot snap s = .ok () s₁ ∧
      StableStore.compactLog snap.lastIndex s₁ = .ok () s₂ ∧ LawfulStore.Sound s₂
  reopen : ∀ {s s' : σ} {d d'}, LawfulStore.Holds s d → LawfulStore.Clean s → LawfulStore.Sound s →
    DurableStore.reopen s = .ok (s', d') → LawfulStore.Sound s'
  zero : ∀ {s : σ} {d}, LawfulStore.Holds s d → LawfulStore.Clean s → LawfulStore.Sound s →
    d.snapshot.lastIndex = 0 → d.snapshot.lastTerm = 0

variable {σ : Type} [DurableStore σ] [LawfulStore σ]

/-- The store holds `d`, and so does the node. -/
structure Locked (n : Node σ) (d : Recovery) : Prop where
  running : n.faulted = false
  sound : LawfulStore.Sound n.store
  holds : LawfulStore.Holds n.store d
  clean : LawfulStore.Clean n.store
  mirrors : Mirrors n d
  commit : max d.hard.commit d.base = n.commit
  commit_le : n.commit ≤ n.lastIndex
  applied_le : n.applied ≤ n.commit

namespace Locked

variable {n₀ n n' : Node σ} {d : Recovery} {op : Op}

/-- Nothing changes but what is in memory only. -/
theorem frame (h : Locked n d) (hm : Mirrors n' d) (hf : n'.faulted = n.faulted)
    (hs : n'.store = n.store) (hl : n'.lastIndex = n.lastIndex) (hc : n'.commit = n.commit)
    (ha : n'.applied ≤ n'.commit) : Locked n' d where
  running := hf.trans h.running
  sound := hs ▸ h.sound
  holds := hs ▸ h.holds
  clean := hs ▸ h.clean
  mirrors := hm
  commit := h.commit.trans hc.symm
  commit_le := by rw [hc, hl]; exact h.commit_le
  applied_le := ha

theorem base_le (h : Locked n d) : d.base ≤ n.commit := by
  have := h.commit
  omega

/-- The commit index that is saved does not go back. -/
theorem commit_kept (h : Locked n d) {hard : HardState} (hp : Persist op n hard n') :
    d.hard.commit ≤ hard.commit := by
  have hc := h.commit
  have hl := h.commit_le
  cases hp with
  | newTerm | campaign | vote =>
    show d.hard.commit ≤ n.commit
    omega
  | @commit k hk hlt =>
    show d.hard.commit ≤ k
    omega

variable [AcceptingStore σ]

/-- The store accepts a hard state. -/
theorem persists (h : Locked n d) {hard : HardState} (hp : Persist op n hard n') :
    ∃ s, StableStore.saveHardState hard n.store = .ok () s ∧ LawfulStore.Sound s :=
  AcceptingStore.saveHardState h.holds h.sound (h.mirrors.keptBy hp) (h.commit_kept hp)

theorem persist (h : Locked n d) {hard : HardState} {s : σ} (hp : Persist op n hard n')
    (hs : StableStore.saveHardState hard n.store = .ok () s) :
    Locked { n' with store := s } { d with hard } := by
  have hb := h.base_le
  have hl := h.commit_le
  have ha := h.applied_le
  obtain ⟨hholds, hclean⟩ := LawfulStore.saveHardState_ok h.holds hs
  have hsound : LawfulStore.Sound s := by
    obtain ⟨s', hs', hsound⟩ := h.persists hp
    rw [hs] at hs'
    cases hs'
    exact hsound
  have hm := h.mirrors.persist hp s
  cases hp with
  | newTerm | campaign | vote =>
    exact ⟨h.running, hsound, hholds, hclean h.clean, hm, Nat.max_eq_left hb, hl, ha⟩
  | @commit k hk hc =>
    have hck : n.commit ≤ k := by omega
    exact ⟨h.running, hsound, hholds, hclean h.clean, hm, Nat.max_eq_left (hb.trans hck), hk,
      ha.trans hck⟩

/-- The store accepts an entry. -/
theorem appends (h : Locked n d) (hlog : n.log ≠ []) {k : Nat} {e : Entry}
    (he : Extend op n₀ n k e) (hr : n₀.lastIndex + 1 < AcceptingStore.limit σ) :
    ∃ s, StableStore.append k e n.store = .ok () s ∧ LawfulStore.Sound s := by
  have hk := he.range hlog
  have hlast : n.lastIndex = n₀.lastIndex := by
    cases he with
    | last hn => exact hn.lastIndex
    | conflict hn => exact hn.lastIndex
  rw [← h.mirrors.base, ← h.mirrors.lastIndex] at hk
  rw [← hlast, ← h.mirrors.lastIndex] at hr
  exact AcceptingStore.append e h.holds h.clean h.sound hk.1 hk.2 hr

theorem append (h : Locked n d) (hlog : n.log ≠ []) {k : Nat} {e : Entry} {s : σ}
    (he : Extend op n₀ n k e) (hk : n₀.KeepsCommitted op) (hr : n₀.lastIndex + 1 < AcceptingStore.limit σ)
    (hs : StableStore.append k e n.store = .ok () s) :
    Locked { n with store := s, log := n.extend k e } (d.append k e) := by
  obtain ⟨hb, hle⟩ := he.range hlog
  have hk' := he.range hlog
  rw [← h.mirrors.base, ← h.mirrors.lastIndex] at hk'
  obtain ⟨hholds, hclean⟩ := LawfulStore.append_ok h.holds h.clean hk'.1 hk'.2 hs
  have hsound : LawfulStore.Sound s := by
    obtain ⟨s', hs', hsound⟩ := h.appends hlog he hr
    rw [hs] at hs'
    cases hs'
    exact hsound
  have hm := h.mirrors.append (e := e) hb s
  have hlast : ({ n with store := s, log := n.extend k e } : Node σ).lastIndex = k := by
    rw [← hm.lastIndex, Recovery.lastIndex, Recovery.append, List.length_append, List.length_take,
      List.length_singleton]
    have := h.mirrors.lastIndex
    have := h.mirrors.base
    unfold Recovery.lastIndex Recovery.base at *
    dsimp only
    omega
  refine ⟨h.running, hsound, hholds, hclean, hm, h.commit, ?_, h.applied_le⟩
  rw [hlast]
  have hcl := h.commit_le
  cases he with
  | last => exact Nat.le_succ_of_le hcl
  | conflict hn hop htype hentry hprev hterm hat hne =>
    rw [hop] at hk
    rw [hn.commit]
    exact hk.1 htype hentry (hn.term.trans (Nat.not_lt.mp hterm)) (hn.termAt _ ▸ hprev) _
      (hn.termAt _ ▸ hat) hne

/-- The store accepts a snapshot. -/
theorem saves (h : Locked n d) {snapshot : Snapshot} (hp : Save op n₀ n snapshot n') :
    ∃ s₁ s₂, StableStore.saveSnapshot snapshot n.store = .ok () s₁ ∧
      StableStore.compactLog snapshot.lastIndex s₁ = .ok () s₂ ∧ LawfulStore.Sound s₂ :=
  AcceptingStore.saveSnapshot h.holds h.clean h.sound (h.mirrors.base ▸ hp.above_base)

omit [AcceptingStore σ] in
/-- Snapshots do not change the last index, unless the log goes. -/
theorem save_commit (h : Locked n d) {snapshot : Snapshot} (hp : Save op n₀ n snapshot n')
    (hk : n₀.KeepsCommitted op) : n'.faulted = n.faulted ∧ n'.commit = max n.commit snapshot.lastIndex ∧
      n'.commit ≤ n'.lastIndex ∧ n'.applied ≤ n'.commit := by
  have hcl := h.commit_le
  have ha := h.applied_le
  have hlast : ∀ k t, n.termAt k = some t →
      k + (n.log.drop (k - n.baseIndex)).length - 1 = n.lastIndex := by
    intro k t ht
    have := Node.termAt_range ht
    rw [List.length_drop, Node.lastIndex]
    unfold Node.lastIndex at this
    omega
  cases hp with
  | @own index term state hn hop hb hle ht =>
    refine ⟨rfl, (Nat.max_eq_left (hle.trans ha)).symm, ?_, ha⟩
    show n.commit ≤ index + (n.log.drop (index - n.baseIndex)).length - 1
    rw [hlast index term ht]
    exact hcl
  | @install m hn hop htype hm hb =>
    refine ⟨rfl, rfl, ?_, max_le_max ha (Nat.le_refl _)⟩
    show max n.commit m.snapshotIndex ≤ m.snapshotIndex + (n.logAbove m.toSnapshot).length - 1
    unfold Node.logAbove
    split
    · rename_i ht
      have := Node.termAt_range ht
      change _ ≤ m.toSnapshot.lastIndex + (n.log.drop (m.toSnapshot.lastIndex - n.baseIndex)).length - 1
      rw [hlast _ _ ht]
      exact max_le hcl this.2
    · rename_i ht
      rw [hop] at hk
      simp only [Node.rejectsSnapshot, Bool.or_eq_false_iff, decide_eq_false_iff_not, beq_eq_false_iff_ne]
        at hm
      have := hk.2 htype (hn.term.trans (Nat.not_lt.mp hm.1.1.1)) hm.1.2 (hn.baseIndex ▸ hb)
        (hn.termAt _ ▸ ht)
      rw [← hn.commit] at this
      simp only [List.length_singleton]
      omega

theorem save (h : Locked n d) {snapshot : Snapshot} {s₁ s₂ : σ} (hp : Save op n₀ n snapshot n')
    (hk : n₀.KeepsCommitted op) (hs : StableStore.saveSnapshot snapshot n.store = .ok () s₁)
    (hs' : StableStore.compactLog snapshot.lastIndex s₁ = .ok () s₂) :
    Locked { n' with store := s₂ } (d.install snapshot) := by
  have hb : d.base < snapshot.lastIndex := h.mirrors.base ▸ hp.above_base
  obtain ⟨hf, hcommit, hcl, ha⟩ := h.save_commit hp hk
  have hholds := LawfulStore.saveSnapshot_ok h.holds (.inl ⟨h.clean, hb⟩) hs
  have hholds := LawfulStore.compactLog_ok hholds hs'
  have hclean := LawfulStore.compactLog_clean h.clean hs hs'
  have hsound : LawfulStore.Sound s₂ := by
    obtain ⟨s₁', s₂', h₁, h₂, hsound⟩ := h.saves hp
    rw [hs] at h₁
    cases h₁
    rw [hs'] at h₂
    cases h₂
    exact hsound
  refine ⟨hf.trans h.running, hsound, hholds, hclean, h.mirrors.save hp s₂, ?_, hcl, ha⟩
  show max d.hard.commit snapshot.lastIndex = n'.commit
  rw [hcommit, ← h.commit]
  omega

/-- One effect of a method: the store refuses nothing. -/
theorem effect (h : Locked n d) (hs : Sane n) (hk : n₀.KeepsCommitted op)
    (hr : n₀.lastIndex + 1 < AcceptingStore.limit σ) (he : Effect op n₀ n n') : ∃ d', Locked n' d' := by
  have hcore := h.mirrors
  cases he with
  | volatile hv _ =>
    refine ⟨d, h.frame (h.mirrors.of_core hv.core) hv.faulted hv.store hv.lastIndex hv.commit ?_⟩
    rw [hv.commit]
    exact (Nat.le_of_eq (hv.applied)).trans h.applied_le
  | persist _ hp hst => exact ⟨_, h.persist hp hst⟩
  | persistError hp hst =>
    obtain ⟨s, hs, -⟩ := h.persists hp
    cases hs.symm.trans hst
  | append _ he hst => exact ⟨_, h.append hs.log he hk hr hst⟩
  | appendError he hst =>
    obtain ⟨s, hs, -⟩ := h.appends hs.log he hr
    cases hs.symm.trans hst
  | save hp hst hst' => exact ⟨_, h.save hp hk hst hst'⟩
  | saveError hp hst =>
    obtain ⟨s₁, s₂, h₁, -⟩ := h.saves hp
    cases h₁.symm.trans hst
  | compactError hp hst hst' =>
    obtain ⟨s₁, s₂, h₁, h₂, -⟩ := h.saves hp
    cases h₁.symm.trans hst
    cases h₂.symm.trans hst'
  | noSnapshotStore hp hst => cases AcceptingStore.isSnapshotStore.symm.trans hst
  | apply hop ha => exact ⟨d, h.frame (hcore.frame rfl rfl rfl rfl rfl) rfl rfl rfl rfl ha⟩
  | send | lead | read | readAck | readReady =>
    exact ⟨d, h.frame (hcore.frame rfl rfl rfl rfl rfl) rfl rfl rfl rfl h.applied_le⟩

/-- A method keeps the node and the store together, if it returns. -/
theorem call {u : Unit} (h : Locked n d) (hs : Sane n) (hk : n.KeepsCommitted op)
    (hr : n.lastIndex + 1 < AcceptingStore.limit σ) (hx : op.run n = .ok u n') :
    Sane n' ∧ ∃ d', Locked n' d' := by
  refine op.keeps (I := fun n => ∃ d, Locked n d) hs ⟨d, h⟩ hx ?_
  rintro n₁ n₂ hs ⟨d, hd⟩ he
  exact hd.effect hs hk hr he

omit [AcceptingStore σ] in
theorem drain (h : Locked n d) : Locked { n with outbound := [] } d :=
  h.frame (h.mirrors.frame rfl rfl rfl rfl rfl) rfl rfl rfl rfl h.applied_le

omit [AcceptingStore σ] in
theorem new {id timeout : Nat} {peers : List Nat} {s : σ}
    (hn : newNodeWithStore id peers timeout s = .ok n) (hh : LawfulStore.Holds s {})
    (hc : LawfulStore.Clean s) (hs : LawfulStore.Sound s) : Sane n ∧ Locked n {} := by
  obtain ⟨-, -, hn⟩ := newNodeWithStore_ok hn
  generalize n.votersOld = voters at hn
  subst hn
  have hm : Mirrors ({ id, peers, timeout, votersOld := voters, store := s } : Node σ) {} :=
    ⟨rfl, rfl, rfl, rfl, rfl, rfl⟩
  exact ⟨⟨List.cons_ne_nil _ _, fun _ => rfl⟩, rfl, hs, hh, hc, hm, rfl, Nat.zero_le _, Nat.le_refl _⟩

theorem restart {id timeout : Nat} {peers : List Nat} {s : σ} {d' : Recovery} (h : Locked n d)
    (hs : DurableStore.reopen n.store = .ok (s, d'))
    (hx : recover id peers timeout s d' = .ok n') (hf : n'.faulted = false) :
    Sane n' ∧ Locked n' d := by
  obtain ⟨rfl, hholds, hclean⟩ := LawfulStore.reopen_ok h.holds h.sound hs
  have hsound := AcceptingStore.reopen h.holds h.clean h.sound hs
  have hrec := recover_ok (AcceptingStore.zero hholds hclean hsound) hx
  have hm := hrec.mirrors hf
  have hc := hrec.commit hf
  refine ⟨hrec.sane, hf, hrec.store ▸ hsound, hrec.store ▸ hholds, hrec.store ▸ hclean, hm, hc.symm,
    ?_, ?_⟩
  · rw [hc, h.commit, ← hm.lastIndex, h.mirrors.lastIndex]
    exact h.commit_le
  · rw [hrec.applied hf, hc]
    exact le_max_right _ _

end Locked

end Promtact.Raft
