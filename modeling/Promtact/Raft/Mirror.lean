import Promtact.Raft.Effects.Basic

/-!
# A node and what it has made durable

`Mirrors n d`: the term, the vote, the base and the log of the node are those of `d`, which is what
its store would give back. Every effect that changes the node changes `d` in the same way: a hard
state is set, an entry is appended (`Recovery.append`), or a snapshot is installed
(`Recovery.install`). The node cuts its log and releases the log below a snapshot in memory, the
store does so in its records; that they take the same branch is `Mirrors.append` and
`Mirrors.save`.
-/

namespace Promtact.Raft

open Refine

variable {σ : Type} {op : Op} {n₀ n n' : Node σ} {d : Recovery}

/-- The node in memory and what its store would give back are the same. -/
structure Mirrors (n : Node σ) (d : Recovery) : Prop where
  term : d.hard.term = n.term
  votedFor : d.hard.votedFor = n.votedFor
  base : d.base = n.baseIndex
  baseTerm : d.snapshot.lastTerm = n.baseTerm
  head : n.log.head?.map (·.term) = some n.baseTerm
  suffix : n.log.tail = d.suffix

/-- A later hard state is of the same term with the same vote, or of a later term. -/
def HardState.KeptBy (h h' : HardState) : Prop :=
  h.term ≤ h'.term ∧ (h.term = h'.term → h.votedFor ≠ 0 → h'.votedFor = h.votedFor)

theorem HardState.KeptBy.trans {h h' h'' : HardState} (h₁ : h.KeptBy h') (h₂ : h'.KeptBy h'') :
    h.KeptBy h'' := by
  refine ⟨h₁.1.trans h₂.1, fun ht hv => ?_⟩
  have heq : h.term = h'.term := Nat.le_antisymm h₁.1 (h₂.1.trans (Nat.le_of_eq ht.symm))
  have hkept := h₁.2 heq hv
  rw [← hkept]
  exact h₂.2 (heq ▸ ht) (hkept ▸ hv)

namespace Mirrors

theorem log_eq (h : Mirrors n d) : ∃ e, e.term = n.baseTerm ∧ n.log = e :: d.suffix := by
  obtain ⟨e, he, hterm⟩ := Option.map_eq_some_iff.mp h.head
  obtain ⟨tail, hlog⟩ := List.head?_eq_some_iff.mp he
  refine ⟨e, hterm, ?_⟩
  rw [← h.suffix, hlog]
  rfl

theorem lastIndex (h : Mirrors n d) : d.lastIndex = n.lastIndex := by
  obtain ⟨e, -, hlog⟩ := h.log_eq
  rw [Recovery.lastIndex, Node.lastIndex, hlog, h.base, List.length_cons]
  omega

theorem termAt (h : Mirrors n d) (k : Nat) : d.termAt k = n.termAt k := by
  obtain ⟨e, he, hlog⟩ := h.log_eq
  have hlast := h.lastIndex
  rw [Recovery.lastIndex, h.base] at hlast
  rw [Recovery.termAt, Node.termAt, Node.entryAt?, Node.offset, h.base]
  by_cases hlt : k < n.baseIndex
  · rw [if_pos hlt, if_pos (.inl hlt)]
    rfl
  rw [if_neg hlt]
  by_cases heq : k = n.baseIndex
  · rw [if_pos heq, if_neg (by omega), Option.bind_some, heq, Nat.sub_self, hlog, h.baseTerm, ← he]
    rfl
  rw [if_neg heq]
  by_cases hgt : n.lastIndex < k
  · rw [if_pos (.inr hgt), List.getElem?_eq_none (by omega)]
    rfl
  · obtain ⟨j, hj⟩ : ∃ j, k - n.baseIndex = j + 1 := ⟨k - n.baseIndex - 1, by omega⟩
    rw [if_neg (by omega), Option.bind_some, hlog, hj, List.getElem?_cons_succ]
    rfl

theorem frame (h : Mirrors n d) (ht : n'.term = n.term) (hv : n'.votedFor = n.votedFor)
    (hb : n'.baseIndex = n.baseIndex) (hbt : n'.baseTerm = n.baseTerm) (hl : n'.log = n.log) :
    Mirrors n' d := by
  refine ⟨h.term.trans ht.symm, h.votedFor.trans hv.symm, h.base.trans hb.symm,
    h.baseTerm.trans hbt.symm, ?_, ?_⟩
  · rw [hl, hbt]
    exact h.head
  · rw [hl]
    exact h.suffix

theorem of_core (h : Mirrors n d) (hc : n'.core = n.core) : Mirrors n' d :=
  h.frame (congrArg Core.term hc) (congrArg Core.votedFor hc) (congrArg Core.baseIndex hc)
    (congrArg Core.baseTerm hc) (congrArg Core.log hc)

/-- The hard states that a node saves do not go back. -/
theorem keptBy (h : Mirrors n d) {hard : HardState} (hp : Persist op n hard n') :
    d.hard.KeptBy hard := by
  have ht := h.term
  have hv := h.votedFor
  cases hp with
  | newTerm _ hlt => exact ⟨by simp only; omega, fun heq => by simp only at heq; omega⟩
  | campaign bit => exact ⟨by simp only; omega, fun heq => by simp only at heq; omega⟩
  | vote _ hv' _ =>
    refine ⟨Nat.le_of_eq ht, fun _ hne => ?_⟩
    exact (hv'.resolve_left fun h0 => hne (hv.trans h0)).symm.trans hv.symm
  | commit => exact ⟨Nat.le_of_eq ht, fun _ _ => hv.symm⟩

theorem persist (h : Mirrors n d) {hard : HardState} (hp : Persist op n hard n') (s : σ) :
    Mirrors { n' with store := s } { d with hard } := by
  cases hp <;> exact ⟨rfl, rfl, h.base, h.baseTerm, h.head, h.suffix⟩

theorem append (h : Mirrors n d) {k : Nat} {e : Entry} (hk : n.baseIndex < k) (s : σ) :
    Mirrors { n with store := s, log := n.extend k e } (d.append k e) := by
  obtain ⟨e₀, he₀, hlog⟩ := h.log_eq
  have hextend : n.extend k e = e₀ :: (d.append k e).suffix := by
    rw [Node.extend, hlog, show k - n.baseIndex = k - n.baseIndex - 1 + 1 by omega,
      List.take_succ_cons, List.cons_append, Recovery.append, h.base]
  refine ⟨h.term, h.votedFor, h.base, h.baseTerm, ?_, ?_⟩
  · show (n.extend k e).head?.map _ = _
    rw [hextend, List.head?_cons, Option.map_some, he₀]
  · show (n.extend k e).tail = _
    rw [hextend, List.tail_cons]

/-- The log above an index that it has. -/
theorem drop_head (h : Mirrors n d) {k t : Nat} (ht : n.termAt k = some t) :
    (n.log.drop (k - n.baseIndex)).head?.map (·.term) = some t ∧
      (n.log.drop (k - n.baseIndex)).tail = d.suffix.drop (k - d.base) := by
  obtain ⟨hb, hl⟩ := Node.termAt_range ht
  constructor
  · rw [Node.termAt, Node.entryAt?, Node.offset, if_neg (by omega), Option.bind_some] at ht
    rw [List.head?_drop]
    exact ht
  · rw [List.tail_drop, h.base, ← h.suffix, ← List.drop_one, List.drop_drop, Nat.add_comm]

theorem save (h : Mirrors n d) {snapshot : Snapshot} (hp : Save op n₀ n snapshot n') (s : σ) :
    Mirrors { n' with store := s } (d.install snapshot) := by
  cases hp with
  | @own index term state _ _ hb ha ht =>
    obtain ⟨hhead, htail⟩ := h.drop_head ht
    have hsuffix : (d.install (n.ownSnapshot index term state)).suffix =
        d.suffix.drop (index - d.base) := if_pos ((h.termAt index).trans ht)
    exact ⟨h.term, h.votedFor, rfl, rfl, hhead, htail.trans hsuffix.symm⟩
  | @install m =>
    refine ⟨h.term, h.votedFor, rfl, rfl, ?_, ?_⟩
    · show (n.logAbove m.toSnapshot).head?.map _ = some m.toSnapshot.lastTerm
      unfold Node.logAbove
      split
      · exact (h.drop_head ‹_›).1
      · rfl
    · show (n.logAbove m.toSnapshot).tail = (d.install m.toSnapshot).suffix
      rw [Recovery.install, h.termAt]
      unfold Node.logAbove
      split
      · exact (h.drop_head ‹_›).2
      · rfl

end Mirrors

theorem Save.above_base {snapshot : Snapshot} (hp : Save op n₀ n snapshot n') :
    n.baseIndex < snapshot.lastIndex := by
  cases hp <;> assumption

/-! ## A recovered node -/

theorem Frame.restoreEntries (commit index : Nat) (entries : List Entry) (r : Restored)
    (n : Node σ) : Frame n (restoreEntries commit index entries r n).2 := by
  induction entries generalizing index r n with
  | nil => exact .refl n
  | cons e entries ih =>
    unfold Raft.restoreEntries
    split
    · exact .refl n
    · exact (Frame.ensurePeers n _).trans (ih _ _ _)

/-- The checks add peers, set the voters, and may stop the node. -/
theorem Frame.checkRecovered (n : Node σ) :
    ∃ n', Frame n n' ∧ (n.checkRecovered = n' ∨ n.checkRecovered = n'.fail none) := by
  unfold Node.checkRecovered Node.restoreConfigurationState
  split
  · exact ⟨n, .refl n, .inr rfl⟩
  have hv := Frame.restoreEntries n.commit (n.baseIndex + 1) n.log.tail
    ⟨n.votersOld, n.votersNew, 0⟩ n
  cases hres : Raft.restoreEntries n.commit (n.baseIndex + 1) n.log.tail
    ⟨n.votersOld, n.votersNew, 0⟩ n with
  | mk result n' =>
    rw [hres] at hv
    cases result with
    | none => exact ⟨n', hv, .inr rfl⟩
    | some r =>
      refine ⟨_, ?_, .inl rfl⟩
      exact hv.trans ⟨rfl, .inl rfl, .inl rfl⟩

/-- A recovered node has nothing to send, and if it is not stopped it mirrors what it was recovered
from. -/
structure Recovered (n : Node σ) (id : Nat) (store : σ) (d : Recovery) : Prop where
  id : n.id = id ∧ 0 < id
  store : n.store = store
  outbound : n.outbound = []
  sane : Sane n
  mirrors : n.faulted = false → Mirrors n d
  commit : n.faulted = false → n.commit = max d.hard.commit d.base
  applied : n.faulted = false → n.applied = d.base

theorem Recovered.checkRecovered {id : Nat} {store : σ} (h : Recovered n id store d)
    (hst : n.state = .follower) : Recovered n.checkRecovered id store d := by
  obtain ⟨n', hv, heq⟩ := Frame.checkRecovered n
  have hid : n'.id = id ∧ 0 < id := ⟨hv.id.trans h.id.1, h.id.2⟩
  have hlog : n'.log ≠ [] := by rw [hv.log]; exact h.sane.log
  rcases heq with heq | heq <;> rw [heq]
  · refine ⟨hid, hv.store.trans h.store, hv.outbound.trans h.outbound,
      ⟨hlog, fun _ => ?_⟩, fun hf => ?_, fun hf => ?_, fun hf => ?_⟩
    · exact hv.state.elim (·.trans hst) fun h => h
    · exact (h.mirrors (hv.faulted ▸ hf)).of_core hv.core
    · exact hv.commit.trans (h.commit (hv.faulted ▸ hf))
    · exact hv.applied.trans (h.applied (hv.faulted ▸ hf))
  · exact ⟨hid, hv.store.trans h.store, rfl, ⟨hlog, fun _ => rfl⟩, nofun, nofun, nofun⟩

theorem recover_ok {id timeout : Nat} {peers : List Nat} {store : σ}
    (hd : d.snapshot.lastIndex = 0 → d.snapshot.lastTerm = 0)
    (h : recover id peers timeout store d = .ok n) : Recovered n id store d := by
  unfold recover at h
  split at h
  · obtain ⟨n₀, hn₀, h⟩ := check_ok h
    obtain ⟨hid, -, heq⟩ := newNodeWithStore_ok hn₀
    generalize n₀.votersOld = voters at heq
    subst heq
    have hn := Except.ok.inj h
    split at hn
    · subst hn
      exact ⟨⟨rfl, hid⟩, rfl, rfl, ⟨List.cons_ne_nil _ _, fun _ => rfl⟩, nofun, nofun, nofun⟩
    · have hv := Frame.ensurePeers
        { id := id, peers := peers, term := d.hard.term, votedFor := d.hard.votedFor
          baseIndex := d.snapshot.lastIndex, baseTerm := d.snapshot.lastTerm, timeout := timeout
          store := store, snapshot := d.snapshot, votersOld := d.snapshot.oldVoters
          votersNew := d.snapshot.newVoters : Node σ } (d.snapshot.oldVoters ||| d.snapshot.newVoters)
      generalize hm : Node.ensurePeers _ _ = m at hn hv
      subst hn
      have hst : m.state = .follower := hv.state.elim (fun h => h) fun h => h
      have hbt : m.baseTerm = d.snapshot.lastTerm := congrArg Core.baseTerm hv.core
      refine Recovered.checkRecovered ⟨⟨hv.id, hid⟩, hv.store, hv.outbound,
        ⟨List.cons_ne_nil _ _, fun _ => hst⟩, fun _ => ?_, fun _ => rfl, fun _ => rfl⟩ hst
      exact ⟨hv.term.symm, hv.votedFor.symm, hv.baseIndex.symm, hbt.symm, congrArg some hbt.symm, rfl⟩
  · rename_i hz
    obtain ⟨n₀, hn₀, h⟩ := check_ok h
    obtain ⟨hid, -, heq⟩ := newNodeWithStore_ok hn₀
    rw [heq] at h
    cases h
    have h0 := hd (not_not.mp hz)
    have hb : d.base = 0 := not_not.mp hz
    refine Recovered.checkRecovered ⟨⟨rfl, hid⟩, rfl, rfl, ⟨?_, fun _ => rfl⟩, fun _ => ?_, fun _ => ?_,
      fun _ => hb.symm⟩ rfl
    · exact List.cons_ne_nil _ _
    · exact ⟨rfl, rfl, hb, h0, rfl, rfl⟩
    · show d.hard.commit = _
      rw [hb, Nat.max_zero]

end Promtact.Raft
