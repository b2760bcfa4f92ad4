import Promtact.Raft.Locked
import Promtact.Storage.RaftStore

/-!
# A node and its store stay in lockstep

A node on `raftstore`, on a device that does not fail. The store refuses hard states that go back,
entries that leave a gap and snapshots below the last one; each of them would stop the node.

* `Lockstep`: what the store has is what the node has.
* `lockstep_of_reached`: in every run the store refuses nothing and both are in lockstep, unless a
  message cuts the log below the commit index (`Node.KeepsCommitted`).
* `cut_below_commit_stops`: after such a message a node that is the only voter commits its shorter
  log. The store takes this for a hard state that goes back.
-/

namespace Promtact.Storage

open Raft RaftStore

namespace RaftStore

variable {s : Store} {d : Recovery}

/-! ## What the store accepts -/

theorem accepts_hardState (hd : Holds s d) {h : HardState} (hk : d.hard.KeptBy h)
    (hc : d.hard.commit ≤ h.commit) : ∃ s', saveHardState h s = .ok () s' := by
  have hhard : s.wal.hard = d.hard := congrArg Recovery.hard hd.content_eq
  have hreg : s.wal.regresses h = false := by
    rw [RaftWal.State.regresses, hhard, Bool.or_eq_false_iff, Bool.or_eq_false_iff]
    refine ⟨⟨decide_eq_false (Nat.not_lt.mpr hk.1), decide_eq_false (Nat.not_lt.mpr hc)⟩, ?_⟩
    by_contra hbad
    simp only [Bool.not_eq_false, Bool.and_eq_true, beq_iff_eq, bne_iff_ne, ne_eq] at hbad
    obtain ⟨⟨ht, hv⟩, hne⟩ := hbad
    exact hne (hk.2 ht.symm hv)
  rw [saveHardState, onWal, RaftWal.Store.saveHardState, hreg]
  exact ⟨_, rfl⟩

theorem accepts_append (hd : Holds s d) (hc : Clean s) {k : Nat} (e : Entry)
    (hb : d.base < k) (hk : k ≤ d.lastIndex + 1) (hr : d.lastIndex + 1 < RaftWal.resetIndex) :
    ∃ s', append k e s = .ok () s' ∧ s'.wal.inRange = s.wal.inRange := by
  have hcontent := hd.toValid.content_clean hc
  rw [hd.content_eq] at hcontent
  have hbase : d.base = s.wal.base := by rw [hcontent]; exact hc.symm
  have hlen : d.lastIndex + 1 = s.wal.base + s.wal.data.length := by
    have hpos := List.length_pos_of_ne_nil hd.data
    rw [Recovery.lastIndex, hbase, hcontent]
    simp only [List.length_tail]
    omega
  have hmod : (s.wal.base + s.wal.data.length) % 2 ^ 64 = s.wal.base + s.wal.data.length :=
    Nat.mod_eq_of_lt (by unfold RaftWal.resetIndex at hr; omega)
  have hlt : k < RaftWal.resetIndex := by omega
  rw [append, onWal, RaftWal.Store.append, if_neg (by rw [hmod]; omega)]
  exact ⟨_, rfl, by rw [decide_eq_true hlt, Bool.and_true]⟩

/-- A snapshot above the last one is saved, and the log below it released. -/
theorem accepts_snapshot (hd : Holds s d) (hc : Clean s) {snap : Snapshot}
    (hb : d.base < snap.lastIndex) : ∃ s₁ s₂, saveSnapshot snap s = .ok () s₁ ∧
      compactLog snap.lastIndex s₁ = .ok () s₂ ∧ s₂.wal.inRange = s.wal.inRange := by
  have hbase : d.base = s.snapshot.image.lastIndex := by rw [← hd.content_eq]; rfl
  have hwal : s.wal.base = s.snapshot.image.lastIndex := hc
  have hsave : saveSnapshot snap s = .ok () { s with snapshot := .openStore snap, pending := snap } := by
    rw [saveSnapshot, SnapshotStore.save, if_neg (by rw [hd.last]; omega)]
    rfl
  obtain ⟨wal, hrel, -⟩ := release_above snap hd.data (by omega)
  refine ⟨_, { wal, snapshot := .openStore snap, pending := {} }, hsave, ?_, (release_ok hrel).2.2.1⟩
  rw [compactLog, if_neg (not_not.mpr rfl)]
  dsimp only
  rw [hrel]

/-- A hard state does not change the log. -/
theorem saveHardState_inRange {h : HardState} {s' : Store} (hs : saveHardState h s = .ok () s') :
    s'.wal.inRange = s.wal.inRange := by
  obtain ⟨wal, hw, rfl⟩ := onWal_ok hs
  unfold RaftWal.Store.saveHardState at hw
  split at hw
  · cases hw
  · cases hw
    rfl

instance : AcceptingStore Store where
  limit := RaftWal.resetIndex
  isSnapshotStore := rfl
  saveHardState hd hr hk hc := by
    obtain ⟨s', hs⟩ := accepts_hardState hd hk hc
    exact ⟨s', hs, (saveHardState_inRange hs).trans hr⟩
  append e hd hc hr hb hk hl := by
    obtain ⟨s', hs, hrange⟩ := accepts_append hd hc e hb hk hl
    exact ⟨s', hs, hrange.trans hr⟩
  saveSnapshot hd hc hr hb := by
    obtain ⟨s₁, s₂, h₁, h₂, hrange⟩ := accepts_snapshot hd hc hb
    exact ⟨s₁, s₂, h₁, h₂, hrange.trans hr⟩
  reopen hd hc hr hx := by
    rw [hd.reopen_clean hr hc] at hx
    cases hx
    exact hr
  zero hd hc _ h0 := by
    have hbase : _ = 0 := hc.trans ((congrArg Recovery.base hd.content_eq).trans h0)
    rw [← hd.content_eq]
    exact (hd.baseTerm hc).symm.trans (hd.zero hbase)

end RaftStore

/-! ## Runs -/

/-- What the store has is what the node has. -/
structure Lockstep (n : Node Store) : Prop where
  running : n.faulted = false
  term : n.store.wal.hard.term = n.term
  votedFor : n.store.wal.hard.votedFor = n.votedFor
  commit : max n.store.wal.hard.commit n.store.wal.base = n.commit
  base : n.store.wal.base = n.baseIndex
  baseTerm : n.store.wal.data.head?.map (·.term) = some n.baseTerm
  entries : n.store.wal.data.tail = n.log.tail

theorem lockstep_of_locked {n : Node Store} {d : Recovery} (h : Locked n d) : Lockstep n := by
  have hcontent := h.holds.toValid.content_clean h.clean
  rw [h.holds.content_eq] at hcontent
  have hbase : n.store.wal.base = d.base := by rw [hcontent]; exact h.clean
  have hhard : n.store.wal.hard = d.hard := by rw [hcontent]
  refine ⟨h.running, hhard ▸ h.mirrors.term, hhard ▸ h.mirrors.votedFor, ?_, hbase.trans h.mirrors.base,
    ?_, ?_⟩
  · rw [hhard, hbase]
    exact h.commit
  · obtain ⟨e, t, he⟩ := List.exists_cons_of_ne_nil h.holds.data
    have hterm := h.holds.baseTerm h.clean
    rw [← h.mirrors.baseTerm, ← h.holds.content_eq]
    show _ = some n.store.snapshot.image.lastTerm
    rw [← hterm, ofWal, he]
    rfl
  · rw [h.mirrors.suffix, hcontent]

/-- The nodes that a run reaches: a new node on an empty store, a method that returns, messages that
are drained, and a node that is recovered from the store. No method cuts the log below the commit
index, and the indexes stay in range. -/
inductive Reached : Node Store → Prop
  | new {id timeout : Nat} {peers : List Nat} {n : Node Store}
      (hn : newNodeWithStore id peers timeout {} = .ok n) : Reached n
  | call {n n' : Node Store} (op : Op) (h : Reached n) (hr : n.lastIndex < 2 ^ 62)
      (hk : n.KeepsCommitted op) (hx : op.run n = .ok () n') : Reached n'
  | drain {n : Node Store} (h : Reached n) : Reached { n with outbound := [] }
  | restart {n n' : Node Store} {peers : List Nat} {timeout : Nat} {s : Store} {d : Recovery}
      (h : Reached n) (hs : DurableStore.reopen n.store = .ok (s, d))
      (hx : recover n.id peers timeout s d = .ok n') (hf : n'.faulted = false) : Reached n'

theorem Reached.locked {n : Node Store} (h : Reached n) : Sane n ∧ ∃ d, Locked n d := by
  induction h with
  | new hn =>
    obtain ⟨hs, hd⟩ := Locked.new hn holds_empty rfl rfl
    exact ⟨hs, {}, hd⟩
  | call op h hr hk hx ih =>
    obtain ⟨hs, d, hd⟩ := ih
    refine hd.call hs hk ?_ hx
    show _ < 2 ^ 64 - 2
    omega
  | drain h ih =>
    obtain ⟨hs, d, hd⟩ := ih
    exact ⟨⟨hs.log, hs.stopped⟩, d, hd.drain⟩
  | restart h hs hx hf ih =>
    obtain ⟨-, d, hd⟩ := ih
    obtain ⟨hs', hd'⟩ := hd.restart hs hx hf
    exact ⟨hs', d, hd'⟩

/-- In every run the store refuses nothing, and has what the node has. -/
theorem lockstep_of_reached {n : Node Store} (h : Reached n) : Lockstep n := by
  obtain ⟨-, d, hd⟩ := h.locked
  exact lockstep_of_locked hd

/-- An entry that is stored, committed, applied and compacted. -/
theorem lockstep_of_compacted : ∃ n : Node Store, Reached n ∧ n.baseIndex = 1 ∧ n.store.wal.base = 1 ∧
    Lockstep n := by
  have hrun : (match newNodeWithStore 1 [2, 3] 4 ({} : Store) with
      | .error _ => none
      | .ok n₀ => match (Op.step { type := .append, src := 2, dst := 1, term := 1
                                   entry := { term := 1, command := 7 }, hasEntry := true
                                   commit := 1 }).run n₀ with
        | .error _ _ => none
        | .ok _ n₁ => match Op.applyEntries.run n₁ with
          | .error _ _ => none
          | .ok _ n₂ => match (Op.compact 1 []).run n₂ with
            | .error _ _ => none
            | .ok _ n₃ => some (n₀.lastIndex, n₁.lastIndex, n₂.lastIndex, n₃.baseIndex)) =
      some (0, 1, 1, 1) := by
    decide +kernel
  split at hrun
  · cases hrun
  rename_i n₀ hn₀
  split at hrun
  · cases hrun
  rename_i n₁ hn₁
  split at hrun
  · cases hrun
  rename_i n₂ hn₂
  split at hrun
  · cases hrun
  rename_i n₃ hn₃
  simp only [Option.some.injEq, Prod.mk.injEq] at hrun
  obtain ⟨h₀, h₁, h₂, h₃⟩ := hrun
  have hr₁ : Reached n₁ := by
    refine .call _ (.new hn₀) (by omega) ?_ hn₁
    refine ⟨fun _ _ _ _ t ht => ?_, nofun⟩
    have := (Node.termAt_range ht).2
    omega
  have hr₂ : Reached n₂ := .call .applyEntries hr₁ (by omega) trivial hn₂
  have hr₃ : Reached n₃ := .call (.compact 1 []) hr₂ (by omega) trivial hn₃
  have hlock := lockstep_of_reached hr₃
  exact ⟨n₃, hr₃, h₃, hlock.base.trans h₃, hlock⟩

/-- The only voter leads and commits five entries. -/
def fiveCommitted : List Op :=
  List.replicate 4 .tick ++ List.replicate 4 (.propose 7)

/-- A later leader, which is not a voter, replaces the third entry. Then the node leads again. -/
def cutAndElected : List Op :=
  .step { type := .append, src := 2, dst := 1, term := 2, logIndex := 2, logTerm := 1
          entry := { term := 2 }, hasEntry := true } :: List.replicate 4 .tick

/-- The store refuses the commit index of the shorter log, and the node stops. -/
theorem cut_below_commit_stops : ∃ n₀ n₁ n₂ : Node Store,
    newNodeWithStore 1 [] 4 {} = .ok n₀ ∧
    fiveCommitted.forM Op.run n₀ = .ok () n₁ ∧ n₁.commit = 5 ∧
    cutAndElected.forM Op.run n₁ = .ok () n₂ ∧ n₂.faulted = true ∧
    n₂.storageErr = some ⟨"raftwal: hard-state regression"⟩ := by
  have hrun : (match newNodeWithStore 1 [] 4 ({} : Store) with
      | .error _ => none
      | .ok n₀ => match fiveCommitted.forM Op.run n₀ with
        | .error _ _ => none
        | .ok _ n₁ => match cutAndElected.forM Op.run n₁ with
          | .error _ _ => none
          | .ok _ n₂ => some (n₁.commit, n₂.faulted, n₂.storageErr)) =
      some (5, true, some ⟨"raftwal: hard-state regression"⟩) := by
    decide +kernel
  split at hrun
  · cases hrun
  · rename_i n₀ hn₀
    split at hrun
    · cases hrun
    · rename_i n₁ hn₁
      split at hrun
      · cases hrun
      · rename_i n₂ hn₂
        simp only [Option.some.injEq, Prod.mk.injEq] at hrun
        obtain ⟨hc, hf, he⟩ := hrun
        exact ⟨n₀, n₁, n₂, hn₀, hn₁, hc, hn₂, hf, he⟩

end Promtact.Storage
