import Promtact.Raft.Refine.Cluster
import Promtact.Storage.RaftStore

/-!
# Recovery of a node on `storage/raftstore`

The nodes of a cluster keep their state in a `RaftStore.Store`. A crash may come in the middle of a
method, between two calls of the store: `Powered` is a store that loses its power before one of the
next calls, and accepts none until it is opened again.

* `crash_recovers`: in the runs of `orderly` events a restart gives a node back as it was.
* `compact_breaks_recovery`: it does not after a compaction below a committed joint configuration.
-/

namespace Promtact.Storage

open Raft Refine

/-- A store that loses its power before the calls that `cuts` says. -/
structure Powered (σ : Type) where
  store : σ
  cuts : List Bool := []
  off : Bool := false

namespace Powered

variable {σ : Type}

/-- Without power, and when it goes off now, a call is refused. -/
def refuse (s : Powered σ) : Option (StorageError × Powered σ) :=
  if s.off || s.cuts.head? == some true then
    some (⟨"power lost"⟩, { s with cuts := s.cuts.tail, off := true })
  else none

/-- A call of the store below. -/
def call : EStateM StorageError σ Unit → EStateM StorageError (Powered σ) Unit :=
  within Powered.store (fun store s => { s with store, cuts := s.cuts.tail }) refuse

theorem refuse_store {s s' : Powered σ} {e : StorageError} (h : s.refuse = some (e, s')) :
    s'.store = s.store := by
  unfold refuse at h
  split at h
  · cases h
    rfl
  · cases h

theorem call_ok {x : EStateM StorageError σ Unit} {s s' : Powered σ} (h : call x s = .ok () s') :
    x s.store = .ok () s'.store := within_ok (fun _ _ => rfl) h

theorem call_error {x : EStateM StorageError σ Unit} {s s' : Powered σ} {e : StorageError}
    (h : call x s = .error e s') : s'.store = s.store ∨ ∃ e', x s.store = .error e' s'.store :=
  within_error (fun _ _ => rfl) (fun _ _ _ => refuse_store) h

instance [DurableStore σ] : DurableStore (Powered σ) where
  saveHardState h := call (StableStore.saveHardState h)
  append index entry := call (StableStore.append index entry)
  isSnapshotStore := StableStore.isSnapshotStore σ
  saveSnapshot snapshot := call (StableStore.saveSnapshot snapshot)
  compactLog index := call (StableStore.compactLog index)
  reopen s := (DurableStore.reopen s.store).map fun (store, d) => ({ s with store, off := false }, d)

variable [DurableStore σ]

theorem reopen_ok {s s' : Powered σ} {d : Recovery} (h : DurableStore.reopen s = .ok (s', d)) :
    DurableStore.reopen s.store = .ok (s'.store, d) := by
  change (DurableStore.reopen s.store).map _ = _ at h
  cases hx : DurableStore.reopen s.store with
  | error e => rw [hx] at h; cases h
  | ok r => rw [hx] at h; cases h; rfl

instance [LawfulStore σ] : LawfulStore (Powered σ) where
  Holds s d := LawfulStore.Holds s.store d
  Clean s := LawfulStore.Clean s.store
  Sound s := LawfulStore.Sound s.store
  saveHardState_ok hs h := LawfulStore.saveHardState_ok hs (call_ok h)
  saveHardState_error hs h := by
    rcases call_error h with h | ⟨e, h⟩
    · rw [h]; exact hs
    · exact LawfulStore.saveHardState_error hs h
  append_ok hs hc hb hk h := LawfulStore.append_ok hs hc hb hk (call_ok h)
  append_error hs h := by
    rcases call_error h with h | ⟨e, h⟩
    · rw [h]; exact hs
    · exact LawfulStore.append_error hs h
  saveSnapshot_ok hs hpre h := LawfulStore.saveSnapshot_ok hs hpre (call_ok h)
  saveSnapshot_below hs hb h := LawfulStore.saveSnapshot_below hs hb (call_ok h)
  saveSnapshot_error hs h := by
    rcases call_error h with h | ⟨e, h⟩
    · rw [h]; exact hs
    · exact LawfulStore.saveSnapshot_error hs h
  compactLog_ok hs h := LawfulStore.compactLog_ok hs (call_ok h)
  compactLog_error hs h := by
    rcases call_error h with h | ⟨e, h⟩
    · rw [h]; exact hs
    · exact LawfulStore.compactLog_error hs h
  compactLog_clean hc h h' := LawfulStore.compactLog_clean hc (call_ok h) (call_ok h')
  reopen_ok hs hr h := LawfulStore.reopen_ok hs hr (reopen_ok h)
  reopen_clean hs hr hc := by
    obtain ⟨store, h⟩ := LawfulStore.reopen_clean hs hr hc
    exact ⟨_, congrArg (Except.map _) h⟩

end Powered

/-! ## Restarts -/

section

open Refine Consensus Network

variable {σ : Type} [DurableStore σ] [LawfulStore σ] {mode : Mode} {S : Setup σ}
  {w : World Nat Entry} {i : Nat}

/-- A store without a pending snapshot is restarted, and gives back what it holds. -/
theorem restart_running {store : σ} {d : Recovery} (hi : i ∈ S.ids)
    (hinv : Inv (params mode S.voters) w) (hh : LawfulStore.Holds store d)
    (hd : Durable mode S.voters w i d) (hsound : LawfulStore.Sound store)
    (hc : LawfulStore.Clean store) (hs : mode.serial = true) :
    ∃ n, S.restart i store = some (.up n) ∧ n.faulted = false ∧ Rep mode S.voters w i n ∧
      n.term = d.hard.term ∧ n.votedFor = d.hard.votedFor ∧ n.baseIndex = d.base ∧
      n.log.tail = d.suffix ∧ n.commit = max d.hard.commit d.base := by
  obtain ⟨s', hre⟩ := LawfulStore.reopen_clean hh hsound hc
  obtain ⟨-, hh', hc'⟩ := LawfulStore.reopen_ok hh hsound hre
  obtain ⟨n₀, hn₀, hv⟩ := S.new_ok hi s'
  obtain ⟨n, hn, hready, hst, h1, h2, h3, h4, h5⟩ := recover_ready hd hh' hc' hn₀ hv
  obtain ⟨hf, g1, g2, g3, g4, g5⟩ := hready.checkRecovered_running hinv hs
  refine ⟨n.checkRecovered, ?_, hf, hready.checkRecovered hinv hst, g1.trans h1, g2.trans h2,
    g3.trans h3, (congrArg List.tail g4).trans h4, g5.trans h5⟩
  simp only [Setup.restart, hre, hn]

/-- The two nodes have the same durable state. -/
structure SameState (n n' : Node σ) : Prop where
  term : n'.term = n.term
  votedFor : n'.votedFor = n.votedFor
  baseIndex : n'.baseIndex = n.baseIndex
  entries : n'.log.tail = n.log.tail
  commit : n'.commit = n.commit
  votersOld : n'.votersOld = n.votersOld
  votersNew : n'.votersNew = n.votersNew

/-- A running node is restarted as it was. -/
theorem restart_same {n : Node σ} (hi : i ∈ S.ids) (hinv : Inv (params mode S.voters) w)
    (h : Rep mode S.voters w i n) (hf : n.faulted = false) (hsound : LawfulStore.Sound n.store)
    (hs : mode.serial = true) :
    ∃ n', S.restart i n.store = some (.up n') ∧ n'.faulted = false ∧ SameState n n' := by
  have hr := h.ready hf
  obtain ⟨hc, hh, hcm⟩ := hr.live.1.holds
  obtain ⟨n', hn', hf', hrep, h1, h2, h3, h4, h5⟩ := restart_running hi hinv hh
    (hr.live.1.durable hcm) hsound hr.live.1.clean hs
  have hb : n'.baseIndex = n.baseIndex := h3.trans hr.live.1.base_eq
  have hcommit : n'.commit = n.commit := by
    rw [h5, hcm]; exact congrArg (max hc) hr.live.1.base_eq
  have hcfg := (hrep.ready hf').live.2.2.1
  rw [hcommit, ← hr.live.2.2.1] at hcfg
  obtain ⟨ho, hn⟩ := Prod.mk.inj (toCfg_inj hcfg)
  exact ⟨n', hn', hf', h1, h2, hb, h4, hcommit, ho, hn⟩

end

/-! ## Runs -/

open Network

/-- The node has no change of the membership above `a` and up to `b`. -/
def unchanged {σ : Type} (n : Node σ) (a b : Nat) : Bool :=
  (List.range' (a + 1) (b - a)).all fun k => !(n.entryAt? k).any (·.isConfig)

theorem unchanged_iff {σ : Type} {n : Node σ} {a b : Nat} (h : unchanged n a b = true) {k : Nat}
    {e : Entry} (ha : a < k) (hb : k ≤ b) (he : n.entryAt? k = some e) : e.isConfig = false := by
  have := List.all_eq_true.mp h k (List.mem_range'_1.mpr ⟨by omega, by omega⟩)
  rw [he] at this
  simpa using this

/-- What recovery relies on. Between the index of an accepted compaction and the commit index there
is no change of the membership; a snapshot that a running node installs is not below the commit
index, unless it has the same voters; a change that replaces an entry of its log does not follow
another one that is not committed. -/
def orderly : Event → Proc (Powered RaftStore.Store) → Bool
  | .call (.compact index _), .up n =>
      decide (index ≤ n.baseIndex) || decide (n.applied < index) ||
        (!n.faulted && unchanged n index n.commit)
  | .call (.step m), .up n => n.faulted ||
      (m.type != .installSnapshot || n.rejectsSnapshot m || decide (m.snapshotIndex ≤ n.baseIndex) ||
        decide (n.commit ≤ m.snapshotIndex) ||
        (m.snapshotOld == n.votersOld && m.snapshotNew == n.votersNew)) &&
      (m.type != .append || n.rejectsAppend m || !m.hasEntry || !m.entry.isConfig ||
        !(n.termAt (m.logIndex + 1)).any (· != m.entry.term) || unchanged n n.commit m.logIndex)
  | .restart, .down s => s.store.wal.inRange
  | _, _ => true

/-- Runs with everything, in which a log holds at most one change that is not committed. -/
def ordered : Mode :=
  { members := true, snapshots := true, Image := fun _ _ => True, serial := true }

theorem orderly_permitted {i : Nat} {e : Event} {p : Proc (Powered RaftStore.Store)}
    (h : orderly e p = true) : Permitted ordered i e p := by
  rcases e with op | _ | _ | _ <;> rcases p with n | store <;> try trivial
  cases op with
  | proposeJoint _ => rfl
  | proposeFinal => rfl
  | compact index state =>
    simp only [orderly, Bool.or_eq_true, Bool.and_eq_true, decide_eq_true_eq,
      Bool.not_eq_true'] at h
    refine ⟨rfl, fun _ hb ha => ?_⟩
    obtain ⟨hf, hu⟩ : n.faulted = false ∧ unchanged n index n.commit = true := by
      rcases h with (h | h) | h
      · omega
      · omega
      · exact h
    exact ⟨hf, fun k e hk hkc he => unchanged_iff hu hk hkc he⟩
  | step m =>
    simp only [orderly, Bool.or_eq_true, Bool.and_eq_true] at h
    refine ⟨fun _ _ hf hty hrej hb => ?_, fun _ hf hty hrej hhas hc hcon k e hk hkm he => ?_⟩
    · have := (h.resolve_left (by rw [hf]; exact Bool.false_ne_true)).1
      simp only [hty, hrej, decide_eq_true_eq, beq_iff_eq, bne_self_eq_false, Bool.false_eq_true,
        false_or] at this
      rcases this with (h | h) | h
      · omega
      · exact .inl h
      · exact .inr h
    · refine unchanged_iff ?_ hk hkm he
      have := (h.resolve_left (by rw [hf]; exact Bool.false_ne_true)).2
      have hcon : (n.termAt (m.logIndex + 1)).any (· != m.entry.term) = true := hcon
      simpa [hty, hrej, hhas, hc, hcon] using this
  | _ => trivial

/-- A node that crashes between two methods is restarted as it was. A node that crashes within a
method is restarted too, unless a snapshot waits for its log to be released. -/
theorem crash_recovers (S : Setup (Powered RaftStore.Store)) {c : Cluster (Powered RaftStore.Store)}
    (hr : Net.Runs S.act (fun _ e p => orderly e p) S.start c) {i : Nat}
    {n : Node (Powered RaftStore.Store)} (hn : nodeAt c i = some n)
    (hsound : n.store.store.wal.inRange = true) :
    (n.faulted = false →
      ∃ n', S.restart i n.store = some (.up n') ∧ n'.faulted = false ∧ SameState n n') ∧
    (RaftStore.Clean n.store.store →
      ∃ n', S.restart i n.store = some (.up n') ∧ n'.faulted = false) := by
  obtain ⟨w, -, hj⟩ := Setup.joined_start.run (fun _ _ => trivial)
    (hr.mono fun _ _ _ => orderly_permitted)
  obtain ⟨hi, hrep⟩ := hj.node hn
  refine ⟨fun hf => restart_same hi hj.inv hrep hf hsound rfl, fun hc => ?_⟩
  obtain ⟨d, hh, hd⟩ := hrep.stored
  obtain ⟨n', hn', hf, -⟩ := restart_running hi hj.inv hh hd hsound hc rfl
  exact ⟨n', hn', hf⟩

/-- Three nodes on `raftstore` that lose power as `cuts` says. -/
def poweredTrio (cuts : Nat → List Bool) : Setup (Powered RaftStore.Store) :=
  trioOn (fun id => { store := {}, cuts := cuts id }) fun _ => ⟨RaftStore.holds_empty, rfl⟩

/-- Nodes 1 and 2 commit a joint configuration. -/
def jointCommitted : List (Move (Powered RaftStore.Store)) :=
  elected ++ Move.calls 1 .applyEntries ++ Move.calls 1 (.proposeJoint [1, 2]) ++
    Move.deliverAll [14, 16]

/-- Node 3 loses its power after it stored the first entry and before it saved the commit index. -/
theorem crash_recovers_joint :
    ∃ (S : Setup (Powered RaftStore.Store)) (c : _) (n₁ n₃ : Node (Powered RaftStore.Store)),
      Net.Runs S.act (fun _ e p => orderly e p) S.start c ∧
      nodeAt c 1 = some n₁ ∧ n₁.faulted = false ∧ n₁.votersNew = 3 ∧
      (∃ n', S.restart 1 n₁.store = some (.up n') ∧ n'.faulted = false ∧ SameState n₁ n') ∧
      nodeAt c 3 = some n₃ ∧ n₃.faulted = true ∧ n₃.store.store.wal.lastIndex = 1 ∧
      n₃.store.store.wal.hard.commit = 0 ∧
      ∃ n', S.restart 3 n₃.store = some (.up n') ∧ n'.faulted = false := by
  let S := poweredTrio fun id => if id = 3 then [false, false, true] else []
  have h : (S.start.play S.act (fun _ e p => orderly e p)
      (jointCommitted ++ Move.deliverAll [7, 19, 20])).any (fun c =>
      (nodeAt c 1).any fun n₁ => (nodeAt c 3).any fun n₃ => decide (n₁.faulted = false ∧
        n₁.votersNew = 3 ∧ n₁.store.store.wal.inRange = true ∧ n₃.faulted = true ∧
        n₃.store.store.wal.lastIndex = 1 ∧ n₃.store.store.wal.hard.commit = 0 ∧
        n₃.store.store.wal.inRange = true ∧
        n₃.store.store.wal.base = n₃.store.store.snapshot.image.lastIndex)) = true := by
    decide +kernel
  simp only [Option.any_eq_true, decide_eq_true_eq] at h
  obtain ⟨c, hc, n₁, hn₁, n₃, hn₃, hf, hv, hr₁, hf₃, hl, hcm, hr₃, hclean⟩ := h
  have hrun := Net.Runs.of_play hc
  exact ⟨S, c, n₁, n₃, hrun, hn₁, hf, hv, (crash_recovers S hrun hn₁ hr₁).1 hf, hn₃, hf₃, hl, hcm,
    (crash_recovers S hrun hn₃ hr₃).2 hclean⟩

/-- The snapshot of a compaction at index 1 has the voters of the joint configuration at index 2.
The node does not come up again. -/
theorem compact_breaks_recovery :
    ∃ (S : Setup (Powered RaftStore.Store)) (c : _) (n n' : Node (Powered RaftStore.Store)),
      Net.Runs S.act (fun _ _ _ => True) S.start c ∧ nodeAt c 1 = some n ∧ n.faulted = false ∧
      n.baseIndex = 1 ∧ n.commit = 2 ∧ n.store.store.wal.inRange = true ∧
      S.restart 1 n.store = some (.up n') ∧ n'.faulted = true := by
  let S := poweredTrio fun _ => []
  have h : (S.start.play S.act (fun _ _ _ => True)
      (jointCommitted ++ Move.calls 1 (.compact 1 []))).any (fun c => (nodeAt c 1).any fun n =>
      decide (n.faulted = false ∧ n.baseIndex = 1 ∧ n.commit = 2 ∧
        n.store.store.wal.inRange = true) &&
      (S.restart 1 n.store).any fun p => match p with
        | .up n' => n'.faulted
        | .down _ => false) = true := by
    decide +kernel
  simp only [Option.any_eq_true, Bool.and_eq_true, decide_eq_true_eq] at h
  obtain ⟨c, hc, n, hn, ⟨hf, hb, hcm, hr⟩, p, hp, hp'⟩ := h
  cases p with
  | up n' => exact ⟨S, c, n, n', Net.Runs.of_play hc, hn, hf, hb, hcm, hr, hp, hp'⟩
  | down s => cases hp'

end Promtact.Storage
