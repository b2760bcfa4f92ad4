import Promtact.Raft.Effects.Methods
import Promtact.Raft.Mirror

/-!
# A node whose store has failed

`Watched` counts the calls of a store and remembers whether one of them returned an error. After
such a call the node has stopped: it follows nobody, and has nothing to send. All its methods then
check `Faulted` or the role first, except `Compact`.

* `Life.stopped`: in every life of a node, after a failed call the node has stopped.
* `Stopped.call`: a stopped node only counts what it has applied, unless it compacts its log.
* `fail_stop_iff`: a stopped node leaves its store and its state alone exactly as long as it is not
  told to compact at an index that it has applied and retained.
-/

namespace Promtact.Raft

open Refine

/-- A store, the number of its calls, and whether one of them returned an error. -/
structure Watched (σ : Type) where
  store : σ
  calls : Nat := 0
  failed : Bool := false

variable {σ : Type}

namespace Watched

/-- A call is counted, and a failure noted. -/
def call (x : EStateM StorageError σ Unit) : EStateM StorageError (Watched σ) Unit := fun s =>
  match x s.store with
  | .ok _ store => .ok () { s with store, calls := s.calls + 1 }
  | .error e store => .error e { store, calls := s.calls + 1, failed := true }

instance [StableStore σ] : StableStore (Watched σ) where
  saveHardState h := call (StableStore.saveHardState h)
  append index entry := call (StableStore.append index entry)
  isSnapshotStore := StableStore.isSnapshotStore σ
  saveSnapshot snapshot := call (StableStore.saveSnapshot snapshot)
  compactLog index := call (StableStore.compactLog index)

variable {x : EStateM StorageError σ Unit} {s s' : Watched σ}

theorem call_ok (h : call x s = .ok () s') : s'.failed = s.failed ∧ s'.calls = s.calls + 1 := by
  unfold call at h
  split at h
  · cases h; exact ⟨rfl, rfl⟩
  · cases h

theorem call_error {e : StorageError} (h : call x s = .error e s') : s'.calls = s.calls + 1 := by
  unfold call at h
  split at h
  · cases h
  · cases h; rfl

end Watched

/-! ## Lives of a node -/

/-- What the environment does with a node. -/
inductive Call where
  | method (op : Op)
  | drain
  deriving DecidableEq, Repr

/-- The effect of a call on the node. -/
def Call.run [StableStore σ] : Call → NodeM σ Unit
  | .method op => op.run
  | .drain => do let _ ← Raft.drain; pure ()

/-- The node after a call. One that panics leaves the node as it was then. -/
def Call.after [StableStore σ] (c : Call) (n : Node σ) : Node σ := finalState (c.run n)

variable [StableStore σ]

/-- The nodes that are reached from a new or a recovered node, on a store that has not failed yet.
-/
inductive Life : Node (Watched σ) → Prop
  | new {id electionTimeout : Nat} {peers : List Nat} {store : Watched σ} {n : Node (Watched σ)}
      (hs : store.failed = false) (h : newNodeWithStore id peers electionTimeout store = .ok n) : Life n
  | recovered {id electionTimeout : Nat} {peers : List Nat} {store : Watched σ} {d : Recovery}
      {n : Node (Watched σ)} (hs : store.failed = false)
      (hd : d.snapshot.lastIndex = 0 → d.snapshot.lastTerm = 0)
      (h : recover id peers electionTimeout store d = .ok n) : Life n
  | call {n n' : Node (Watched σ)} {c : Call} (h : Life n) (hx : c.run n = .ok () n') : Life n'

/-- The node has stopped. -/
structure Stopped (n : Node σ) : Prop where
  faulted : n.faulted = true
  state : n.state = .follower
  outbound : n.outbound = []

omit [StableStore σ] in
theorem Stopped.of_fail (n : Node σ) (err : Option StorageError) : Stopped (n.fail err) :=
  ⟨rfl, rfl, rfl⟩

/-- After an error of the store the node has stopped. -/
def StopsOnError (n : Node (Watched σ)) : Prop := n.store.failed = true → Stopped n

omit [StableStore σ] in
theorem StopsOnError.of_running {n n' : Node (Watched σ)} (h : StopsOnError n)
    (hr : n.faulted = false) (hf : n'.store.failed = n.store.failed) : StopsOnError n' := by
  intro hfail
  cases hr.symm.trans (h (hf ▸ hfail)).faulted

theorem StopsOnError.effect {op : Op} {n₀ n n' : Node (Watched σ)} (h : StopsOnError n)
    (he : Effect op n₀ n n') : StopsOnError n' := by
  have hleads : n.state = .leader → n.store.failed = true → False := fun hl hf => by
    cases hl.symm.trans (h hf).state
  cases he with
  | volatile hv _ =>
    intro hf
    have hn := h (hv.store ▸ hf)
    exact ⟨hv.faulted.trans hn.faulted, hv.state.elim (·.trans hn.state) fun h => h,
      hv.outbound.trans hn.outbound⟩
  | lead hc => exact fun hf => by cases hc.symm.trans (h hf).state
  | send hm => exact h.of_running hm.running rfl
  | persist hr hp hs => exact h.of_running hr (Watched.call_ok hs).1
  | append hr he hs => exact h.of_running hr (Watched.call_ok hs).1
  | save hp hs hs' =>
    intro hf
    have hn := h (by rw [← (Watched.call_ok hs).1, ← (Watched.call_ok hs').1]; exact hf)
    cases hp with
    | own => exact ⟨hn.faulted, hn.state, hn.outbound⟩
    | install => exact ⟨hn.faulted, hn.state, hn.outbound⟩
  | persistError | appendError | saveError | compactError | noSnapshotStore =>
    exact fun _ => .of_fail _ _
  | read _ _ hr => exact h.of_running hr rfl
  | readAck _ hl => exact fun hf => (hleads hl hf).elim
  | readReady _ hl => exact fun hf => (hleads hl hf).elim
  | apply => exact fun hf => ⟨(h hf).faulted, (h hf).state, (h hf).outbound⟩

theorem Life.stopped {n : Node (Watched σ)} (h : Life n) : Sane n ∧ StopsOnError n := by
  induction h with
  | new hs h =>
    obtain ⟨-, -, hn⟩ := newNodeWithStore_ok h
    rw [hn]
    exact ⟨⟨List.cons_ne_nil _ _, fun _ => rfl⟩, fun hf => by cases hs.symm.trans hf⟩
  | recovered hs hd h =>
    have hr := recover_ok hd h
    exact ⟨hr.sane, fun hf => by rw [hr.store] at hf; cases hs.symm.trans hf⟩
  | @call n n' c h hx ih =>
    cases c with
    | method op => exact op.keeps ih.1 ih.2 hx fun _ h he => h.effect he
    | drain =>
      cases hx
      exact ⟨⟨ih.1.log, ih.1.stopped⟩, fun hf => ⟨(ih.2 hf).faulted, (ih.2 hf).state, rfl⟩⟩

theorem Life.calls {n n' : Node (Watched σ)} (h : Life n) {calls : List Call}
    (hx : calls.forM Call.run n = .ok () n') : Life n' := by
  induction calls generalizing n with
  | nil => cases hx; exact h
  | cons c calls ih =>
    have hx : (c.run >>= fun _ => calls.forM Call.run) n = .ok () n' := hx
    simp only [bind, EStateM.bind] at hx
    split at hx
    · rename_i n₁ hc
      exact ih (h.call hc) hx
    · cases hx

/-! ## Calls of a stopped node -/

/-- `Compact` at an index that was applied and is retained. -/
def Call.Compacts (n : Node σ) : Call → Prop
  | .method (.compact index _) =>
    n.baseIndex < index ∧ index ≤ n.applied ∧ (n.termAt index).isSome = true ∧
      StableStore.isSnapshotStore σ = true
  | _ => False

instance (n : Node σ) : DecidablePred (Call.Compacts n)
  | .drain => .isFalse id
  | .method op => by
    cases op <;> unfold Call.Compacts <;> infer_instance

/-- Only the count of applied entries, the known leader and the reported error may differ. -/
def Idle (n n' : Node σ) : Prop :=
  ∃ applied leader storageErr,
    n' = { n with applied := applied, leader := leader, storageErr := storageErr }

omit [StableStore σ] in
theorem Idle.refl (n : Node σ) : Idle n n := ⟨_, _, _, rfl⟩

omit [StableStore σ] in
theorem Idle.trans {n n' n'' : Node σ} (h : Idle n n') (h' : Idle n' n'') : Idle n n'' := by
  obtain ⟨applied, leader, storageErr, rfl⟩ := h
  obtain ⟨applied', leader', storageErr', rfl⟩ := h'
  exact ⟨applied', leader', storageErr', rfl⟩

omit [StableStore σ] in
theorem applyEntriesLoop_idle {n n' : Node σ} (h : Idle n n') (rest : Nat) (dst : List Entry) :
    Triple (Idle n) (applyEntriesLoop rest dst) n' fun _ => Idle n := by
  induction rest generalizing dst n' with
  | zero => exact Sim.ret h
  | succ rest ih =>
    have hn : Idle n { n' with applied := n'.applied + 1 } := h.trans ⟨_, _, _, rfl⟩
    unfold applyEntriesLoop
    exact Sim.seq_update (Sim.seq_get (Sim.seq_check_of hn fun entry _ => ih hn _))

namespace Stopped

variable {n n' : Node σ}

omit [StableStore σ] in
theorem idle (h : Stopped n) (hi : Idle n n') : Stopped n' := by
  obtain ⟨applied, leader, storageErr, rfl⟩ := hi
  exact ⟨h.faulted, h.state, h.outbound⟩

omit [StableStore σ] in
theorem fail_none (h : Stopped n) : Idle n (n.fail none) := by
  refine ⟨n.applied, 0, (n.fail none).storageErr, ?_⟩
  rw [Node.fail, ← h.faulted, ← h.state, ← h.outbound]

theorem compact_idle (h : Stopped n) {index : Nat} {state : List UInt8}
    (hc : ¬ Call.Compacts n (.method (.compact index state))) :
    Triple (Idle n) (compact index state) n fun _ => Idle n := by
  unfold compact
  refine Sim.seq_get (Sim.ite (fun _ => Sim.ret (.refl n)) fun hrange => ?_)
  split
  · exact Sim.ret (.refl n)
  · rename_i term ht
    have hstore : ¬ StableStore.isSnapshotStore σ = true := fun hs =>
      hc ⟨by omega, by omega, by rw [ht]; rfl, hs⟩
    unfold saveSnapshot
    rw [if_neg hstore]
    refine Sim.seq (Q := fun saved _ m => saved = false ∧ Idle n m)
      (Sim.seq_update (Sim.ret ⟨rfl, h.fail_none⟩)) ?_
    rintro _ _ m - ⟨rfl, hm⟩
    exact Sim.ret hm

/-- A stopped node does nothing, unless it compacts its log. -/
theorem call (h : Stopped n) {c : Call} (hc : ¬ c.Compacts n) : Idle n (c.after n) := by
  have hleader : n.state ≠ .leader := by rw [h.state]; decide
  refine Triple.final ?_
  cases c with
  | drain =>
    have hn : ({ n with outbound := [] } : Node σ) = n := by rw [← h.outbound]
    exact Sim.discard (Sim.seq_get (Sim.seq_update (Sim.ret (hn.symm ▸ .refl n))))
  | method op =>
    cases op with
    | tick => exact Sim.seq_get (Sim.ite (fun _ => Sim.ret (.refl n)) fun hf => absurd h.faulted hf)
    | step m => exact Sim.seq_get (Sim.ite (fun _ => Sim.ret (.refl n)) fun hf => absurd h.faulted hf)
    | propose command =>
      refine Sim.discard (Sim.seq_get (Sim.ite (fun _ => Sim.ret (.refl n)) fun hl => ?_))
      exact absurd (.inl hleader) hl
    | proposeRequest operation clientID requestID key value =>
      refine Sim.discard (Sim.seq_get (Sim.ite (fun _ => Sim.ret (.refl n)) fun hl => ?_))
      exact absurd (.inl hleader) hl
    | proposeJoint newVoters =>
      refine Sim.discard (Sim.seq_check_of (.refl n) fun newMask _ => Sim.seq_get ?_)
      cases newMask with
      | none => exact Sim.ret (.refl n)
      | some newMask =>
        exact Sim.ite (fun _ => Sim.ret (.refl n)) fun hl => absurd (.inl hleader) hl
    | proposeFinal =>
      refine Sim.discard (Sim.seq_get (Sim.ite (fun _ => Sim.ret (.refl n)) fun hl => ?_))
      exact absurd (.inl hleader) hl
    | transferLeadership target =>
      refine Sim.discard (Sim.seq_get (Sim.ite (fun _ => Sim.ret (.refl n)) fun hl => ?_))
      exact absurd (.inl hleader) hl
    | startReadIndex context =>
      refine Sim.discard (Sim.seq_get (Sim.ite (fun _ => Sim.ret (.refl n)) fun hl => ?_))
      exact absurd (.inl hleader) hl
    | applyEntries => exact Sim.discard (Sim.seq_get (applyEntriesLoop_idle (.refl n) _ _))
    | compact index state => exact Sim.discard (h.compact_idle hc)

/-- The node has stopped, and its store was called more than `k` times. -/
def Asked (k : Nat) (n : Node (Watched σ)) : Prop := k < n.store.calls ∧ Stopped n

omit [StableStore σ] in
theorem callStore {n : Node (Watched σ)} (h : Stopped n) {k : Nat} (hk : k ≤ n.store.calls)
    (x : EStateM StorageError σ Unit) :
    Triple (Asked k) (callStoreOrFail (Watched.call x)) n fun _ => Asked k := by
  refine callStoreOrFail_sim (fun s hx => ?_) fun e s hx => ?_
  · have hcalls := (Watched.call_ok hx).2
    exact ⟨(), .refl, by dsimp only; omega, h.faulted, h.state, h.outbound⟩
  · have hcalls := Watched.call_error hx
    exact ⟨by dsimp only [Node.fail]; omega, .of_fail _ _⟩

/-- `Compact` asks the store, and leaves the node stopped. -/
theorem compact {n : Node (Watched σ)} (h : Stopped n) {index : Nat} {state : List UInt8}
    (hc : Call.Compacts n (.method (.compact index state))) :
    Asked n.store.calls (Call.after (.method (.compact index state)) n) := by
  obtain ⟨hb, ha, ht, hs⟩ := hc
  refine Triple.final (Sim.discard ?_)
  unfold Raft.compact
  refine Sim.seq_get (Sim.ite (fun hr => by omega) fun _ => ?_)
  split
  · rename_i hnone
    rw [hnone] at ht
    cases ht
  · rename_i term _
    have hsave : Triple (Asked n.store.calls) (saveSnapshot (n.ownSnapshot index term state)) n
        fun _ => Asked n.store.calls := by
      unfold saveSnapshot
      rw [if_pos hs]
      refine Sim.seq (h.callStore (Nat.le_refl _) _) fun saved _ m _ hm => ?_
      cases saved with
      | false => exact Sim.ret hm
      | true => exact hm.2.callStore (Nat.le_of_lt hm.1) _
    refine Sim.seq hsave fun saved _ m _ hm => ?_
    cases saved with
    | false => exact Sim.ret hm
    | true => exact Sim.seq_update (Sim.ret ⟨hm.1, hm.2.faulted, hm.2.state, hm.2.outbound⟩)

theorem after {n : Node (Watched σ)} (h : Stopped n) (c : Call) : Stopped (c.after n) := by
  by_cases hc : c.Compacts n
  · cases c with
    | drain => exact hc.elim
    | method op =>
      cases op with
      | compact index state => exact (h.compact hc).2
      | _ => exact hc.elim
  · exact h.idle (h.call hc)

end Stopped

/-! ## Sequences of calls -/

/-- The node after these calls. -/
def afterCalls (calls : List Call) (n : Node σ) : Node σ := calls.foldl (fun n c => c.after n) n

theorem afterCalls_concat (calls : List Call) (c : Call) (n : Node σ) :
    afterCalls (calls ++ [c]) n = c.after (afterCalls calls n) := by
  rw [afterCalls, List.foldl_concat]
  rfl

/-- The store was not called, nothing is to be sent, and the node kept its state. -/
structure Quiet (n n' : Node (Watched σ)) : Prop where
  calls : n'.store.calls = n.store.calls
  outbound : n'.outbound = []
  term : n'.term = n.term
  votedFor : n'.votedFor = n.votedFor
  log : n'.log = n.log
  baseIndex : n'.baseIndex = n.baseIndex
  commit : n'.commit = n.commit
  votersOld : n'.votersOld = n.votersOld
  votersNew : n'.votersNew = n.votersNew
  state : n'.state = .follower

omit [StableStore σ] in
theorem Idle.quiet {n n' : Node (Watched σ)} (h : Idle n n') (hn : Stopped n) : Quiet n n' := by
  obtain ⟨applied, leader, storageErr, rfl⟩ := h
  exact ⟨rfl, hn.outbound, rfl, rfl, rfl, rfl, rfl, rfl, rfl, hn.state⟩

theorem Stopped.afterCalls {n : Node (Watched σ)} (h : Stopped n) (calls : List Call) :
    Stopped (afterCalls calls n) := by
  induction calls using List.reverseRecOn with
  | nil => exact h
  | append_singleton calls c ih =>
    rw [afterCalls_concat]
    exact ih.after c

/-- After an error of the store the node is quiet, through any calls, exactly as long as none of
them is a `Compact` at an index that was applied and is retained. -/
theorem fail_stop_iff (n : Node (Watched σ)) (hn : Life n) (hf : n.store.failed = true)
    (calls : List Call) :
    (∀ before, before <+: calls → Quiet n (afterCalls before n)) ↔
      ∀ before c, before ++ [c] <+: calls → ¬ c.Compacts (afterCalls before n) := by
  have hstop := hn.stopped.2 hf
  constructor
  · intro hq before c hpre hc
    have hafter := hq _ hpre
    rw [afterCalls_concat] at hafter
    have hbefore := hq _ ((List.prefix_append before [c]).trans hpre)
    have hcalls := hafter.calls.trans hbefore.calls.symm
    cases c with
    | drain => exact hc
    | method op =>
      cases op with
      | compact index state =>
        have := ((hstop.afterCalls before).compact hc).1
        omega
      | _ => exact hc
  · intro hc before hpre
    have hidle : ∀ before, before <+: calls → Idle n (afterCalls before n) := by
      intro before
      induction before using List.reverseRecOn with
      | nil => exact fun _ => .refl n
      | append_singleton before c ih =>
        intro hpre
        rw [afterCalls_concat]
        refine (ih ((List.prefix_append before [c]).trans hpre)).trans ?_
        exact (hstop.afterCalls before).call (hc before c hpre)
    exact (hidle before hpre).quiet hstop

/-- A single voter applies the first entry of its term, and its store refuses the next one. -/
def stopAlone : EStateM.Result Panic (Node (Watched Disk)) Unit :=
  [Call.method .tick, .method .applyEntries, .method (.propose 7)].forM Call.run
    { id := 1, peers := [], timeout := 1, votersOld := 1
      store := { store := { faults := [false, false, false, true] } } }

theorem stopAlone_life : ∃ n, stopAlone = .ok () n ∧ Life n ∧ n.store.failed = true ∧
    n.store.calls = 4 ∧ n.baseIndex = 0 ∧
      (afterCalls [.method (.compact 1 [])] n).store.calls = 6 ∧
      (afterCalls [.method (.compact 1 [])] n).baseIndex = 1 := by
  have hnew : newNodeWithStore 1 [] 1
      ({ store := { faults := [false, false, false, true] } } : Watched Disk) = .ok _ := rfl
  have hrun : (match stopAlone with
      | .ok _ n => some (n.store.failed, n.store.calls, n.baseIndex,
          (afterCalls [.method (.compact 1 [])] n).store.calls,
          (afterCalls [.method (.compact 1 [])] n).baseIndex)
      | .error _ _ => none) = some (true, 4, 0, 6, 1) := by decide +kernel
  cases hstop : stopAlone with
  | error e n => rw [hstop] at hrun; cases hrun
  | ok u n =>
    rw [hstop] at hrun
    simp only [Option.some.injEq, Prod.mk.injEq] at hrun
    exact ⟨n, rfl, (Life.new rfl hnew).calls hstop, hrun⟩

theorem fail_stop_iff_alone : ∃ n : Node (Watched Disk), Life n ∧ n.store.failed = true ∧
    ∀ before, before <+: [.method .tick, .method (.propose 8), .drain] →
      Quiet n (afterCalls before n) := by
  obtain ⟨n, -, hn, hf, -⟩ := stopAlone_life
  refine ⟨n, hn, hf, (fail_stop_iff n hn hf _).mpr fun before c hpre hc => ?_⟩
  have hmem := hpre.subset (List.mem_append_right _ (List.mem_singleton_self c))
  simp only [List.mem_cons, List.not_mem_nil, or_false] at hmem
  rcases hmem with rfl | rfl | rfl <;> exact hc

/-- A stopped node compacts its log: two calls of the store, and another base. -/
theorem stopped_node_compacts : ∃ n : Node (Watched Disk), Life n ∧ n.store.failed = true ∧
    ¬ Quiet n (afterCalls [.method (.compact 1 [])] n) := by
  obtain ⟨n, -, hn, hf, -, hb, -, hb'⟩ := stopAlone_life
  refine ⟨n, hn, hf, fun hq => ?_⟩
  cases hb'.symm.trans (hq.baseIndex.trans hb)

end Promtact.Raft
