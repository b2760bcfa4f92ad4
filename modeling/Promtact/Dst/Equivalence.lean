import Promtact.Dst.Simulator

/-!
# The engine refines the frozen simulator

The engine over the cluster and the simulator hold the same nodes and draw the same random numbers.
They keep the messages in flight in a heap and in a list. `Same` relates the two: the messages are
the same, each with its own number, so the first that is due is the same one whether it is the root
of the heap or found by a scan.

* `run_agrees`: every run of the engine is that of the simulator, action by action.
* `failed_restart_diverges`: a restart that fails leaves the messages of the node in the simulator,
  while `Isolate` takes them from the engine.
-/

namespace Promtact.Dst

open Raft Refine Engine

/-- The message in flight as the simulator has it. -/
def Event.scheduled (ev : Event Message) : Scheduled := { due := ev.due, seq := ev.seq, msg := ev.msg }

/-! ## The scan -/

/-- What the scan has found in `seen`: the first message that is due. -/
def Best (now : Nat) (seen : List Scheduled) : Option (Nat × Scheduled) → Prop
  | none => ∀ y ∈ seen, now < y.due
  | some (i, x) => seen[i]? = some x ∧ x.due ≤ now ∧
      ∀ y ∈ seen, y.due ≤ now → x.due < y.due ∨ x.due = y.due ∧ x.seq ≤ y.seq

theorem Best.next {now : Nat} {seen : List Scheduled} {best : Option (Nat × Scheduled)}
    (h : Best now seen best) (x : Scheduled) :
    Best now (seen ++ [x]) (scanNext now seen.length x best) := by
  have hlast : (seen ++ [x])[seen.length]? = some x := List.getElem?_concat_length
  -- a message that was seen is one of the others, or the new one
  have hmem : ∀ {p : Scheduled → Prop}, (∀ y ∈ seen, p y) → p x → ∀ y ∈ seen ++ [x], p y := by
    intro p hs hx y hy
    rcases List.mem_append.mp hy with hy | hy
    · exact hs y hy
    · exact List.mem_singleton.mp hy ▸ hx
  have hold : ∀ {i : Nat} {y : Scheduled}, seen[i]? = some y → (seen ++ [x])[i]? = some y := by
    intro i y hi
    rw [List.getElem?_append_left (List.getElem?_eq_some_iff.mp hi).1]
    exact hi
  unfold scanNext
  split
  · rename_i hx
    cases best with
    | none => exact hmem h hx
    | some b => exact ⟨hold h.1, h.2.1, hmem h.2.2 fun hle => by omega⟩
  · rename_i hx
    cases best with
    | none =>
      refine ⟨hlast, by omega, hmem (fun y hy hle => ?_) fun _ => .inr ⟨rfl, le_rfl⟩⟩
      have := h y hy
      omega
    | some b =>
      obtain ⟨hi, hdue, hmin⟩ := h
      dsimp only
      split
      · refine ⟨hlast, by omega, hmem (fun y hy hle => ?_) fun _ => Or.inr ⟨rfl, le_rfl⟩⟩
        have := hmin y hy hle
        omega
      · exact ⟨hold hi, hdue, hmem hmin fun _ => by omega⟩

theorem scanReady_best {now : Nat} {seen queue : List Scheduled} {best : Option (Nat × Scheduled)}
    (h : Best now seen best) : Best now (seen ++ queue) (scanReady now seen.length queue best) := by
  induction queue generalizing seen best with
  | nil => rw [List.append_nil]; exact h
  | cons x queue ih =>
    have := ih (h.next x)
    rwa [List.append_assoc, List.length_append, List.length_singleton] at this

/-! ## The messages in flight -/

/-- The list and the heap hold the same messages, numbered up to `seq`. -/
structure SameQueue (seq : Nat) (l : List Scheduled) (q : List (Event Message)) : Prop where
  perm : (q.map Event.scheduled).Perm l
  routed : ∀ ev ∈ q, ev.src = ev.msg.src ∧ ev.dst = ev.msg.dst
  ordered : Heap.Ordered earlier q
  numbered : (l.map (·.seq)).Nodup
  latest : ∀ x ∈ l, x.seq ≤ seq

namespace SameQueue

variable {seq now : Nat} {l l' : List Scheduled} {q q' : List (Event Message)}

theorem empty : SameQueue 0 [] [] where
  perm := .nil
  routed _ h := nomatch h
  ordered j x _ hx := by rw [List.getElem?_nil] at hx; cases hx
  numbered := List.nodup_nil
  latest _ h := nomatch h

theorem push (h : SameQueue seq l q) (due : Nat) (m : Message) :
    SameQueue (seq + 1) (l ++ [{ due, seq := seq + 1, msg := m }])
      (Heap.push earlier { due, seq := seq + 1, src := m.src, dst := m.dst, msg := m } q) := by
  have hp : (Heap.push earlier _ q).Perm (_ :: q) := Heap.push_perm
    { due, seq := seq + 1, src := m.src, dst := m.dst, msg := m : Event Message } q
  refine ⟨?_, ?_, h.ordered.push _, ?_, ?_⟩
  · exact (hp.map _).trans ((h.perm.cons _).trans (List.perm_append_singleton _ _).symm)
  · intro ev hev
    rcases List.mem_cons.mp (hp.subset hev) with rfl | hev
    · exact ⟨rfl, rfl⟩
    · exact h.routed ev hev
  · rw [List.map_append, List.map_singleton, List.nodup_append]
    refine ⟨h.numbered, List.nodup_singleton _, ?_⟩
    intro i hi j hj
    obtain ⟨x, hx, rfl⟩ := List.mem_map.mp hi
    rw [List.mem_singleton.mp hj]
    exact Nat.ne_of_lt (Nat.lt_succ_of_le (h.latest x hx))
  · intro x hx
    rcases List.mem_append.mp hx with hx | hx
    · exact Nat.le_succ_of_le (h.latest x hx)
    · rw [List.mem_singleton.mp hx]

/-- Messages are taken from both. -/
theorem shrink (h : SameQueue seq l q) (hp : (q'.map Event.scheduled).Perm l') (hl : l'.Sublist l)
    (hq : q' ⊆ q) (ho : Heap.Ordered earlier q') : SameQueue seq l' q' where
  perm := hp
  routed ev hev := h.routed ev (hq hev)
  ordered := ho
  numbered := h.numbered.sublist (hl.map _)
  latest x hx := h.latest x (hl.subset hx)

/-- What the scan returns. -/
theorem scan (now : Nat) (l : List Scheduled) : Best now l (scanReady now 0 l none) := by
  have hstart : Best now [] none := fun _ h => nomatch h
  exact scanReady_best hstart

theorem pop_none (h : SameQueue seq l q)
    (hd : (Heap.pop earlier q).filter (fun ev => ev.1.due ≤ now) = none) :
    scanReady now 0 l none = none := by
  have hbest := scan now l
  cases hs : scanReady now 0 l none with
  | none => rfl
  | some found =>
    rw [hs] at hbest
    obtain ⟨hi, hdue, -⟩ := hbest
    obtain ⟨ev, hev, hx⟩ := List.mem_map.mp (h.perm.symm.subset (List.mem_of_getElem? hi))
    cases q with
    | nil => cases hev
    | cons root q =>
      have hroot := h.ordered.root_first (x := root) rfl hev
      rw [not_earlier_iff] at hroot
      have hlate : ¬root.due ≤ now := by
        intro hle
        rw [Heap.pop, Option.filter_some, if_pos (decide_eq_true hle)] at hd
        cases hd
      have : ev.due = found.2.due := congrArg Scheduled.due hx
      omega

/-- The root of the heap is what the scan finds. -/
theorem pop_some {ev : Event Message} (h : SameQueue seq l q)
    (hd : (Heap.pop earlier q).filter (fun ev => ev.1.due ≤ now) = some (ev, q')) :
    ∃ i, scanReady now 0 l none = some (i, ev.scheduled) ∧ SameQueue seq (l.eraseIdx i) q' ∧
      ev ∈ q := by
  obtain ⟨hpop, hdue⟩ := Option.filter_eq_some_iff.mp hd
  replace hdue : ev.due ≤ now := of_decide_eq_true hdue
  have hperm := Heap.pop_perm hpop
  have hev : ev ∈ q := hperm.subset (List.mem_cons_self ..)
  have hmem : ev.scheduled ∈ l := h.perm.subset (List.mem_map_of_mem hev)
  have hroot : q[0]? = some ev := by
    cases q with
    | nil => cases hpop
    | cons x q => cases hpop; rfl
  have hbest := scan now l
  cases hs : scanReady now 0 l none with
  | none =>
    rw [hs] at hbest
    exact absurd (hbest _ hmem) (Nat.not_lt.mpr hdue)
  | some found =>
    obtain ⟨i, x⟩ := found
    rw [hs] at hbest
    obtain ⟨hi, -, hmin⟩ := hbest
    -- neither is before the other, so the two have one number
    have hx : x = ev.scheduled := by
      have hxl := List.mem_of_getElem? hi
      obtain ⟨ev', hev', rfl⟩ := List.mem_map.mp (h.perm.symm.subset hxl)
      have hle := hmin _ hmem hdue
      have hge := h.ordered.root_first hroot hev'
      rw [not_earlier_iff] at hge
      refine List.inj_on_of_nodup_map h.numbered hxl hmem ?_
      simp only [Event.scheduled] at hle ⊢
      omega
    subst hx
    refine ⟨i, rfl, h.shrink ?_ (List.eraseIdx_sublist ..) ?_ (h.ordered.pop hpop), hev⟩
    · obtain ⟨hlt, hget⟩ := List.getElem?_eq_some_iff.mp hi
      have hl := List.getElem_cons_eraseIdx_perm hlt
      rw [hget] at hl
      exact ((hperm.map _).trans (h.perm.trans hl.symm)).cons_inv
    · exact fun y hy => hperm.subset (List.mem_cons_of_mem _ hy)

/-- The messages of one node are taken from both. -/
theorem isolate (h : SameQueue seq l q) (id : Nat) :
    SameQueue seq (l.filter fun x => x.msg.src != id && x.msg.dst != id)
      (Heap.rebuild earlier (q.filter fun ev => !(ev.src == id || ev.dst == id))) := by
  have hp : (Heap.rebuild earlier _).Perm _ :=
    Heap.rebuild_perm (q.filter fun ev => !(ev.src == id || ev.dst == id))
  refine h.shrink ?_ List.filter_sublist ?_ (Heap.Ordered.rebuild _)
  · refine (hp.map _).trans (List.Perm.trans ?_ (h.perm.filter _))
    rw [List.filter_map]
    refine List.Perm.of_eq (congrArg _ (List.filter_congr fun ev hev => ?_))
    obtain ⟨hsrc, hdst⟩ := h.routed ev hev
    rw [hsrc, hdst, Bool.not_or]
    rfl
  · exact fun ev hev => (List.mem_filter.mp (hp.subset hev)).1

end SameQueue

/-! ## The relation -/

variable {ρ : Type}

/-- The two have the same nodes and the same messages in flight. -/
structure Same (s : Simulator ρ) (e : RaftEngine ρ) : Prop where
  now : s.now = e.now
  nodes : s.toDeployment = e.cluster
  rng : s.rng = e.rng
  drop : s.drop = e.drop
  delay : s.delay = e.delay
  seq : s.seq = e.seq
  trace : s.trace = e.trace
  injectors : e.injectors = []
  queue : SameQueue s.seq s.queue e.queue

/-- The next message is the same one. -/
theorem due_cases {s : Simulator ρ} {e : RaftEngine ρ} (h : Same s e) :
    s.nextReady = none ∧ e.due = none ∨
      ∃ i ev q, s.nextReady = some (i, ev.scheduled) ∧ e.due = some (ev, q) ∧ ev ∈ e.queue ∧
        SameQueue s.seq (s.queue.eraseIdx i) q := by
  unfold Simulator.nextReady
  rw [h.now]
  cases he : e.due with
  | none => exact .inl ⟨h.queue.pop_none he, rfl⟩
  | some found =>
    obtain ⟨i, hs, hq, hev⟩ := h.queue.pop_some he
    exact .inr ⟨i, found.1, found.2, hs, rfl, hev, hq⟩

section

variable (rand : Rand ρ) (sha256 : List UInt8 → List UInt8)

theorem schedule_agrees {s : Simulator ρ} {e : RaftEngine ρ} (h : Same s e) (m : Message) :
    Agree Same (s.schedule rand m) (e.schedule raftCluster rand m) := by
  unfold Simulator.schedule Engine.schedule
  rw [h.drop, h.delay, h.rng]
  refine Agree.bind_same fun a _ => ?_
  obtain ⟨fate, rng⟩ := a
  cases fate with
  | none => exact { h with rng := rfl, drop := rfl, delay := rfl }
  | some d =>
    have hb : e.blockedBy m.src m.dst d = "" := by
      rw [blockedBy, h.injectors]
      rfl
    dsimp only [raftCluster]
    rw [hb, if_neg (not_not.mpr rfl)]
    have hq := h.queue.push (s.now + d) m
    exact { h with
      rng := rfl
      drop := rfl
      delay := rfl
      seq := congrArg (· + 1) h.seq
      queue := by
        rw [h.now, h.seq] at hq ⊢
        exact hq }

theorem collect_agrees {s : Simulator ρ} {e : RaftEngine ρ} (h : Same s e) :
    Agree Same (s.collect rand) (e.collect raftCluster rand) := by
  unfold Simulator.collect Engine.collect
  rw [h.nodes]
  refine Agree.foldlM h fun s e id h => ?_
  rw [h.nodes]
  refine Agree.bind_same fun a _ => ?_
  exact Agree.foldlM { h with nodes := rfl } fun s e m h => schedule_agrees rand h m

theorem deliver_agrees {s : Simulator ρ} {e : RaftEngine ρ} (h : Same s e) {i : Nat}
    {ev : Event Message} {q : List (Event Message)} (hev : ev ∈ e.queue)
    (hq : SameQueue s.seq (s.queue.eraseIdx i) q) :
    Agree Same (s.deliver rand sha256 i ev.scheduled) (e.deliver raftCluster rand sha256 ev q) := by
  obtain ⟨hsrc, hdst⟩ := h.queue.routed ev hev
  unfold Simulator.deliver Engine.deliver
  dsimp only [Simulator.record, Engine.record]
  rw [h.nodes, hdst]
  refine Agree.bind_same fun a _ => collect_agrees rand ?_
  refine { h with nodes := rfl, queue := hq, trace := ?_ }
  rw [h.trace, h.now, hsrc]
  rfl

theorem deliverAll_agrees {passes : Nat} {s : Simulator ρ} {e : RaftEngine ρ} (h : Same s e) :
    Agree Same (s.deliverAll rand sha256 passes) (e.deliverAll raftCluster rand sha256 passes) := by
  induction passes generalizing s e with
  | zero =>
    unfold Simulator.deliverAll Engine.deliverAll
    rcases due_cases h with ⟨hs, he⟩ | ⟨i, ev, q, hs, he, -, -⟩
    · rw [hs, he]
      exact h
    · rw [hs, he]
      exact rfl
  | succ passes ih =>
    unfold Simulator.deliverAll Engine.deliverAll
    rcases due_cases h with ⟨hs, he⟩ | ⟨i, ev, q, hs, he, hev, hq⟩
    · rw [hs, he]
      exact h
    · rw [hs, he]
      exact (deliver_agrees rand sha256 h hev hq).bind fun s e h => ih h

theorem step_agrees {passes : Nat} {s : Simulator ρ} {e : RaftEngine ρ} (h : Same s e) :
    Agree Same (s.step rand sha256 passes) (e.step raftCluster rand sha256 passes) := by
  unfold Simulator.step Engine.step Engine.tickAll
  rw [h.nodes, bind_assoc]
  refine Agree.bind_same fun a _ => ?_
  have hticked : Same { s with now := s.now + 1, toDeployment := a }
      { e with now := e.now + 1, cluster := a } :=
    { h with now := congrArg (· + 1) h.now, nodes := rfl }
  exact (collect_agrees rand hticked).bind fun s e h => deliverAll_agrees rand sha256 h

/-! ## The actions -/

/-- The errors of the two packages: the same text, after the name of the package. -/
inductive SameError : Option StorageError → Option StorageError → Prop
  | same (err : Option StorageError) : SameError err err
  | named (text : String) : SameError (some ⟨"sim" ++ text⟩) (some ⟨"raftcluster" ++ text⟩)

theorem SameError.isNone {err err' : Option StorageError} (h : SameError err err') :
    err.isNone = err'.isNone := by
  cases h with
  | same => rfl
  | named => rfl

/-- The outcomes agree, up to the name of the package in an error. -/
def SameOutcome : Outcome → Outcome → Prop
  | .restarted err, .restarted err' => SameError err err'
  | a, b => a = b

theorem restart_agrees (c : Deployment) (id : Nat) :
    Agree (fun a b => SameError a.1 b.1 ∧ a.2 = b.2) (c.restart "sim" id)
      (c.restart "raftcluster" id) := by
  unfold Deployment.restart
  cases c.nodes id with
  | none =>
    have := SameError.named (": unknown node " ++ toString id)
    exact ⟨by simpa only [String.append_assoc] using this, rfl⟩
  | some node =>
    dsimp only
    cases ((c.left id).getD node.store).reboot with
    | error err => exact ⟨.same _, rfl⟩
    | ok stable =>
      dsimp only
      split
      · refine ⟨?_, rfl⟩
        have := SameError.named (": snapshot/WAL base mismatch " ++
          toString stable.snapshot.lastIndex ++ " != " ++ toString stable.wal.base)
        simpa only [StableStore.mismatch, String.append_assoc] using this
      · exact Agree.bind_same fun n _ => ⟨.same _, rfl⟩

theorem liftPanic_agrees {ε α β : Type} {R : α → β → Prop} {x : Except ε α} {y : Except ε β}
    (h : Agree R x y) : Agree R (liftPanic x) (liftPanic y) := by
  cases x with
  | ok a =>
    cases y with
    | ok b => exact h
    | error e => exact h.elim
  | error e =>
    cases y with
    | ok b => exact h.elim
    | error e' => exact congrArg _ h

/-- The result and the state after an action. -/
def SameResult (a : Outcome × Simulator ρ) (b : Outcome × RaftEngine ρ) : Prop :=
  SameOutcome a.1 b.1 ∧ Same a.2 b.2

theorem proposal_agrees {s : Simulator ρ} {e : RaftEngine ρ} (h : Same s e)
    (x : Deployment → Except NodePanic (Bool × Deployment)) :
    Agree SameResult (s.proposal rand x) (RaftEngine.proposal rand x e) := by
  unfold Simulator.proposal RaftEngine.proposal
  rw [h.nodes]
  refine Agree.bind_same fun a _ => ?_
  have hs : Same { s with toDeployment := a.2 } { e with cluster := a.2 } := { h with nodes := rfl }
  dsimp only
  split
  · exact (collect_agrees rand hs).bind fun s e h => ⟨rfl, h⟩
  · exact ⟨rfl, hs⟩

theorem act_agrees {passes : Nat} {s : Simulator ρ} {e : RaftEngine ρ} (h : Same s e) (a : Action) :
    Agree SameResult (s.act rand sha256 passes a) (RaftEngine.act rand sha256 false passes a e) := by
  cases a with
  | step => exact (step_agrees rand sha256 h).bind fun s e h => ⟨rfl, h⟩
  | propose command => exact proposal_agrees rand h _
  | proposeJoint voters => exact proposal_agrees rand h _
  | proposeFinal => exact proposal_agrees rand h _
  | compact id state =>
    dsimp only [Simulator.act, RaftEngine.act]
    rw [h.nodes]
    exact Agree.bind_same fun a _ => ⟨rfl, { h with nodes := rfl }⟩
  | applyEntries id =>
    dsimp only [Simulator.act, RaftEngine.act]
    rw [h.nodes]
    exact Agree.bind_same fun a _ => ⟨rfl, { h with nodes := rfl }⟩
  | restart id =>
    dsimp only [Simulator.act, RaftEngine.act, Simulator.crashRestart]
    rw [h.nodes, bind_assoc]
    refine (liftPanic_agrees (restart_agrees e.cluster id)).bind fun a b hab => ?_
    obtain ⟨err, nodes⟩ := a
    obtain ⟨err', nodes'⟩ := b
    obtain ⟨herr, rfl⟩ := hab
    dsimp only
    rw [Bool.false_or, ← herr.isNone]
    split
    · rename_i hnone
      rw [herr.isNone, Option.isNone_iff_eq_none] at hnone
      exact ⟨hnone ▸ .same none, { h with nodes := rfl, queue := h.queue.isolate id }⟩
    · exact ⟨herr, { h with nodes := rfl }⟩

theorem runActions_agrees {passes : Nat} {actions : List Action} {s : Simulator ρ} {e : RaftEngine ρ}
    (h : Same s e) :
    Agree (fun a b => List.Forall₂ SameOutcome a.1 b.1 ∧ Same a.2 b.2)
      (runActions (Simulator.act rand sha256 passes) actions s)
      (runActions (RaftEngine.act rand sha256 false passes) actions e) := by
  induction actions generalizing s e with
  | nil => exact ⟨.nil, h⟩
  | cons a actions ih =>
    refine (act_agrees rand sha256 h a).bind fun x y hxy => ?_
    exact (ih hxy.2).bind fun x' y' hxy' => ⟨.cons hxy.1 hxy'.1, hxy'.2⟩

/-- A new simulator. -/
def Simulator.first (count : Nat) (c : Config) : Simulator ρ :=
  { count, nodes := firstNodes count, rng := rand.source c.seed, drop := c.dropPermille
    delay := c.maxDelay }

theorem Simulator.new_eq {count : Nat} (c : Config) (h1 : 1 ≤ count) (h64 : count ≤ 64) :
    Simulator.new rand count c = .ok (.first rand count c) := by
  rw [Simulator.new, Deployment.new_eq h1 h64]
  rfl

theorem same_first (count : Nat) (c : Config) :
    Same (.first rand count c) (Engine.new rand c { count, nodes := firstNodes count }) :=
  ⟨rfl, rfl, rfl, rfl, rfl, rfl, rfl, rfl, .empty⟩

end

/-- The engine over the cluster is the simulator: from the start, every sequence of actions has the
same results in both, and ends with the same nodes, clock, trace and messages in flight, or with the
same panic. A node is isolated in the engine when its restart has returned no error. -/
theorem run_agrees (rand : Rand ρ) (sha256 : List UInt8 → List UInt8) (count : Nat) (c : Config)
    (h1 : 1 ≤ count) (h64 : count ≤ 64) :
    ∃ s nodes, Simulator.new rand count c = .ok s ∧ Deployment.new count = .ok nodes ∧
      ∀ passes actions, Agree (fun a b => List.Forall₂ SameOutcome a.1 b.1 ∧ Same a.2 b.2)
        (runActions (Simulator.act rand sha256 passes) actions s)
        (runActions (RaftEngine.act rand sha256 false passes) actions (Engine.new rand c nodes)) := by
  refine ⟨_, _, Simulator.new_eq rand c h1 h64, Deployment.new_eq h1 h64, fun passes actions => ?_⟩
  exact runActions_agrees rand sha256 (same_first rand count c)

/-- Every message has the largest delay, and none is lost. -/
def latest : Rand Unit where
  source _ := ()
  intn n r := (n - 1, r)
  int63n n r := (n - 1, r)

theorem run_agrees_three :
    ∃ s nodes, Simulator.new latest 3 ⟨1, 0, 1⟩ = .ok s ∧ Deployment.new 3 = .ok nodes ∧
      ∀ passes actions, Agree (fun a b => List.Forall₂ SameOutcome a.1 b.1 ∧ Same a.2 b.2)
        (runActions (Simulator.act latest id passes) actions s)
        (runActions (RaftEngine.act latest id false passes) actions
          (Engine.new latest ⟨1, 0, 1⟩ nodes)) :=
  run_agrees latest id 3 ⟨1, 0, 1⟩ (by decide) (by decide)

/-! ## A restart that fails -/

/-- Node 1 is elected. Node 3 has compacted its log and misses the next entry, since it is restarted
while the messages for it are in flight. Node 1 compacts that entry and sends a snapshot, which
faults node 3: its WAL has no entry at the index of the snapshot. -/
def faultingRun : List Action :=
  List.replicate 19 .step ++
    [.applyEntries 3, .compact 3 [], .propose 8, .restart 3, .step, .restart 3, .step, .restart 3,
      .applyEntries 1, .compact 1 [], .step, .step, .step]

theorem failed_restart_diverges :
    ∃ s nodes a b, Simulator.new latest 3 ⟨1, 0, 1⟩ = .ok s ∧ Deployment.new 3 = .ok nodes ∧
      runActions (Simulator.act latest id 10) (faultingRun ++ [.propose 9, .restart 3]) s = .ok a ∧
      runActions (RaftEngine.act latest id true 10) (faultingRun ++ [.propose 9, .restart 3])
        (Engine.new latest ⟨1, 0, 1⟩ nodes) = .ok b ∧
      ¬(b.2.queue.map Event.scheduled).Perm a.2.queue := by
  have hs : (runActions (Simulator.act latest id 10) (faultingRun ++ [.propose 9, .restart 3])
      (.first latest 3 ⟨1, 0, 1⟩)).toOption.map (fun a => a.2.queue.length) = some 3 := by
    decide +kernel
  have he : (runActions (RaftEngine.act latest id true 10) (faultingRun ++ [.propose 9, .restart 3])
      (Engine.new latest ⟨1, 0, 1⟩ { count := 3, nodes := firstNodes 3 })).toOption.map
        (fun b => b.2.queue.length) = some 2 := by
    decide +kernel
  obtain ⟨a, ha, hla⟩ := ok_of_map hs
  obtain ⟨b, hb, hlb⟩ := ok_of_map he
  refine ⟨_, _, a, b, Simulator.new_eq latest _ (by decide) (by decide),
    Deployment.new_eq (by decide) (by decide), ha, hb, fun hp => ?_⟩
  have := hp.length_eq
  rw [List.length_map, hla, hlb] at this
  cases this

end Promtact.Dst
