import Promtact.Dst.Engine
import Promtact.Lib.Sim

/-!
# Runs of the engine (`dst/engine.go`)

The engine of `Promtact.Dst.Engine` as a program that keeps its state when it panics, so that a run
may go on after a panic that its caller has recovered from. A run also keeps what the engine
forgets: every message that was drained with the draws for it, and every message that was delivered
or discarded (`Run`).

A run is a list of actions of the caller (`Act`) from `New`: steps, `Collect`, `Isolate`, `Inject`,
and anything done to the cluster. `perform_engine` is the connection with `Engine`: without the
record an action is what it is there.
-/

namespace Promtact.Dst

open Refine

/-- The draws for one message. `int63n` is the panic of `Int63n`. -/
inductive Fate where
  | lost
  | delayed (d : Nat)
  | int63n
  deriving DecidableEq, Repr

/-- The draws for one message as in `draw`, with the stream after them in every case. -/
def roll {ρ : Type} (rand : Rand ρ) (drop : Int) (delay : Nat) (rng : ρ) : Fate × ρ :=
  let (lost, rng) :=
    if 0 < drop then
      let (k, rng) := rand.intn 1000 rng
      (decide ((k : Int) < drop), rng)
    else (false, rng)
  if lost then (.lost, rng)
  else if 0 < delay then
    if delay + 1 < 2 ^ 63 then
      let (d, rng) := rand.int63n (delay + 1) rng
      (.delayed d, rng)
    else (.int63n, rng)
  else (.delayed 0, rng)

theorem draw_eq_roll {ρ ε : Type} (rand : Rand ρ) (drop : Int) (delay : Nat) (rng : ρ) :
    (draw rand drop delay rng : Except (Stop ε) _) =
      match roll rand drop delay rng with
      | (.lost, rng) => .ok (none, rng)
      | (.delayed d, rng) => .ok (some d, rng)
      | (.int63n, _) => .error .int63n := by
  unfold draw roll
  generalize (if 0 < drop then _ else _ : Bool × ρ) = loss
  obtain ⟨lost, rng'⟩ := loss
  cases lost with
  | true => rfl
  | false =>
    simp only [Bool.false_eq_true, if_false]
    split
    · split <;> rfl
    · rfl

/-- A message that was drained: the time, the injectors that were registered, the draws, and what
entered the schedule. -/
structure Drained (μ : Type) where
  msg : μ
  now : Nat
  injectors : List Injector
  fate : Fate
  event : Option (Event μ)

/-- The engine with the record of its run. -/
structure Run (γ μ ρ : Type) extends Engine γ μ ρ where
  drained : List (Drained μ) := []
  delivered : List (Event μ) := []
  discarded : List (Event μ) := []

variable {γ μ ε ρ : Type}

/-- The methods of a run. -/
abbrev RunM (γ μ ε ρ : Type) := EStateM (Stop ε) (Run γ μ ρ)

namespace Run

/-- A run before its first step. -/
def new (rand : Rand ρ) (c : Config) (cluster : γ) : Run γ μ ρ :=
  { toEngine := Engine.new rand c cluster }

section Program

variable (P : Protocol γ μ ε) (rand : Rand ρ) (sha256 : List UInt8 → List UInt8)

/-- A call of the cluster. After a panic the caller may do anything to it (`Act.drive`). -/
def call {α : Type} (f : γ → Except ε (α × γ)) : RunM γ μ ε ρ α := do
  match f (← get).cluster with
  | .ok (a, cluster) =>
    modify fun r => { r with cluster }
    pure a
  | .error e => throw (.panic e)

/-- A message is drained. -/
def log (m : μ) (fate : Fate) (event : Option (Event μ)) (rng : ρ) (r : Run γ μ ρ) : Run γ μ ρ :=
  { r with
    rng
    drained := r.drained ++ [{ msg := m, now := r.now, injectors := r.injectors, fate, event }] }

/-- The body of the inner loop of `Collect`, up to the panic of `Int63n`. -/
def settle (m : μ) (r : Run γ μ ρ) : Run γ μ ρ :=
  match roll rand r.drop r.delay r.rng with
  | (.delayed d, rng) =>
    let (src, dst) := P.route m
    let blocked := r.blockedBy src dst d
    if blocked ≠ "" then
      { r.log m (.delayed d) none rng with
        injected := Function.update r.injected blocked (r.injected blocked + 1) }
    else
      let ev : Event μ := { due := r.now + d, seq := r.seq + 1, src, dst, msg := m }
      { r.log m (.delayed d) (some ev) rng with
        seq := r.seq + 1
        queue := Heap.push earlier ev r.queue }
  | (fate, rng) => r.log m fate none rng

/-- The body of the loops of `Collect`: the message is queued or dropped, and the generator advances
in either case. -/
def schedule (m : μ) : RunM γ μ ε ρ Unit := do
  let r ← get
  modify (settle P rand m)
  if (roll rand r.drop r.delay r.rng).1 = .int63n then throw .int63n

/-- `Collect`. -/
def collect : RunM γ μ ε ρ Unit := do
  (P.nodes (← get).cluster).forM fun id => do
    let out ← call (P.drain id)
    out.forM (schedule P rand)

/-- A message leaves the queue and is recorded. -/
def take (ev : Event μ) (queue : List (Event μ)) (r : Run γ μ ρ) : Run γ μ ρ :=
  { r with
    toEngine := { r.toEngine with queue }.record P sha256 ev
    delivered := r.delivered ++ [ev] }

/-- The body of the loop of `Step`. -/
def deliver (ev : Event μ) (queue : List (Event μ)) : RunM γ μ ε ρ Unit := do
  modify (take P sha256 ev queue)
  call fun c => (P.deliver ev.dst ev.msg c).map ((), ·)
  collect P rand

/-- The loop of `Step`. -/
def deliverAll : Nat → RunM γ μ ε ρ Unit
  | 0 => do
    match (← get).due with
    | none => pure ()
    | some _ => throw .passes
  | passes + 1 => do
    match (← get).due with
    | none => pure ()
    | some (ev, queue) => do
      deliver P rand sha256 ev queue
      deliverAll passes

/-- The first half of `Step`: every node ticks. -/
def tickAll : RunM γ μ ε ρ Unit := do
  modify fun r => { r with now := r.now + 1 }
  (P.nodes (← get).cluster).forM fun id => call fun c => (P.tick id c).map ((), ·)
  collect P rand

/-- `Step`. -/
def step (passes : Nat) : RunM γ μ ε ρ Unit := do
  tickAll P rand
  deliverAll P rand sha256 passes

/-- `Isolate`. -/
def isolate (node : Nat) (r : Run γ μ ρ) : Run γ μ ρ :=
  { r with
    toEngine := (r.toEngine.isolate node).2
    discarded := r.discarded ++ r.queue.filter fun ev => ev.src == node || ev.dst == node }

/-- `Inject`. -/
def inject (injectors : List Injector) (r : Run γ μ ρ) : Run γ μ ρ :=
  { r with toEngine := r.toEngine.inject injectors }

end Program

end Run

/-- What the caller of the engine does. `drive` is anything done to the cluster. -/
inductive Act (γ : Type) where
  | step (passes : Nat)
  | collect
  | isolate (node : Nat)
  | inject (injectors : List Injector)
  | drive (f : γ → γ)

namespace Run

section Program

variable (P : Protocol γ μ ε) (rand : Rand ρ) (sha256 : List UInt8 → List UInt8)

/-- What an act does to the run. -/
def perform : Act γ → RunM γ μ ε ρ Unit
  | .step passes => step P rand sha256 passes
  | .collect => collect P rand
  | .isolate node => modify (isolate node)
  | .inject injectors => modify (inject injectors)
  | .drive f => modify fun r => { r with cluster := f r.cluster }

/-- A run. It goes on after a panic, and ends within a step that does not return. -/
def play : List (Act γ) → Run γ μ ρ → Run γ μ ρ
  | [], r => r
  | act :: rest, r =>
    match perform P rand sha256 act r with
    | .ok _ r' => play rest r'
    | .error .passes r' => r'
    | .error _ r' => play rest r'

/-! ## What one step can do -/

/-- The steps of which `Collect` and the loop of `Step` are made. -/
inductive Flow : Run γ μ ρ → Run γ μ ρ → Prop
  | settle (m : μ) (r : Run γ μ ρ) : Flow r (settle P rand m r)
  | cluster (c : γ) (r : Run γ μ ρ) : Flow r { r with cluster := c }
  | take (ev : Event μ) (queue : List (Event μ)) (r : Run γ μ ρ) (h : r.due = some (ev, queue)) :
    Flow r (take P sha256 ev queue r)

/-- The steps of which every action is made. -/
inductive Atomic : Run γ μ ρ → Run γ μ ρ → Prop
  | flow {r r' : Run γ μ ρ} (h : Flow P rand sha256 r r') : Atomic r r'
  | tick (r : Run γ μ ρ) : Atomic r { r with now := r.now + 1 }
  | isolate (node : Nat) (r : Run γ μ ρ) : Atomic r (isolate node r)
  | inject (injectors : List Injector) (r : Run γ μ ρ) : Atomic r (inject injectors r)

variable {P rand sha256}

theorem call_made {α : Type} (f : γ → Except ε (α × γ)) : Made (Flow P rand sha256) (call f) := by
  intro r
  refine Sim.seq_get ?_
  split
  · exact Sim.step (.cluster _ r) (Sim.seq_update (Sim.ret rfl))
  · exact Sim.fail rfl

theorem schedule_made (m : μ) : Made (Flow P rand sha256) (schedule P rand m) := by
  intro r
  refine Sim.seq_get (Sim.step (.settle m r) (Sim.seq_update ?_))
  exact Sim.ite (fun _ => Sim.fail rfl) fun _ => Sim.ret rfl

theorem collect_made : Made (Flow P rand sha256) (collect P rand) := fun r =>
  Sim.seq_get (Made.each (fun _ _ => (call_made _).seq fun _ =>
    Made.each fun m _ => schedule_made m) r)

theorem deliver_made {ev : Event μ} {queue : List (Event μ)} {r : Run γ μ ρ}
    (h : r.due = some (ev, queue)) : Sim (Flow P rand sha256) (fun w r => w = r) r
      (deliver P rand sha256 ev queue) r fun _ w r => w = r :=
  Sim.step (.take ev queue r h) (Sim.seq_update (((call_made _).seq fun _ => collect_made) _))

theorem deliverAll_made (passes : Nat) :
    Made (Flow P rand sha256) (deliverAll P rand sha256 passes) := by
  induction passes with
  | zero =>
    intro r
    unfold deliverAll
    refine Sim.seq_get ?_
    split
    · exact Sim.ret rfl
    · exact Sim.fail rfl
  | succ passes ih =>
    intro r
    unfold deliverAll
    refine Sim.seq_get ?_
    split
    · exact Sim.ret rfl
    · rename_i ev queue hdue
      exact (deliver_made hdue).seq fun _ w _ _ hw => hw ▸ ih w

theorem tickAll_made : Made (Atomic P rand sha256) (tickAll P rand) := fun r =>
  Sim.step (.tick r) (Sim.seq_update (Sim.seq_get
    ((((Made.each fun _ _ => call_made _).seq fun _ => collect_made).mono .flow) _)))

theorem step_made (passes : Nat) : Made (Atomic P rand sha256) (step P rand sha256 passes) :=
  tickAll_made.seq fun _ => (deliverAll_made passes).mono .flow

theorem perform_made (act : Act γ) : Made (Atomic P rand sha256) (perform P rand sha256 act) := by
  cases act with
  | step passes => exact step_made passes
  | collect => exact collect_made.mono .flow
  | isolate node => exact fun r => Sim.step (.isolate node r) (Sim.update rfl)
  | inject injectors => exact fun r => Sim.step (.inject injectors r) (Sim.update rfl)
  | drive f => exact fun r => Sim.step (.flow (.cluster _ r)) (Sim.update rfl)

/-- Every run is made of atomic steps. -/
theorem play_atomic (acts : List (Act γ)) (r : Run γ μ ρ) :
    Relation.ReflTransGen (Atomic P rand sha256) r (play P rand sha256 acts r) := by
  induction acts generalizing r with
  | nil => exact .refl
  | cons act rest ih =>
    have hact : Relation.ReflTransGen (Atomic P rand sha256) r
      (finalState (perform P rand sha256 act r)) := (perform_made act).final r
    unfold play
    split
    all_goals
      rename_i hr
      rw [hr] at hact
    · exact hact.trans (ih _)
    · exact hact
    · exact hact.trans (ih _)

/-- The rule for what holds in every state of a run. -/
theorem play_induction {I : Run γ μ ρ → Prop} {r : Run γ μ ρ} (acts : List (Act γ)) (h : I r)
    (hstep : ∀ {r r'}, Atomic P rand sha256 r r' → I r → I r') : I (play P rand sha256 acts r) := by
  have hreach : Relation.ReflTransGen (Atomic P rand sha256) r (play P rand sha256 acts r) :=
    play_atomic acts r
  generalize play P rand sha256 acts r = r' at hreach ⊢
  induction hreach with
  | refl => exact h
  | tail _ hs ih => exact hstep hs ih

theorem deliverAll_none {passes : Nat} {r : Run γ μ ρ} (h : r.due = none) :
    deliverAll P rand sha256 passes r = .ok () r := by
  cases passes with
  | zero =>
    show (match r.due with | none => _ | some _ => _ : RunM γ μ ε ρ Unit) r = _
    rw [h]
    rfl
  | succ passes =>
    show (match r.due with | none => _ | some (ev, queue) => _ : RunM γ μ ε ρ Unit) r = _
    rw [h]
    rfl

theorem deliverAll_stop {r : Run γ μ ρ} {next : Event μ × List (Event μ)} (h : r.due = some next) :
    deliverAll P rand sha256 0 r = .error .passes r := by
  show (match r.due with | none => _ | some _ => _ : RunM γ μ ε ρ Unit) r = _
  rw [h]
  rfl

theorem deliverAll_succ {passes : Nat} {r : Run γ μ ρ} {next : Event μ × List (Event μ)}
    (h : r.due = some next) : deliverAll P rand sha256 (passes + 1) r =
      (deliver P rand sha256 next.1 next.2 >>= fun _ => deliverAll P rand sha256 passes) r := by
  show (match r.due with | none => _ | some (ev, queue) => _ : RunM γ μ ε ρ Unit) r = _
  rw [h]

theorem schedule_run (m : μ) (r : Run γ μ ρ) : (schedule P rand m : RunM γ μ ε ρ Unit) r =
    if (roll rand r.drop r.delay r.rng).1 = .int63n then .error .int63n (settle P rand m r)
    else .ok () (settle P rand m r) := by
  show (ite _ _ _ : RunM γ μ ε ρ Unit) (settle P rand m r) = _
  split <;> rfl

/-! ## Without the record -/

/-- The result of a program as the engine of `Promtact.Dst.Engine` has it. -/
def bare : EStateM.Result (Stop ε) (Run γ μ ρ) Unit → Except (Stop ε) (Engine γ μ ρ)
  | .ok _ r => .ok r.toEngine
  | .error s _ => .error s

/-- Without the record the program is `f`. -/
def Bare (x : RunM γ μ ε ρ Unit) (f : Engine γ μ ρ → Except (Stop ε) (Engine γ μ ρ)) : Prop :=
  ∀ r, bare (x r) = f r.toEngine

theorem Bare.seq {x : RunM γ μ ε ρ Unit} {y : Unit → RunM γ μ ε ρ Unit}
    {f g : Engine γ μ ρ → Except (Stop ε) (Engine γ μ ρ)} (hx : Bare x f) (hy : Bare (y ()) g) :
    Bare (x >>= y) fun e => f e >>= g := by
  intro r
  have h := hx r
  show bare (EStateM.bind x y r) = f r.toEngine >>= g
  rw [← h, EStateM.bind]
  cases x r with
  | ok a r' => exact hy r'
  | error e r' => rfl

theorem Bare.each {β : Type} {l : List β} {x : β → RunM γ μ ε ρ Unit}
    {f : Engine γ μ ρ → β → Except (Stop ε) (Engine γ μ ρ)} (h : ∀ b, Bare (x b) (f · b)) :
    Bare (l.forM x) (l.foldlM f) := by
  induction l with
  | nil => exact fun r => rfl
  | cons b l ih =>
    intro r
    show bare ((x b >>= fun _ => l.forM x) r) = (b :: l).foldlM f r.toEngine
    rw [List.foldlM_cons]
    exact ((h b).seq ih) r

theorem call_ok {α : Type} {f : γ → Except ε (α × γ)} {r : Run γ μ ρ} {a : α} {c : γ}
    (h : f r.cluster = .ok (a, c)) : (call f : RunM γ μ ε ρ α) r = .ok a { r with cluster := c } := by
  show (match f r.cluster with | .ok (a, cluster) => _ | .error e => _ : RunM γ μ ε ρ α) r = _
  rw [h]
  rfl

theorem call_error {α : Type} {f : γ → Except ε (α × γ)} {r : Run γ μ ρ} {e : ε}
    (h : f r.cluster = .error e) : (call f : RunM γ μ ε ρ α) r = .error (.panic e) r := by
  show (match f r.cluster with | .ok (a, cluster) => _ | .error e => _ : RunM γ μ ε ρ α) r = _
  rw [h]
  rfl

theorem Bare.call {α : Type} {f : γ → Except ε (α × γ)} {y : α → RunM γ μ ε ρ Unit}
    {g : α → Engine γ μ ρ → Except (Stop ε) (Engine γ μ ρ)} (h : ∀ a, Bare (y a) (g a)) :
    Bare (call f >>= y) fun e => Engine.liftPanic (f e.cluster) >>= fun p =>
      g p.1 { e with cluster := p.2 } := by
  intro r
  show bare (EStateM.bind (Run.call f) y r) = Engine.liftPanic (f r.cluster) >>= _
  cases hf : f r.cluster with
  | ok p =>
    rw [EStateM.bind, call_ok hf]
    exact h p.1 _
  | error e =>
    rw [EStateM.bind, call_error hf]
    rfl

theorem schedule_bare (m : μ) : Bare (schedule P rand m) (Engine.schedule P rand m) := by
  intro r
  rw [Engine.schedule, draw_eq_roll, schedule_run]
  unfold settle
  cases roll rand r.drop r.delay r.rng with
  | mk fate rng =>
    cases fate with
    | lost => rfl
    | int63n => rfl
    | delayed d =>
      show bare (.ok () (ite _ _ _)) = ite _ _ _
      split <;> rfl

theorem collect_bare : Bare (collect P rand) (Engine.collect P rand) := fun r =>
  Bare.each (fun _ => Bare.call fun _ => Bare.each schedule_bare) r

theorem liftPanic_map {α β : Type} (x : Except ε α) (f : α → β)
    (g : β → Except (Stop ε) (Engine γ μ ρ)) :
    (Engine.liftPanic (x.map f) >>= g) = Engine.liftPanic x >>= fun a => g (f a) := by
  cases x <;> rfl

theorem deliver_bare (ev : Event μ) (queue : List (Event μ)) :
    Bare (deliver P rand sha256 ev queue) (Engine.deliver P rand sha256 ev queue) := by
  intro r
  have h := (Bare.call (f := fun c => (P.deliver ev.dst ev.msg c).map ((), ·))
    (y := fun _ => collect P rand) fun _ => collect_bare) (take P sha256 ev queue r)
  simp only [liftPanic_map] at h
  exact h

theorem deliverAll_bare (passes : Nat) :
    Bare (deliverAll P rand sha256 passes) (Engine.deliverAll P rand sha256 passes) := by
  induction passes with
  | zero =>
    intro r
    unfold Engine.deliverAll
    cases hdue : r.due with
    | none => rw [deliverAll_none hdue]; rfl
    | some next => rw [deliverAll_stop hdue]; rfl
  | succ passes ih =>
    intro r
    unfold Engine.deliverAll
    cases hdue : r.due with
    | none => rw [deliverAll_none hdue]; rfl
    | some next =>
      rw [deliverAll_succ hdue]
      exact ((deliver_bare next.1 next.2).seq ih) r

/-- The ticks of the nodes change the cluster only. -/
theorem ticks_eq (ids : List Nat) (e : Engine γ μ ρ) :
    (ids.foldlM (fun e id => Engine.liftPanic (P.tick id e.cluster) >>= fun cluster =>
        pure { e with cluster }) e : Except (Stop ε) (Engine γ μ ρ)) =
      Engine.liftPanic (ids.foldlM (fun c id => P.tick id c) e.cluster) >>= fun cluster =>
        pure { e with cluster } := by
  induction ids generalizing e with
  | nil => rfl
  | cons id ids ih =>
    rw [List.foldlM_cons, List.foldlM_cons]
    cases P.tick id e.cluster with
    | ok c => exact ih { e with cluster := c }
    | error e => rfl

theorem ticks_bare (ids : List Nat) :
    Bare (ids.forM fun id => call fun c => (P.tick id c).map ((), ·) : RunM γ μ ε ρ Unit)
      fun e => Engine.liftPanic (ids.foldlM (fun c id => P.tick id c) e.cluster) >>= fun cluster =>
        pure { e with cluster } := by
  intro r
  refine Eq.trans (Bare.each (fun id r => ?_) r) (ticks_eq ids r.toEngine)
  show _ = Engine.liftPanic (P.tick id r.cluster) >>= _
  cases h : P.tick id r.cluster with
  | ok c => rw [call_ok (a := ()) (c := c) (by rw [h]; rfl)]; rfl
  | error e => rw [call_error (e := e) (by rw [h]; rfl)]; rfl

theorem tickAll_bare : Bare (tickAll P rand) (Engine.tickAll P rand) := by
  intro r
  refine (((ticks_bare (P.nodes r.cluster)).seq collect_bare) { r with now := r.now + 1 }).trans ?_
  show (Engine.liftPanic ((P.nodes r.cluster).foldlM (fun c id => P.tick id c) r.cluster) >>= _) >>= _
    = _
  rw [bind_assoc]
  rfl

theorem step_bare (passes : Nat) :
    Bare (step P rand sha256 passes) (Engine.step P rand sha256 passes) :=
  tickAll_bare.seq (deliverAll_bare passes)

/-- An action of the caller is the method of the engine. -/
theorem perform_engine (act : Act γ) : Bare (perform P rand sha256 act) fun e =>
    match act with
    | .step passes => e.step P rand sha256 passes
    | .collect => e.collect P rand
    | .isolate node => .ok (e.isolate node).2
    | .inject injectors => .ok (e.inject injectors)
    | .drive f => .ok { e with cluster := f e.cluster } := by
  cases act with
  | step passes => exact step_bare passes
  | collect => exact collect_bare
  | isolate node | inject injectors | drive f => exact fun r => rfl

end Program

end Run

end Promtact.Dst
