import Promtact.Dst.RaftCluster

/-!
# The frozen simulator (`sim/sim.go`, `sim/crash.go`)

The simulator drives the nodes of a `Deployment` itself. The messages in flight are in a list, in
the order in which they were collected; a scan looks for the first that is due.
-/

namespace Promtact.Dst

open Raft Engine

/-- `scheduled`. `due` is the source's `at`. -/
structure Scheduled where
  due : Nat
  seq : Nat
  msg : Message
  deriving DecidableEq, Repr

/-- `Simulator`: a cluster of nodes with its own queue and generator. -/
structure Simulator (ρ : Type) extends Deployment where
  now : Nat := 0
  rng : ρ
  drop : Int
  delay : Nat
  seq : Nat := 0
  queue : List Scheduled := []
  trace : List UInt8 := List.replicate 32 0

/-- The body of the loop of `nextReady`, with the message at the index `best`. -/
def scanNext (now i : Nat) (x : Scheduled) (best : Option (Nat × Scheduled)) :
    Option (Nat × Scheduled) :=
  if x.due > now then best
  else match best with
    | none => some (i, x)
    | some (_, y) => if x.due < y.due ∨ (x.due = y.due ∧ x.seq < y.seq) then some (i, x) else best

/-- The loop of `nextReady`: the earliest message that is due, and its index. -/
def scanReady (now : Nat) : Nat → List Scheduled → Option (Nat × Scheduled) → Option (Nat × Scheduled)
  | _, [], best => best
  | i, x :: queue, best => scanReady now (i + 1) queue (scanNext now i x best)

namespace Simulator

variable {ρ : Type} (rand : Rand ρ) (sha256 : List UInt8 → List UInt8)

/-- `New`. -/
def new (count : Nat) (c : Config) : Except NodePanic (Simulator ρ) := do
  let nodes ← Deployment.new count
  pure { toDeployment := nodes, rng := rand.source c.seed, drop := c.dropPermille
         delay := c.maxDelay }

/-- The body of the inner loop of `collect`. -/
def schedule (m : Message) (s : Simulator ρ) : Except (Stop NodePanic) (Simulator ρ) := do
  let (fate, rng) ← draw rand s.drop s.delay s.rng
  match fate with
  | none => pure { s with rng }
  | some d => pure { s with
      rng
      seq := s.seq + 1
      queue := s.queue ++ [{ due := s.now + d, seq := s.seq + 1, msg := m }] }

/-- `collect`: the queues of all nodes, lowest id first. -/
def collect (s : Simulator ρ) : Except (Stop NodePanic) (Simulator ρ) :=
  s.ids.foldlM (fun s id => do
    let (out, nodes) ← liftPanic (s.toDeployment.drain id)
    out.foldlM (fun s m => s.schedule rand m) { s with toDeployment := nodes }) s

/-- The index of the first message that is due. -/
def nextReady (s : Simulator ρ) : Option (Nat × Scheduled) := scanReady s.now 0 s.queue none

/-- The trace takes in a delivery. -/
def record (x : Scheduled) (s : Simulator ρ) : Simulator ρ :=
  { s with trace := sha256 (traceBlock s.now x.seq x.msg.src x.msg.dst
    (typeCode x.msg.type, x.msg.term) s.trace) }

/-- The body of the loop of `Step`. -/
def deliver (i : Nat) (x : Scheduled) (s : Simulator ρ) :
    Except (Stop NodePanic) (Simulator ρ) := do
  let s := { s with queue := s.queue.eraseIdx i }.record sha256 x
  let nodes ← liftPanic (s.toDeployment.deliver x.msg.dst x.msg)
  { s with toDeployment := nodes }.collect rand

/-- The loop of `Step`. -/
def deliverAll : Nat → Simulator ρ → Except (Stop NodePanic) (Simulator ρ)
  | passes, s =>
    match s.nextReady with
    | none => pure s
    | some (i, x) =>
      match passes with
      | 0 => throw .passes
      | passes + 1 => do deliverAll passes (← s.deliver rand sha256 i x)

/-- `Step`. -/
def step (passes : Nat) (s : Simulator ρ) : Except (Stop NodePanic) (Simulator ρ) := do
  let nodes ← liftPanic (s.ids.foldlM (fun c id => Deployment.tick id c) s.toDeployment)
  let s ← { s with now := s.now + 1, toDeployment := nodes }.collect rand
  deliverAll rand sha256 passes s

/-- `Propose`, `ProposeJoint` and `ProposeFinal`, which collect what an accepted proposal sends. -/
def proposal (x : Deployment → Except NodePanic (Bool × Deployment)) (s : Simulator ρ) :
    Except (Stop NodePanic) (Outcome × Simulator ρ) := do
  let (ok, nodes) ← liftPanic (x s.toDeployment)
  let s := { s with toDeployment := nodes }
  if ok then do
    let s ← s.collect rand
    pure (.accepted true, s)
  else pure (.accepted false, s)

/-- `CrashRestart`. It returns before it discards messages if the node cannot be restarted. -/
def crashRestart (id : Nat) (s : Simulator ρ) :
    Except (Stop NodePanic) (Option StorageError × Simulator ρ) := do
  let (err, nodes) ← liftPanic (s.toDeployment.restart "sim" id)
  let s := { s with toDeployment := nodes }
  if err.isNone then
    pure (none, { s with queue := s.queue.filter fun x => x.msg.src != id && x.msg.dst != id })
  else pure (err, s)

/-- An action on the simulator. -/
def act (passes : Nat) (a : Action) (s : Simulator ρ) :
    Except (Stop NodePanic) (Outcome × Simulator ρ) :=
  match a with
  | .step => do
    let s ← s.step rand sha256 passes
    pure (.stepped, s)
  | .propose command => proposal rand (Deployment.propose command) s
  | .proposeJoint voters => proposal rand (Deployment.proposeJoint voters) s
  | .proposeFinal => proposal rand Deployment.proposeFinal s
  | .compact id state => do
    let (ok, nodes) ← liftPanic (s.toDeployment.compact id state)
    pure (.accepted ok, { s with toDeployment := nodes })
  | .applyEntries id => do
    let (entries, nodes) ← liftPanic (s.toDeployment.applyEntries id)
    pure (.applied entries, { s with toDeployment := nodes })
  | .restart id => do
    let (err, s) ← s.crashRestart id
    pure (.restarted err, s)

end Simulator

end Promtact.Dst
