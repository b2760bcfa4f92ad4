import Promtact.Lib.Bytes
import Promtact.Lib.Heap

/-!
# The simulation engine (`dst/engine.go`, `dst/inject.go`)

The engine owns virtual time and the messages in flight, and drives a protocol that it knows only
through `Protocol` (the Go interfaces `Cluster` and `Wire`). A message is lost or delayed as the
random numbers say, and waits in a heap ordered by the time it is due and the order in which it was
collected.

A step delivers what is due, and what a delivery causes may be due at once. So a step need not end.
`step passes` ends after `passes` deliveries with `Stop.passes`; a panic is `Stop.panic` or
`Stop.int63n`.

`math/rand` and `sha256` are parameters: a stream of draws that the seed determines, and a function.
-/

namespace Promtact.Dst

/-- Why a run of the engine stopped. -/
inductive Stop (ε : Type) where
  | panic (e : ε)
  | int63n
  | passes
  deriving DecidableEq, Repr

/-- `Cluster` and `Wire`. The result of `tick`, `deliver` and `drain` may be a panic. -/
structure Protocol (γ μ ε : Type) where
  nodes : γ → List Nat
  tick : Nat → γ → Except ε γ
  deliver : Nat → μ → γ → Except ε γ
  drain : Nat → γ → Except ε (List μ × γ)
  route : μ → Nat × Nat
  digest : μ → UInt8 × Nat

/-- The methods of `*rand.Rand` that are used, with the state of the stream. -/
structure Rand (ρ : Type) where
  source : Int → ρ
  intn : Nat → ρ → Nat × ρ
  int63n : Nat → ρ → Nat × ρ

/-- A fault: whether a message from `src` to `dst` passes at `now`. -/
structure Injector where
  name : String
  allow : (now src dst delay : Nat) → Bool

/-- `event`. `due` is the source's `at`, `src` and `dst` are `from` and `to`. -/
structure Event (μ : Type) where
  due : Nat
  seq : Nat
  src : Nat
  dst : Nat
  msg : μ
  deriving DecidableEq, Repr

/-- The order of the schedule. -/
def earlier {μ : Type} (a b : Event μ) : Bool :=
  decide (a.due < b.due) || (a.due == b.due && decide (a.seq < b.seq))

theorem earlier_iff {μ : Type} {a b : Event μ} :
    earlier a b = true ↔ a.due < b.due ∨ a.due = b.due ∧ a.seq < b.seq := by
  simp [earlier]

theorem not_earlier_iff {μ : Type} {a b : Event μ} :
    earlier a b = false ↔ b.due < a.due ∨ b.due = a.due ∧ b.seq ≤ a.seq := by
  rw [← Bool.not_eq_true, earlier_iff]
  omega

instance {μ : Type} : Heap.StrictOrder (@earlier μ) where
  asymm h := by
    rw [earlier_iff] at h
    rw [not_earlier_iff]
    omega
  trans h h' := by
    rw [not_earlier_iff] at h h' ⊢
    omega

/-! ## What the engine and the simulator share -/

/-- The parameters of a run: the seed, the loss per 1000 messages and the largest delay. -/
structure Config where
  seed : Int
  dropPermille : Int
  maxDelay : Nat

/-- The draws for one message: `none` if it is lost, and otherwise its delay. `Int63n` panics if its
argument is not positive as an `int64`. -/
def draw {ρ ε : Type} (rand : Rand ρ) (drop : Int) (delay : Nat) (rng : ρ) :
    Except (Stop ε) (Option Nat × ρ) :=
  let (lost, rng) :=
    if 0 < drop then
      let (k, rng) := rand.intn 1000 rng
      (decide ((k : Int) < drop), rng)
    else (false, rng)
  if lost then .ok (none, rng)
  else if 0 < delay then
    if delay + 1 < 2 ^ 63 then
      let (d, rng) := rand.int63n (delay + 1) rng
      .ok (some d, rng)
    else .error .int63n
  else .ok (some 0, rng)

/-- The block of 65 bytes that `record` hashes. -/
def traceBlock (now seq src dst : Nat) (digest : UInt8 × Nat) (trace : List UInt8) : List UInt8 :=
  Bytes.pack [(8, now), (8, seq), (4, src), (4, dst), (1, digest.1.toNat), (8, digest.2)] ++ trace

/-! ## The engine -/

/-- `Engine` without its injectors. -/
structure Engine (γ μ ρ : Type) where
  now : Nat := 0
  cluster : γ
  rng : ρ
  drop : Int
  delay : Nat
  seq : Nat := 0
  queue : List (Event μ) := []
  trace : List UInt8 := List.replicate 32 0
  injectors : List Injector := []
  injected : String → Nat := fun _ => 0

variable {γ μ ε ρ : Type}

/-- `New`. -/
def Engine.new (rand : Rand ρ) (c : Config) (cluster : γ) : Engine γ μ ρ :=
  { cluster, rng := rand.source c.seed, drop := c.dropPermille, delay := c.maxDelay }

namespace Engine

variable (P : Protocol γ μ ε) (rand : Rand ρ) (sha256 : List UInt8 → List UInt8)

/-- The name of the first injector that denies the message, or the empty string. -/
def blockedBy (src dst delay : Nat) (e : Engine γ μ ρ) : String :=
  match e.injectors.find? fun i => !i.allow e.now src dst delay with
  | some i => i.name
  | none => ""

theorem blockedBy_some {src dst delay : Nat} {e : Engine γ μ ρ} {i : Injector}
    (h : (e.injectors.find? fun i => !i.allow e.now src dst delay) = some i) :
    e.blockedBy src dst delay = i.name := by
  rw [blockedBy, h]

theorem blockedBy_none {src dst delay : Nat} {e : Engine γ μ ρ}
    (h : (e.injectors.find? fun i => !i.allow e.now src dst delay) = none) :
    e.blockedBy src dst delay = "" := by
  rw [blockedBy, h]

/-- The body of the inner loop of `Collect`. -/
def schedule (m : μ) (e : Engine γ μ ρ) : Except (Stop ε) (Engine γ μ ρ) := do
  let (fate, rng) ← draw rand e.drop e.delay e.rng
  match fate with
  | none => pure { e with rng }
  | some d =>
    let (src, dst) := P.route m
    let blocked := e.blockedBy src dst d
    if blocked ≠ "" then
      pure { e with rng, injected := Function.update e.injected blocked (e.injected blocked + 1) }
    else
      pure { e with
        rng
        seq := e.seq + 1
        queue := Heap.push earlier { due := e.now + d, seq := e.seq + 1, src, dst, msg := m } e.queue }

/-- A panic of the target stops the run. -/
def liftPanic {α : Type} : Except ε α → Except (Stop ε) α
  | .ok a => .ok a
  | .error e => .error (.panic e)

/-- `Collect`. -/
def collect (e : Engine γ μ ρ) : Except (Stop ε) (Engine γ μ ρ) :=
  (P.nodes e.cluster).foldlM (fun e id => do
    let (out, cluster) ← liftPanic (P.drain id e.cluster)
    out.foldlM (fun e m => e.schedule P rand m) { e with cluster }) e

/-- The trace takes in a delivery. -/
def record (ev : Event μ) (e : Engine γ μ ρ) : Engine γ μ ρ :=
  { e with trace := sha256 (traceBlock e.now ev.seq ev.src ev.dst (P.digest ev.msg) e.trace) }

/-- The message that is delivered next, and the queue without it. -/
def due (e : Engine γ μ ρ) : Option (Event μ × List (Event μ)) :=
  (Heap.pop earlier e.queue).filter fun (ev, _) => ev.due ≤ e.now

/-- The body of the loop of `Step`. -/
def deliver (ev : Event μ) (queue : List (Event μ)) (e : Engine γ μ ρ) :
    Except (Stop ε) (Engine γ μ ρ) := do
  let e := { e with queue }.record P sha256 ev
  let cluster ← liftPanic (P.deliver ev.dst ev.msg e.cluster)
  { e with cluster }.collect P rand

/-- The loop of `Step`. -/
def deliverAll : Nat → Engine γ μ ρ → Except (Stop ε) (Engine γ μ ρ)
  | passes, e =>
    match e.due with
    | none => pure e
    | some (ev, queue) =>
      match passes with
      | 0 => throw .passes
      | passes + 1 => do deliverAll passes (← e.deliver P rand sha256 ev queue)

/-- The first half of `Step`: every node ticks. -/
def tickAll (e : Engine γ μ ρ) : Except (Stop ε) (Engine γ μ ρ) := do
  let cluster ← liftPanic ((P.nodes e.cluster).foldlM (fun c id => P.tick id c) e.cluster)
  { e with now := e.now + 1, cluster }.collect P rand

/-- `Step`. -/
def step (passes : Nat) (e : Engine γ μ ρ) : Except (Stop ε) (Engine γ μ ρ) := do
  deliverAll P rand sha256 passes (← e.tickAll P rand)

/-- `Isolate`, with the number of messages that it discards. -/
def isolate (node : Nat) (e : Engine γ μ ρ) : Nat × Engine γ μ ρ :=
  let kept := e.queue.filter fun ev => !(ev.src == node || ev.dst == node)
  (e.queue.length - kept.length, { e with queue := Heap.rebuild earlier kept })

/-- `Inject`. -/
def inject (injectors : List Injector) (e : Engine γ μ ρ) : Engine γ μ ρ :=
  { e with injectors := e.injectors ++ injectors }

end Engine

end Promtact.Dst
