import Promtact.Dst.Schedule

/-!
# Scenarios (`dst/scenario/scenario.go`, `dst/inject.go`)

A scenario is a run that is read from a file: the parameters of the engine, the number of steps and
the faults. `Validate` bounds neither the delay nor the steps. `accepted_scenario_runs_iff` says
which of the accepted scenarios can be run on every cluster: those with a delay for which the
argument of `Int63n` is positive and with times that fit in 64 bits, and those that lose every
message.

`strconv.ParseInt` is a parameter.
-/

namespace Promtact.Dst

open Refine

/-- `Fault.Type`. -/
inductive FaultType where
  | split
  | isolate
  | link
  | other (text : String)
  deriving DecidableEq, Repr

/-- `Fault`. `src`, `dst` and `stop` are the source's `From`, `To` and `End`. -/
structure Fault where
  type : FaultType
  a : List Nat := []
  b : List Nat := []
  nodes : List Nat := []
  src : Nat := 0
  dst : Nat := 0
  start : UInt64 := 0
  stop : UInt64 := 0
  deriving DecidableEq, Repr

/-- The fields of `Scenario` that decide about the engine and its faults. -/
structure Scenario where
  seed : String
  nodes : Int
  steps : UInt64
  dropPermille : Int := 0
  maxDelay : UInt64 := 0
  faults : List Fault := []
  deriving DecidableEq, Repr

/-- The most nodes of a scenario. -/
def maxNodes : Int := 64

/-! ## The injectors -/

/-- `%v` of a list of nodes. -/
def showNodes (nodes : List Nat) : String := "[" ++ " ".intercalate (nodes.map toString) ++ "]"

/-- `Split`: no message between the two sides. -/
def splitFault (a b : List Nat) : Injector where
  name := "split" ++ showNodes a ++ "|" ++ showNodes b
  allow _ src dst _ :=
    !(decide (src ∈ a) && decide (dst ∈ b)) && !(decide (src ∈ b) && decide (dst ∈ a))

/-- `Isolate`: no message from or to the nodes. -/
def isolateFault (nodes : List Nat) : Injector where
  name := "isolate" ++ showNodes nodes
  allow _ src dst _ := !decide (src ∈ nodes) && !decide (dst ∈ nodes)

/-- `Link`: no message on one directed link. -/
def linkFault (src dst : Nat) : Injector where
  name := "link" ++ toString src ++ "->" ++ toString dst
  allow _ source target _ := source != src || target != dst

/-- `During`: the fault inside a window of time, which ends before `stop`. -/
def during (start stop : Nat) (inner : Injector) : Injector where
  name := inner.name ++ "@[" ++ toString start ++ "," ++ toString stop ++ ")"
  allow now src dst delay :=
    if now < start ∨ now ≥ stop then true else inner.allow now src dst delay

namespace Fault

/-- The switch of `build`. -/
def injector (f : Fault) : Except String Injector :=
  match f.type with
  | .split => .ok (splitFault f.a f.b)
  | .isolate => .ok (isolateFault f.nodes)
  | .link => .ok (linkFault f.src f.dst)
  | .other text => .error ("unknown type \"" ++ text ++ "\"")

/-- The injector of a fault, inside its window if it has one. -/
def build (f : Fault) : Except String Injector := do
  let injector ← f.injector
  if f.stop ≠ 0 then pure (during f.start.toNat f.stop.toNat injector) else pure injector

/-- The loop of `check`. -/
def checkIds (field : String) (nodes : Int) : List Nat → List Nat → Except String Unit
  | _, [] => .ok ()
  | seen, id :: rest =>
    if id < 1 ∨ (id : Int) > nodes then
      .error (field ++ " names node " ++ toString id ++ ", outside 1.." ++ toString nodes)
    else if id ∈ seen then .error (field ++ " names node " ++ toString id ++ " twice")
    else checkIds field nodes (id :: seen) rest

/-- The ids of a field: at least one, each a node and only once. -/
def check (nodes : Int) (field : String) (ids : List Nat) : Except String Unit :=
  if ids.length = 0 then .error (field ++ " must list at least one node")
  else checkIds field nodes [] ids

/-- A fault is valid for this number of nodes. -/
def validate (nodes : Int) (f : Fault) : Except String Unit := do
  if f.stop ≠ 0 ∧ f.stop ≤ f.start then
    throw ("window end " ++ toString f.stop ++ " must be after start " ++ toString f.start)
  match f.type with
  | .split =>
    check nodes "a" f.a
    check nodes "b" f.b
    f.a.forM fun id => f.b.forM fun other => do
      if id = other then
        throw ("node " ++ toString id ++ " appears on both sides of the split")
  | .isolate => check nodes "nodes" f.nodes
  | .link =>
    check nodes "from" [f.src]
    check nodes "to" [f.dst]
    if f.src = f.dst then
      throw ("a link failure needs two distinct nodes, got " ++ toString f.src ++ " twice")
  | .other text => throw ("unknown type \"" ++ text ++ "\"")

end Fault

namespace Scenario

variable (parseInt : String → Option Int)

/-- The seed is a decimal text. -/
def parsedSeed (s : Scenario) : Except String Int :=
  match parseInt s.seed with
  | some seed => .ok seed
  | none => .error ("scenario: invalid seed \"" ++ s.seed ++ "\"")

/-- The configuration of the engine. -/
def engineConfig (s : Scenario) : Except String Config := do
  let seed ← s.parsedSeed parseInt
  pure { seed, dropPermille := s.dropPermille, maxDelay := s.maxDelay.toNat }

/-- The error of a fault, with its place. -/
def faultError {α : Type} (i : Nat) : Except String α → Except String α
  | .ok a => .ok a
  | .error e => .error ("scenario: fault " ++ toString i ++ ": " ++ e)

/-- The injectors of all faults, or the error of the first that has none. -/
def buildFaults : Nat → List Fault → Except String (List Injector)
  | _, [] => .ok []
  | i, f :: rest => do
    let injector ← faultError i f.build
    let injectors ← buildFaults (i + 1) rest
    pure (injector :: injectors)

/-- `Injectors`. -/
def injectors (s : Scenario) : Except String (List Injector) := buildFaults 0 s.faults

/-- The error of the first fault that is not valid. -/
def validateFaults (nodes : Int) : Nat → List Fault → Except String Unit
  | _, [] => .ok ()
  | i, f :: rest => do
    faultError i (f.validate nodes)
    validateFaults nodes (i + 1) rest

/-- `Validate`: the first error in the order of the fields. -/
def validate (s : Scenario) : Except String Unit := do
  let _ ← s.parsedSeed parseInt
  if s.nodes < 1 ∨ s.nodes > maxNodes then
    throw ("scenario: nodes must be between 1 and " ++ toString maxNodes ++ ", got " ++
      toString s.nodes)
  if s.steps < 1 then throw ("scenario: steps must be positive, got " ++ toString s.steps)
  if s.dropPermille < 0 ∨ s.dropPermille > 1000 then
    throw ("scenario: dropPermille must be between 0 and 1000, got " ++ toString s.dropPermille)
  validateFaults s.nodes 0 s.faults

end Scenario

/-! ## What is accepted -/

namespace Fault

theorem checkIds_pos {field : String} {nodes : Int} {seen ids : List Nat}
    (h : checkIds field nodes seen ids = .ok ()) : 0 ∉ ids := by
  induction ids generalizing seen with
  | nil => exact List.not_mem_nil
  | cons id rest ih =>
    unfold checkIds at h
    split at h
    · cases h
    · split at h
      · cases h
      · refine List.not_mem_cons_of_ne_of_not_mem (by omega) (ih h)

theorem check_pos {field : String} {nodes : Int} {ids : List Nat}
    (h : check nodes field ids = .ok ()) : 0 ∉ ids := by
  unfold check at h
  split at h
  · cases h
  · exact checkIds_pos h

/-- A fault that is accepted allows what no node sends or receives. -/
theorem injector_of_validate {nodes : Int} {f : Fault} (h : f.validate nodes = .ok ()) :
    ∃ i, f.injector = .ok i ∧ ∀ now d, i.allow now 0 0 d = true := by
  unfold validate at h
  replace h := (guard_ok h).2
  unfold injector
  cases htype : f.type with
  | split =>
    rw [htype] at h
    obtain ⟨_, ha, -⟩ := check_ok h
    refine ⟨_, rfl, fun now d => ?_⟩
    simp [splitFault, check_pos ha]
  | isolate =>
    rw [htype] at h
    refine ⟨_, rfl, fun now d => ?_⟩
    simp [isolateFault, check_pos h]
  | link =>
    rw [htype] at h
    obtain ⟨_, hsrc, -⟩ := check_ok h
    have hne : 0 ≠ f.src := fun heq => check_pos hsrc (heq ▸ List.mem_cons_self)
    refine ⟨_, rfl, fun now d => ?_⟩
    simp [linkFault, hne]
  | other text =>
    rw [htype] at h
    cases h

/-- So does what is built from it. -/
theorem build_of_validate {nodes : Int} {f : Fault} (h : f.validate nodes = .ok ()) :
    ∃ i, f.build = .ok i ∧ ∀ now d, i.allow now 0 0 d = true := by
  obtain ⟨i, hi, hallow⟩ := injector_of_validate h
  unfold build
  rw [hi]
  by_cases hstop : f.stop = 0
  · exact ⟨i, if_neg (not_not.mpr hstop), hallow⟩
  · refine ⟨_, if_pos hstop, fun now d => ?_⟩
    show (if _ then true else i.allow now 0 0 d) = true
    rw [hallow]
    split <;> rfl

end Fault

namespace Scenario

variable {parseInt : String → Option Int}

theorem buildFaults_of_validate {nodes : Int} {i : Nat} {faults : List Fault}
    (h : validateFaults nodes i faults = .ok ()) :
    ∃ l, buildFaults i faults = .ok l ∧ ∀ x ∈ l, ∀ now d, x.allow now 0 0 d = true := by
  induction faults generalizing i with
  | nil => exact ⟨[], rfl, fun x hx => (List.not_mem_nil hx).elim⟩
  | cons f rest ih =>
    obtain ⟨_, hf, hrest⟩ := check_ok h
    have hvalid : f.validate nodes = .ok () := by
      cases hv : f.validate nodes with
      | ok _ => rfl
      | error e =>
        rw [hv] at hf
        cases hf
    obtain ⟨x, hx, hallow⟩ := f.build_of_validate hvalid
    obtain ⟨l, hl, hall⟩ := ih hrest
    refine ⟨x :: l, ?_, List.forall_mem_cons.mpr ⟨hallow, hall⟩⟩
    rw [buildFaults, hx, hl]
    rfl

/-- What is known of an accepted scenario. -/
structure Accepted (parseInt : String → Option Int) (s : Scenario) (c : Config)
    (l : List Injector) : Prop where
  config : s.engineConfig parseInt = .ok c
  drop : c.dropPermille = s.dropPermille
  delay : c.maxDelay = s.maxDelay.toNat
  injectors : s.injectors = .ok l
  allow : ∀ x ∈ l, ∀ now d, x.allow now 0 0 d = true
  steps : 1 ≤ s.steps.toNat
  range : s.dropPermille ≤ 1000

theorem accepted_of_validate {s : Scenario} (h : s.validate parseInt = .ok ()) :
    ∃ c l, Accepted parseInt s c l := by
  obtain ⟨seed, hseed, h⟩ := check_ok h
  obtain ⟨-, h⟩ := guard_ok h
  obtain ⟨hsteps, h⟩ := guard_ok h
  obtain ⟨hdrop, h⟩ := guard_ok h
  obtain ⟨l, hl, hallow⟩ := buildFaults_of_validate h
  refine ⟨{ seed, dropPermille := s.dropPermille, maxDelay := s.maxDelay.toNat }, l, ?_, rfl, rfl,
    hl, hallow, ?_, ?_⟩
  · rw [engineConfig, hseed]
    rfl
  · rw [UInt64.lt_iff_toNat_lt] at hsteps
    exact Nat.le_of_not_lt hsteps
  · omega

end Scenario

/-! ## The draws and the time -/

/-- `Intn` and `Int63n` return a number below their argument. -/
structure Rand.Lawful {ρ : Type} (rand : Rand ρ) : Prop where
  intn : ∀ n s, 0 < n → (rand.intn n s).1 < n
  int63n : ∀ n s, 0 < n → (rand.int63n n s).1 < n

/-- What the draws for a message say about the parameters. -/
theorem roll_cases {ρ : Type} {rand : Rand ρ} (hl : rand.Lawful) (drop : Int) (delay : Nat)
    (rng : ρ) :
    (roll rand drop delay rng).1 = .lost ∨
      drop < 1000 ∧ 0 < delay ∧ 2 ^ 63 ≤ delay + 1 ∧ (roll rand drop delay rng).1 = .int63n ∨
      drop < 1000 ∧ ∃ k ≤ delay, (roll rand drop delay rng).1 = .delayed k := by
  have hk := hl.intn 1000 rng (by decide)
  unfold roll
  generalize hloss : (if 0 < drop then _ else _ : Bool × ρ) = loss
  obtain ⟨lost, rng'⟩ := loss
  cases lost with
  | true => exact .inl rfl
  | false =>
    have hdrop : drop < 1000 := by
      split at hloss
      · have hnot : ¬((rand.intn 1000 rng).1 : Int) < drop :=
          of_decide_eq_false (congrArg Prod.fst hloss)
        omega
      · omega
    simp only [Bool.false_eq_true, if_false]
    by_cases hpos : 0 < delay
    · rw [if_pos hpos]
      by_cases hfit : delay + 1 < 2 ^ 63
      · rw [if_pos hfit]
        exact .inr (.inr ⟨hdrop, _, Nat.le_of_lt_succ (hl.int63n _ _ (Nat.succ_pos _)), rfl⟩)
      · rw [if_neg hfit]
        exact .inr (.inl ⟨hdrop, hpos, Nat.le_of_not_lt hfit, rfl⟩)
    · rw [if_neg hpos]
      exact .inr (.inr ⟨hdrop, 0, Nat.zero_le _, rfl⟩)

namespace Run

variable {γ μ ε ρ : Type} {P : Protocol γ μ ε} {rand : Rand ρ} {sha256 : List UInt8 → List UInt8}

/-- Every message was drained before now, with the draws of the parameters, and is due after its
delay. -/
structure Timed (rand : Rand ρ) (c : Config) (r : Run γ μ ρ) : Prop where
  drop : r.drop = c.dropPermille
  delay : r.delay = c.maxDelay
  past : ∀ d ∈ r.drained, d.now ≤ r.now
  fates : ∀ d ∈ r.drained, ∃ rng, d.fate = (roll rand c.dropPermille c.maxDelay rng).1
  due : ∀ d ∈ r.drained, ∀ ev, d.event = some ev → ∃ k, d.fate = .delayed k ∧ ev.due = d.now + k

theorem Timed.log {c : Config} {r : Run γ μ ρ} (h : Timed rand c r) {m : μ} {fate : Fate} {rng : ρ}
    (hroll : roll rand r.drop r.delay r.rng = (fate, rng)) (event : Option (Event μ))
    (hevent : ∀ ev, event = some ev → ∃ k, fate = .delayed k ∧ ev.due = r.now + k) :
    Timed rand c (r.log m fate event rng) := by
  refine ⟨h.drop, h.delay, fun d hd => ?_, fun d hd => ?_, fun d hd => ?_⟩
  all_goals
    rcases List.mem_append.mp hd with hd | hd
  · exact h.past d hd
  · rw [List.mem_singleton.mp hd]
    exact Nat.le_refl _
  · exact h.fates d hd
  · rw [List.mem_singleton.mp hd, ← h.drop, ← h.delay]
    exact ⟨r.rng, (congrArg Prod.fst hroll).symm⟩
  · exact h.due d hd
  · rw [List.mem_singleton.mp hd]
    exact hevent

theorem timed_step {c : Config} {r r' : Run γ μ ρ} (hs : Atomic P rand sha256 r r')
    (h : Timed rand c r) : Timed rand c r' := by
  cases hs with
  | flow hs =>
    cases hs with
    | settle m =>
      refine settle_cases P rand m r (fun fate rng hr _ => h.log hr none fun _ he => by cases he)
        (fun d rng i hr _ _ => ?_) (fun d rng hr _ => ?_)
      · have hlog : Timed rand c (r.log m (.delayed d) none rng) :=
          h.log hr none fun _ he => by cases he
        exact ⟨hlog.drop, hlog.delay, hlog.past, hlog.fates, hlog.due⟩
      · have hlog : Timed rand c (r.log m (.delayed d) (some (entry P m d r)) rng) :=
          h.log hr _ fun ev he => ⟨d, rfl, Option.some.inj he ▸ rfl⟩
        exact ⟨hlog.drop, hlog.delay, hlog.past, hlog.fates, hlog.due⟩
    | cluster _ | take _ _ _ _ => exact ⟨h.drop, h.delay, h.past, h.fates, h.due⟩
  | tick =>
    exact ⟨h.drop, h.delay, fun d hd => Nat.le_succ_of_le (h.past d hd), h.fates, h.due⟩
  | isolate _ | inject _ => exact ⟨h.drop, h.delay, h.past, h.fates, h.due⟩

theorem timed_play (P : Protocol γ μ ε) (rand : Rand ρ) (sha256 : List UInt8 → List UInt8)
    (c : Config) (cluster : γ) (acts : List (Act γ)) :
    Timed rand c (play P rand sha256 acts (new rand c cluster)) := by
  refine play_induction acts ⟨rfl, rfl, ?_, ?_, ?_⟩ timed_step
  all_goals
    intro d hd
    cases hd

/-- The action is a step. -/
def isStep : Act γ → Bool
  | .step _ => true
  | _ => false

theorem flows_now {α : Type} {x : RunM γ μ ε ρ α} (h : Made (Flow P rand sha256) x)
    (r : Run γ μ ρ) : (finalState (x r)).now = r.now :=
  (flows_keep (h.final r)).now

theorem tickAll_now (r : Run γ μ ρ) :
    (finalState (tickAll P rand r : EStateM.Result (Stop ε) _ _)).now = r.now + 1 := by
  have hrest : Made (Flow P rand id) (do
      (P.nodes (← get).cluster).forM fun id => call fun c => (P.tick id c).map ((), ·)
      collect P rand) := fun r =>
    Sim.seq_get (((Made.each fun _ _ => call_made _).seq fun _ => collect_made) r)
  exact flows_now hrest { r with now := r.now + 1 }

theorem step_now (passes : Nat) (r : Run γ μ ρ) :
    (finalState (step P rand sha256 passes r)).now = r.now + 1 := by
  have htick : (finalState (tickAll P rand r)).now = r.now + 1 := tickAll_now r
  show (finalState (EStateM.bind (tickAll P rand)
    (fun _ => deliverAll P rand sha256 passes) r)).now = r.now + 1
  unfold EStateM.bind
  cases hx : tickAll P rand r with
  | ok a r' =>
    rw [hx] at htick
    exact (flows_now (deliverAll_made passes) r').trans htick
  | error e r' =>
    rw [hx] at htick
    exact htick

/-- Without deliveries the loop changes nothing. -/
theorem deliverAll_zero (r : Run γ μ ρ) : finalState (deliverAll P rand sha256 0 r) = r := by
  cases hdue : r.due with
  | none => rw [deliverAll_none hdue]; rfl
  | some next => rw [deliverAll_stop hdue]; rfl

theorem perform_now (act : Act γ) (r : Run γ μ ρ) :
    (finalState (perform P rand sha256 act r)).now = r.now + if isStep act then 1 else 0 := by
  cases act with
  | step passes => exact step_now passes r
  | collect => exact (flows_keep ((collect_made : Made (Flow P rand sha256) _).final r)).now
  | isolate _ | inject _ | drive _ => rfl

/-- The time is at most the number of steps. -/
theorem play_now (acts : List (Act γ)) (r : Run γ μ ρ) :
    (play P rand sha256 acts r).now ≤ r.now + acts.countP isStep := by
  induction acts generalizing r with
  | nil => exact Nat.le_refl _
  | cons act rest ih =>
    have hact : (finalState (perform P rand sha256 act r)).now = _ := perform_now act r
    rw [List.countP_cons]
    unfold play
    split
    all_goals
      rename_i hr
      rw [hr] at hact
      simp only [finalState] at hact
    · exact (ih _).trans (by omega)
    · omega
    · exact (ih _).trans (by omega)

end Run

namespace Scenario

/-- Every message that is not lost has a delay, and is due at a time of 64 bits: in every run of at
most `Steps` steps, with any cluster and whatever else is done to it and to the engine. -/
def Runs (parseInt : String → Option Int) (s : Scenario) : Prop :=
  ∃ c l, s.engineConfig parseInt = .ok c ∧ s.injectors = .ok l ∧
    ∀ {γ μ ε ρ : Type} (P : Protocol γ μ ε) (rand : Rand ρ) (sha256 : List UInt8 → List UInt8)
      (cluster : γ) (acts : List (Act γ)), rand.Lawful → acts.countP Run.isStep ≤ s.steps.toNat →
      ∀ d ∈ (Run.play P rand sha256 (.inject l :: acts) (.new rand c cluster)).drained,
        d.fate ≠ .int63n ∧ ∀ ev, d.event = some ev → d.now ≤ ev.due ∧ ev.due < 2 ^ 64

/-- Every message is lost, or the delay can be drawn and added to the time of every step. -/
def Fits (s : Scenario) : Prop :=
  s.dropPermille = 1000 ∨ (s.maxDelay.toNat = 0 ∨ s.maxDelay.toNat + 1 < 2 ^ 63) ∧
    s.steps.toNat + s.maxDelay.toNat < 2 ^ 64

instance (s : Scenario) : Decidable s.Fits := by
  unfold Fits
  infer_instance

variable {parseInt : String → Option Int}

theorem runs_of_fits {s : Scenario} {c : Config} {l : List Injector} (h : Accepted parseInt s c l)
    (hfits : s.Fits) : s.Runs parseInt := by
  refine ⟨c, l, h.config, h.injectors, fun P rand sha256 cluster acts hl hsteps d hd => ?_⟩
  have htimed := Run.timed_play P rand sha256 c cluster (.inject l :: acts)
  have hnow : d.now ≤ s.steps.toNat := by
    have hpast := htimed.past d hd
    have hlast : (Run.play P rand sha256 (.inject l :: acts) (.new rand c cluster)).now ≤
      0 + (Act.inject l :: acts).countP Run.isStep := Run.play_now _ _
    rw [List.countP_cons_of_neg Bool.false_ne_true] at hlast
    omega
  obtain ⟨rng, hfate⟩ := htimed.fates d hd
  have hroll := roll_cases hl c.dropPermille c.maxDelay rng
  rw [← hfate, h.drop, h.delay] at hroll
  rcases hroll with hlost | ⟨hdrop, hpos, hbig, -⟩ | ⟨hdrop, k, hk, hdelayed⟩
  · refine ⟨by simp [hlost], fun ev hev => ?_⟩
    obtain ⟨k, hk, -⟩ := htimed.due d hd ev hev
    rw [hlost] at hk
    cases hk
  · rcases hfits with hall | ⟨hsmall, -⟩
    all_goals omega
  · refine ⟨by simp [hdelayed], fun ev hev => ?_⟩
    obtain ⟨k', hk', hdue⟩ := htimed.due d hd ev hev
    rw [hdelayed] at hk'
    cases hk'
    rcases hfits with hall | ⟨-, hfit⟩
    all_goals omega

/-! ## A cluster that speaks once -/

/-- One node that sends a message at one tick, from no node to no node. -/
def beacon (target : Nat) : Protocol Nat Unit Empty where
  nodes _ := [1]
  tick _ n := .ok (n + 1)
  deliver _ _ n := .ok n
  drain _ n := .ok (if n = target then [()] else [], n)
  route _ := (0, 0)
  digest _ := (0, 0)

/-- The largest draws. -/
def largest : Rand Unit where
  source _ := ()
  intn n _ := (n - 1, ())
  int63n n _ := (n - 1, ())

theorem largest_lawful : largest.Lawful :=
  ⟨fun _ _ h => Nat.sub_one_lt_of_lt h, fun _ _ h => Nat.sub_one_lt_of_lt h⟩

/-- The largest draw loses nothing. -/
theorem roll_largest_eq {drop : Int} {delay : Nat} (h : drop < 1000) :
    roll largest drop delay () = if 0 < delay then
      if delay + 1 < 2 ^ 63 then (.delayed delay, ()) else (.int63n, ()) else (.delayed 0, ()) := by
  unfold roll
  generalize hloss : (if 0 < drop then _ else _ : Bool × Unit) = loss
  obtain ⟨lost, rng⟩ := loss
  have hlost : lost = false := by
    split at hloss
    · have hnot : ¬((999 : Nat) : Int) < drop := by omega
      exact (congrArg Prod.fst hloss).symm.trans (decide_eq_false hnot)
    · exact (congrArg Prod.fst hloss).symm
  rw [hlost]
  rfl

theorem roll_largest {drop : Int} {delay : Nat} (h : drop < 1000)
    (hfit : delay = 0 ∨ delay + 1 < 2 ^ 63) :
    roll largest drop delay () = (.delayed delay, ()) := by
  rw [roll_largest_eq h]
  rcases hfit with rfl | hfit
  · rfl
  · rw [if_pos hfit]
    split
    · rfl
    · rw [show delay = 0 by omega]

theorem roll_largest_panics {drop : Int} {delay : Nat} (h : drop < 1000)
    (hbig : ¬(delay = 0 ∨ delay + 1 < 2 ^ 63)) : roll largest drop delay () = (.int63n, ()) := by
  rw [roll_largest_eq h, if_pos (by omega), if_neg (by omega)]

section Beacon

variable {target : Nat} {r : Run Nat Unit Unit}

theorem beacon_tickAll (r : Run Nat Unit Unit) :
    Run.tickAll (beacon target) largest r =
      ((if r.cluster + 1 = target then [()] else []).forM (Run.schedule (beacon target) largest) >>=
        fun _ => pure ()) { r with now := r.now + 1, cluster := r.cluster + 1 } := rfl

/-- A step before the message. -/
theorem beacon_silent (h : r.cluster + 1 ≠ target) (hq : r.queue = []) :
    Run.step (beacon target) largest id 0 r =
      .ok () { r with now := r.now + 1, cluster := r.cluster + 1 } := by
  have htick : Run.tickAll (beacon target) largest r = _ := beacon_tickAll r
  rw [if_neg h] at htick
  show EStateM.bind (Run.tickAll (beacon target) largest)
    (fun _ => Run.deliverAll (beacon target) largest id 0) r = _
  rw [EStateM.bind, htick]
  refine Run.deliverAll_none ?_
  rw [Engine.due, hq]
  rfl

/-- The step of the message. -/
theorem beacon_speaks (h : r.cluster + 1 = target) :
    finalState (Run.step (beacon target) largest id 0 r) =
      Run.settle (beacon target) largest () { r with now := r.now + 1, cluster := target } := by
  subst h
  have htick : Run.tickAll (beacon (r.cluster + 1)) largest r = _ := beacon_tickAll r
  rw [if_pos rfl] at htick
  refine (finalState_seq fun _ r => Run.deliverAll_zero r).trans ?_
  rw [htick]
  refine (finalState_seq fun _ _ => rfl).trans ((finalState_seq fun _ _ => rfl).trans ?_)
  rw [Run.schedule_run]
  split <;> rfl

theorem play_one {γ μ ε ρ : Type} (P : Protocol γ μ ε) (rand : Rand ρ)
    (sha256 : List UInt8 → List UInt8) (act : Act γ) (r : Run γ μ ρ) :
    Run.play P rand sha256 [act] r = finalState (Run.perform P rand sha256 act r) := by
  unfold Run.play
  split <;> rename_i hr <;> rw [hr] <;> rfl

/-- The message comes with the last of the steps. -/
theorem beacon_play (n : Nat) (h : r.cluster + n + 1 = target) (hq : r.queue = []) :
    Run.play (beacon target) largest id (List.replicate (n + 1) (.step 0)) r =
      Run.settle (beacon target) largest () { r with now := r.now + n + 1, cluster := target } := by
  induction n generalizing r with
  | zero => exact (play_one ..).trans (beacon_speaks h)
  | succ n ih =>
    have hstep : Run.perform (beacon target) largest id (.step 0) r = _ :=
      beacon_silent (by omega) hq
    rw [List.replicate_succ]
    unfold Run.play
    rw [hstep]
    refine (ih (r := { r with now := r.now + 1, cluster := r.cluster + 1 }) ?_ hq).trans ?_
    · show r.cluster + 1 + n + 1 = target
      omega
    · show Run.settle _ _ _ { r with now := r.now + 1 + n + 1, cluster := target } = _
      rw [Nat.add_right_comm r.now 1 n]
      rfl

end Beacon

/-- The run of a scenario on this cluster, up to its message. -/
def beforeMessage (c : Config) (l : List Injector) (n : Nat) : Run Nat Unit Unit :=
  { Run.inject l (.new largest c 0) with now := n, cluster := n }

theorem drained_beacon {s : Scenario} {c : Config} {l : List Injector} (h : Accepted parseInt s c l)
    (hruns : s.Runs parseInt) : ∀ d ∈ (Run.settle (beacon s.steps.toNat) largest ()
      (beforeMessage c l s.steps.toNat)).drained,
      d.fate ≠ .int63n ∧ ∀ ev, d.event = some ev → d.now ≤ ev.due ∧ ev.due < 2 ^ 64 := by
  obtain ⟨c', l', hc, hl, hruns⟩ := hruns
  cases Except.ok.inj (h.config.symm.trans hc)
  cases Except.ok.inj (h.injectors.symm.trans hl)
  have hsteps := h.steps
  obtain ⟨n, hn⟩ : ∃ n, s.steps.toNat = n + 1 := Nat.exists_eq_succ_of_ne_zero (by omega)
  have hdrained := hruns (beacon (n + 1)) largest id 0 (List.replicate (n + 1) (.step 0))
    largest_lawful (by rw [hn]; exact List.countP_le_length.trans (List.length_replicate ..).le)
  have hplay : Run.play (beacon (0 + n + 1)) largest id
      (.inject l :: List.replicate (n + 1) (.step 0)) (.new largest c 0) =
      Run.settle (beacon (0 + n + 1)) largest () (beforeMessage c l (0 + n + 1)) :=
    beacon_play (r := Run.inject l (.new largest c 0)) n rfl rfl
  rw [Nat.zero_add] at hplay
  rw [hplay] at hdrained
  rw [hn]
  exact hdrained

theorem fits_of_runs {s : Scenario} {c : Config} {l : List Injector} (h : Accepted parseInt s c l)
    (hruns : s.Runs parseInt) : s.Fits := by
  have hdrained := drained_beacon h hruns
  by_cases hall : s.dropPermille = 1000
  · exact .inl hall
  have hrange := h.range
  have hdrop : c.dropPermille < 1000 := by
    rw [h.drop]
    omega
  have hdelay := h.delay
  by_cases hfit : c.maxDelay = 0 ∨ c.maxDelay + 1 < 2 ^ 63
  · have hroll : roll largest (beforeMessage c l s.steps.toNat).drop
        (beforeMessage c l s.steps.toNat).delay (beforeMessage c l s.steps.toNat).rng =
        (.delayed c.maxDelay, ()) := roll_largest hdrop hfit
    have hnone : Run.denier (beforeMessage c l s.steps.toNat).injectors
        (beforeMessage c l s.steps.toNat).now (0, 0) c.maxDelay = none :=
      Run.denier_eq_none.mpr fun i hi => h.allow i hi _ _
    rw [Run.settle_enters hroll fun i hi => by cases hnone.symm.trans hi] at hdrained
    have hdue : s.steps.toNat + c.maxDelay < 2 ^ 64 :=
      ((hdrained _ (List.mem_append_right _ List.mem_cons_self)).2 _ rfl).2
    rw [hdelay] at hfit hdue
    exact .inr ⟨hfit, hdue⟩
  · have hroll : roll largest (beforeMessage c l s.steps.toNat).drop
        (beforeMessage c l s.steps.toNat).delay (beforeMessage c l s.steps.toNat).rng =
        (.int63n, ()) := roll_largest_panics hdrop hfit
    rw [Run.settle_fate hroll fun _ he => by cases he] at hdrained
    exact absurd rfl (hdrained _ (List.mem_append_right _ List.mem_cons_self)).1

/-- An accepted scenario can be run on every cluster exactly if its delay fits. -/
theorem accepted_scenario_runs_iff (parseInt : String → Option Int) (s : Scenario)
    (h : s.validate parseInt = .ok ()) : s.Runs parseInt ↔ s.Fits := by
  obtain ⟨c, l, haccepted⟩ := accepted_of_validate h
  exact ⟨fits_of_runs haccepted, runs_of_fits haccepted⟩

/-- One step with the delay that is asked for. -/
def delayed (maxDelay : Nat) : Scenario :=
  { seed := "1", nodes := 1, steps := 1, maxDelay := .ofNat maxDelay }

theorem short_delay_runs : (delayed 3).validate (fun _ => some 1) = .ok () ∧
    (delayed 3).Runs fun _ => some 1 :=
  ⟨by decide, (accepted_scenario_runs_iff _ (delayed 3) (by decide)).mpr (by decide)⟩

/-- A scenario with a delay of 2^63 is accepted. The first message that is not lost makes `Int63n`
panic. -/
theorem accepted_delay_panics : (delayed (2 ^ 63)).validate (fun _ => some 1) = .ok () ∧
    (delayed (2 ^ 63)).engineConfig (fun _ => some 1) = .ok ⟨1, 0, 2 ^ 63⟩ ∧
    (delayed (2 ^ 63)).injectors = .ok [] ∧
    ((Run.play (beacon 1) largest id [.step 0] (.new largest ⟨1, 0, 2 ^ 63⟩ 0)).drained.map
      (·.fate)) = [.int63n] ∧ ¬(delayed (2 ^ 63)).Runs fun _ => some 1 := by
  have hdelay : (UInt64.ofNat (2 ^ 63)).toNat = 2 ^ 63 := by decide +kernel
  have hvalid : (delayed (2 ^ 63)).validate (fun _ => some 1) = .ok () := by decide
  refine ⟨hvalid, congrArg (fun n => (.ok ⟨1, 0, n⟩ : Except String Config)) hdelay, rfl,
    by decide +kernel, fun hruns => ?_⟩
  obtain ⟨c, l, h⟩ := accepted_of_validate hvalid
  exact absurd (fits_of_runs h hruns) (by decide +kernel)

end Scenario

end Promtact.Dst
