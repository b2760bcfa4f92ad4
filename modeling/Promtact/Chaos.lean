import Mathlib.Data.List.Basic
import Mathlib.Tactic.Common

/-!
# The chaos controller (`chaos/controller.go`)

`Apply` runs a list of commands, three of which create something: the pin root, the namespace and
the veth pair. The first that fails is followed by `cleanup`, which deletes what the controller
owns. `Close` is `cleanup`. The commands run against a machine of which only those three resources
are kept, with who made them. Whether a command succeeds is decided by an oracle, except that a
creation fails where its resource exists; a command that fails changes nothing.

* `Inv`: every delete names what this controller has created, and what others have made stays.
* `Tracked`: what the controller has created and still exists is owned. `cleanup_tracked_iff`: one
  `cleanup` keeps this exactly where `Kept` holds. It forgets the veth pair when the namespace is
  deleted, the peer was never moved there, and `ip link del` fails (`forgotten_veth`).
-/

namespace Promtact.Chaos

/-- `Plan`. `policy` is what `Policy.mapValue` returns, and `netem` has the delay and the loss as
the command line writes them, where one of them is positive. -/
structure Plan where
  nameSpace : String
  hostVeth : String
  peerVeth : String
  hostCIDR : String
  peerCIDR : String
  bpfObject : String
  policy : Except String (List UInt8)
  netem : Option (String × String)

/-- Where the programs and maps are pinned. -/
structure PinPaths where
  root : String
  programs : String
  maps : String
  xdp : String
  tc : String
  policy : String

/-- `pinsFor`: all below one directory named after the namespace. -/
def pinsFor (nameSpace : String) : PinPaths :=
  let root := "/sys/fs/bpf/" ++ nameSpace
  let programs := root ++ "/programs"
  let maps := root ++ "/maps"
  { root, programs, maps, xdp := programs ++ "/promtact_xdp", tc := programs ++ "/promtact_tc"
    policy := maps ++ "/policy" }

/-- The commands that `Apply` and `cleanup` run. -/
inductive Command where
  | mkdirRoot
  | mkdirPins
  | mapCreate
  | mapUpdate
  | progLoad
  | netnsAdd
  | linkAdd
  | linkSetNetns
  | hostAddr
  | hostUp
  | loUp
  | peerAddr
  | peerUp
  | xdpAttach
  | qdiscAdd
  | filterAdd
  | netemAdd
  | netnsDel
  | linkDel
  | rmPins
  | rmdirPins
  deriving DecidableEq, Repr

/-- `%02x` -/
def hexOctet (b : UInt8) : String :=
  String.ofList [Nat.digitChar (b.toNat / 16), Nat.digitChar (b.toNat % 16)]

/-- The command that writes the policy into its map. -/
def policyUpdateStep (policyPin : String) (value : List UInt8) : List String :=
  ["bpftool", "map", "update", "pinned", policyPin, "key", "hex", "00", "00", "00", "00", "value",
    "hex"] ++ value.map hexOctet ++ ["any"]

/-- The command line. -/
def Command.arguments (p : Plan) : Command → List String
  | .mkdirRoot => ["mkdir", "--", (pinsFor p.nameSpace).root]
  | .mkdirPins => ["mkdir", "--", (pinsFor p.nameSpace).programs, (pinsFor p.nameSpace).maps]
  | .mapCreate => ["bpftool", "map", "create", (pinsFor p.nameSpace).policy, "type", "array", "key",
      "4", "value", "20", "entries", "1", "name", "policy"]
  | .mapUpdate => policyUpdateStep (pinsFor p.nameSpace).policy (p.policy.toOption.getD [])
  | .progLoad => ["bpftool", "prog", "loadall", p.bpfObject, (pinsFor p.nameSpace).programs, "map",
      "name", "policy", "pinned", (pinsFor p.nameSpace).policy]
  | .netnsAdd => ["ip", "netns", "add", p.nameSpace]
  | .linkAdd => ["ip", "link", "add", p.hostVeth, "type", "veth", "peer", "name", p.peerVeth]
  | .linkSetNetns => ["ip", "link", "set", p.peerVeth, "netns", p.nameSpace]
  | .hostAddr => ["ip", "addr", "add", p.hostCIDR, "dev", p.hostVeth]
  | .hostUp => ["ip", "link", "set", p.hostVeth, "up"]
  | .loUp => ["ip", "netns", "exec", p.nameSpace, "ip", "link", "set", "lo", "up"]
  | .peerAddr => ["ip", "netns", "exec", p.nameSpace, "ip", "addr", "add", p.peerCIDR, "dev",
      p.peerVeth]
  | .peerUp => ["ip", "netns", "exec", p.nameSpace, "ip", "link", "set", p.peerVeth, "up"]
  | .xdpAttach => ["nsenter", "--net=/var/run/netns/" ++ p.nameSpace, "--", "ip", "link", "set",
      p.peerVeth, "xdp", "pinned", (pinsFor p.nameSpace).xdp]
  | .qdiscAdd => ["nsenter", "--net=/var/run/netns/" ++ p.nameSpace, "--", "tc", "qdisc", "add", "dev",
      p.peerVeth, "clsact"]
  | .filterAdd => ["nsenter", "--net=/var/run/netns/" ++ p.nameSpace, "--", "tc", "filter", "add",
      "dev", p.peerVeth, "egress", "bpf", "object-pinned", (pinsFor p.nameSpace).tc, "direct-action"]
  | .netemAdd => ["nsenter", "--net=/var/run/netns/" ++ p.nameSpace, "--", "tc", "qdisc", "add", "dev",
      p.peerVeth, "root", "netem", "delay", (p.netem.getD ("", "")).1, "loss",
      (p.netem.getD ("", "")).2 ++ "%"]
  | .netnsDel => ["ip", "netns", "del", p.nameSpace]
  | .linkDel => ["ip", "link", "del", p.hostVeth]
  | .rmPins => ["rm", "-f", "--", (pinsFor p.nameSpace).xdp, (pinsFor p.nameSpace).tc,
      (pinsFor p.nameSpace).policy]
  | .rmdirPins => ["rmdir", "--", (pinsFor p.nameSpace).programs, (pinsFor p.nameSpace).maps,
      (pinsFor p.nameSpace).root]

/-! ## The machine -/

/-- What the controller makes and must remove. -/
inductive Resource where
  | pinRoot
  | netns
  | veth
  deriving DecidableEq, Repr

/-- Who made a resource that is there. -/
inductive Holder where
  | absent
  | other
  | controller
  deriving DecidableEq, Repr

/-- Who made what exists, and whether the peer of the veth pair lies in the namespace. -/
structure World where
  holder : Resource → Holder
  moved : Bool

/-- The resource a command makes. -/
def Command.creates : Command → Option Resource
  | .mkdirRoot => some .pinRoot
  | .netnsAdd => some .netns
  | .linkAdd => some .veth
  | _ => none

/-- The pin paths lie under the pin root. -/
def Command.deletes : Command → Option Resource
  | .netnsDel => some .netns
  | .linkDel => some .veth
  | .rmPins => some .pinRoot
  | .rmdirPins => some .pinRoot
  | _ => none

/-- The world with another holder of a resource. -/
def World.set (w : World) (r : Resource) (h : Holder) : World :=
  { w with holder := Function.update w.holder r h }

/-- The effect of a command that succeeds. -/
def World.after (w : World) : Command → World
  | .mkdirRoot => w.set .pinRoot .controller
  | .netnsAdd => w.set .netns .controller
  | .linkAdd => { w.set .veth .controller with moved := false }
  | .linkSetNetns => { w with moved := true }
  | .netnsDel =>
    if w.moved then { (w.set .netns .absent).set .veth .absent with moved := false }
    else w.set .netns .absent
  | .linkDel => { w.set .veth .absent with moved := false }
  | .rmdirPins => w.set .pinRoot .absent
  | _ => w

/-- What a command creates must not exist. -/
def World.allows (w : World) (c : Command) : Bool :=
  c.creates.all fun r => w.holder r = .absent

/-! ## The controller -/

/-- `Controller`: what it thinks it owns. -/
structure Controller where
  active : Bool := false
  ownsPinRoot : Bool := false
  ownsNamespace : Bool := false
  ownsHostVeth : Bool := false
  deriving DecidableEq, Repr

/-- The flag of a resource. -/
def Controller.owns (c : Controller) : Resource → Bool
  | .pinRoot => c.ownsPinRoot
  | .netns => c.ownsNamespace
  | .veth => c.ownsHostVeth

/-- The closures of the steps: `c.ownsPinRoot = true` and the like. -/
def Controller.claim (c : Controller) : Option Resource → Controller
  | none => c
  | some .pinRoot => { c with ownsPinRoot := true }
  | some .netns => { c with ownsNamespace := true }
  | some .veth => { c with ownsHostVeth := true }

/-- The controller, the machine, and the commands that were run with their outcomes. -/
structure Sys where
  controller : Controller
  world : World
  log : List (Command × Bool)

/-- A command of the plan, the resource that is owned once it completes, and the name it claims. -/
structure CommandStep where
  command : Command
  completed : Option Resource := none
  claim : Option String := none

/-- The steps of `Apply` up to the last one that claims something. -/
def claimSteps (p : Plan) : List CommandStep :=
  [{ command := .mkdirRoot, completed := some .pinRoot
     claim := some ("pin root \"" ++ (pinsFor p.nameSpace).root ++ "\"") },
   { command := .mkdirPins },
   { command := .mapCreate },
   { command := .mapUpdate },
   { command := .progLoad },
   { command := .netnsAdd, completed := some .netns
     claim := some ("namespace \"" ++ p.nameSpace ++ "\"") },
   { command := .linkAdd, completed := some .veth
     claim := some ("veth pair \"" ++ p.hostVeth ++ "\" and \"" ++ p.peerVeth ++ "\"") }]

/-- The steps that configure what was made. -/
def configSteps (p : Plan) : List CommandStep :=
  [{ command := .linkSetNetns },
   { command := .hostAddr },
   { command := .hostUp },
   { command := .loUp },
   { command := .peerAddr },
   { command := .peerUp },
   { command := .xdpAttach },
   { command := .qdiscAdd },
   { command := .filterAdd }] ++
  (if p.netem.isSome then [{ command := .netemAdd }] else [])

/-- The steps of `Apply`: what makes a resource comes first. -/
def steps (p : Plan) : List CommandStep := claimSteps p ++ configSteps p

section Run

variable (outcome : Nat → Bool)

/-- `runner.Run`. The oracle decides about the n-th command. -/
def Sys.run (c : Command) (s : Sys) : Bool × Sys :=
  let ok := outcome s.log.length && s.world.allows c
  (ok, { s with world := if ok then s.world.after c else s.world, log := s.log ++ [(c, ok)] })

/-- The loop of `Apply`, with the step that failed. -/
def runSteps : List CommandStep → Sys → Option CommandStep × Sys
  | [], s => (none, s)
  | step :: rest, s =>
    match s.run outcome step.command with
    | (false, t) => (some step, t)
    | (true, t) => runSteps rest { t with controller := t.controller.claim step.completed }

/-- The namespace is deleted, and disowned where that works. -/
def deleteNamespace (s : Sys) : List Command × Sys :=
  if s.controller.ownsNamespace then
    match s.run outcome .netnsDel with
    | (true, t) => ([], { t with controller := { t.controller with ownsNamespace := false } })
    | (false, t) => ([.netnsDel], t)
  else ([], s)

/-- The pair goes with its namespace, so a failure counts only where the namespace stayed. -/
def deleteVeth (hadNamespace : Bool) (s : Sys) : List Command × Sys :=
  if s.controller.ownsHostVeth then
    match s.run outcome .linkDel with
    | (ok, t) =>
      if ok || hadNamespace && !t.controller.ownsNamespace then
        ([], { t with controller := { t.controller with ownsHostVeth := false } })
      else ([.linkDel], t)
  else ([], s)

/-- The pins are removed, then their directory. -/
def removePins (s : Sys) : List Command × Sys :=
  if s.controller.ownsPinRoot then
    match s.run outcome .rmPins with
    | (removed, t) =>
      match t.run outcome .rmdirPins with
      | (true, u) => (if removed then [] else [.rmPins],
          { u with controller := { u.controller with ownsPinRoot := false } })
      | (false, u) => ((if removed then [] else [.rmPins]) ++ [.rmdirPins], u)
  else ([], s)

/-- `cleanup`, with the commands whose errors it joins. -/
def cleanup (s : Sys) : List Command × Sys :=
  let namespaceDeleted := deleteNamespace outcome s
  let vethDeleted := deleteVeth outcome s.controller.ownsNamespace namespaceDeleted.2
  let pinsRemoved := removePins outcome vethDeleted.2
  (namespaceDeleted.1 ++ vethDeleted.1 ++ pinsRemoved.1, pinsRemoved.2)

/-- What `Apply` returns. A step's failure comes with its claim and is joined with the errors of
`cleanup`. -/
inductive ApplyResult where
  | ok
  | error (text : String)
  | failed (step : CommandStep) (cleanup : List Command)

/-- `Apply`: a failed step undoes those before it. -/
def apply (p : Plan) (s : Sys) : ApplyResult × Sys :=
  if s.controller.active then (.error "chaos: plan already active", s)
  else match p.policy with
    | .error text => (.error text, s)
    | .ok _ =>
      match runSteps outcome (steps p) s with
      | (some step, t) => (.failed step (cleanup outcome t).1, (cleanup outcome t).2)
      | (none, t) => (.ok, { t with controller := { t.controller with active := true } })

/-- `Close`: what could not be removed stays owned. -/
def close (s : Sys) : List Command × Sys :=
  let done := cleanup outcome s
  (done.1, if done.1 = [] then
    { done.2 with controller := { done.2.controller with active := false } } else done.2)

/-- A method of the controller. -/
inductive Call where
  | apply
  | close
  deriving DecidableEq, Repr

/-- A call, with the errors of its `cleanup` where it ran one. -/
def Call.exec (p : Plan) (s : Sys) : Call → Option (List Command) × Sys
  | .apply =>
    match Chaos.apply outcome p s with
    | (.failed _ errors, t) => (some errors, t)
    | (_, t) => (none, t)
  | .close => ((Chaos.close outcome s).1, (Chaos.close outcome s).2)

/-- The state in which the `cleanup` of a call starts. -/
def Call.cleanupStart (p : Plan) (s : Sys) : Call → Option Sys
  | .apply =>
    if s.controller.active ∨ p.policy.toOption.isNone then none
    else match runSteps outcome (steps p) s with
      | (some _, t) => some t
      | (none, _) => none
  | .close => some s

/-- The controller after a list of calls. -/
def runCalls (p : Plan) (s : Sys) (calls : List Call) : Sys :=
  calls.foldl (fun s call => (call.exec outcome p s).2) s

end Run

/-- A new controller on a machine where others have made these resources. -/
def start (foreign : Resource → Bool) : Sys where
  controller := {}
  world := { holder := fun r => if foreign r then .other else .absent, moved := false }
  log := []

/-! ## What is deleted was created -/

/-- A command that creates `r` has succeeded. -/
def Created (log : List (Command × Bool)) (r : Resource) : Prop :=
  ∃ c, (c, true) ∈ log ∧ c.creates = some r

/-- Every delete comes after a creation of its resource. -/
def Justified (log : List (Command × Bool)) : Prop :=
  ∀ before c ok after, log = before ++ (c, ok) :: after →
    ∀ r, c.deletes = some r → Created before r

theorem Created.append {log : List (Command × Bool)} {r : Resource} (h : Created log r)
    (more : List (Command × Bool)) : Created (log ++ more) r :=
  let ⟨c, hin, hc⟩ := h
  ⟨c, List.mem_append_left _ hin, hc⟩

theorem Justified.snoc {log : List (Command × Bool)} {c : Command} {ok : Bool} (h : Justified log)
    (hc : ∀ r, c.deletes = some r → Created log r) : Justified (log ++ [(c, ok)]) := by
  intro before c' ok' after heq r hr
  rcases List.eq_nil_or_concat after with rfl | ⟨after', last, rfl⟩
  · obtain ⟨rfl, hlast⟩ := List.append_inj' heq rfl
    cases hlast
    exact hc r hr
  · rw [List.concat_eq_append, ← List.cons_append, ← List.append_assoc] at heq
    exact h before c' ok' after' (List.append_inj' heq rfl).1 r hr

/-- The controller owns only what it has created, and what others have made is untouched. -/
structure Inv (foreign : Resource → Bool) (s : Sys) : Prop where
  made : ∀ r, s.controller.owns r = true → Created s.log r
  mine : ∀ r, s.controller.owns r = true → foreign r = false
  justified : Justified s.log
  others : ∀ r, s.world.holder r = .other ↔ foreign r = true
  moved : s.world.moved = true → foreign .veth = false

/-- What the controller has created and still exists is owned. -/
def Tracked (s : Sys) : Prop :=
  ∀ r, s.world.holder r = .controller → s.controller.owns r = true

variable {outcome : Nat → Bool} {foreign : Resource → Bool} {s t : Sys} {c : Command}

theorem set_holder (w : World) (r r' : Resource) (h : Holder) :
    (w.set r h).holder r' = if r' = r then h else w.holder r' :=
  Function.update_apply _ _ _ _

theorem inv_start (foreign : Resource → Bool) : Inv foreign (start foreign) := by
  refine ⟨?_, ?_, ?_, ?_, ?_⟩
  · intro r h; cases r <;> cases h
  · intro r h; cases r <;> cases h
  · intro before c ok after h
    cases before <;> cases h
  · intro r
    show (if foreign r then Holder.other else .absent) = .other ↔ _
    cases foreign r <;> simp
  · intro h; cases h

theorem tracked_start (foreign : Resource → Bool) : Tracked (start foreign) := by
  intro r (h : (if foreign r then Holder.other else .absent) = .controller)
  split at h <;> cases h

/-- The flags may change as long as they name what was created. -/
theorem Inv.controller (h : Inv foreign s) {c : Controller}
    (hc : ∀ r, c.owns r = true → Created s.log r ∧ foreign r = false) :
    Inv foreign { s with controller := c } :=
  ⟨fun r hr => (hc r hr).1, fun r hr => (hc r hr).2, h.justified, h.others, h.moved⟩

theorem Inv.lower (h : Inv foreign s) {c : Controller}
    (hc : ∀ r, c.owns r = true → s.controller.owns r = true) :
    Inv foreign { s with controller := c } :=
  h.controller fun r hr => ⟨h.made r (hc r hr), h.mine r (hc r hr)⟩

theorem set_other {w : World} {r : Resource} {h : Holder} (hr : w.holder r ≠ .other)
    (hh : h ≠ .other) (r' : Resource) :
    (w.set r h).holder r' = .other ↔ w.holder r' = .other := by
  rw [set_holder]
  split
  · subst r'
    exact iff_of_false hh hr
  · rfl

/-- A command that is allowed and deletes nothing of others changes nothing of others. -/
theorem after_other {w : World} (hallow : ∀ r, c.creates = some r → w.holder r ≠ .other)
    (hdel : ∀ r, c.deletes = some r → w.holder r ≠ .other)
    (hmoved : w.moved = true → w.holder .veth ≠ .other) (r : Resource) :
    (w.after c).holder r = .other ↔ w.holder r = .other := by
  cases c with
  | mkdirRoot | netnsAdd | linkAdd => exact set_other (hallow _ rfl) (by decide) r
  | linkDel | rmdirPins => exact set_other (hdel _ rfl) (by decide) r
  | netnsDel =>
    rw [World.after]
    split
    · rename_i hm
      refine (set_other ?_ (by decide) r).trans (set_other (hdel _ rfl) (by decide) r)
      rw [ne_eq, set_other (hdel _ rfl) (by decide)]
      exact hmoved hm
    · exact set_other (hdel _ rfl) (by decide) r
  | _ => rfl

/-- The peer is moved by one command only. -/
theorem after_moved {w : World} (hc : c ≠ .linkSetNetns) (h : (w.after c).moved = true) :
    w.moved = true := by
  cases c with
  | linkSetNetns => exact absurd rfl hc
  | netnsDel =>
    rw [World.after] at h
    split at h
    · assumption
    · exact h
  | linkAdd | linkDel => cases h
  | _ => exact h

theorem Inv.run (h : Inv foreign s) (outcome : Nat → Bool) (c : Command)
    (hdel : ∀ r, c.deletes = some r → s.controller.owns r = true)
    (hmove : c = .linkSetNetns → s.controller.ownsHostVeth = true) :
    Inv foreign (s.run outcome c).2 := by
  have hforeign (r : Resource) (hr : foreign r = false) : s.world.holder r ≠ .other := by
    rw [ne_eq, h.others, hr]
    exact Bool.false_ne_true
  refine ⟨fun r hr => (h.made r hr).append _, h.mine,
    h.justified.snoc fun r hr => h.made r (hdel r hr), fun r => ?_, ?_⟩
  · show (ite _ _ _ : World).holder r = _ ↔ _
    split
    · rename_i hok
      refine (after_other (fun r' hr' => ?_) (fun r' hr' => hforeign r' (h.mine r' (hdel r' hr')))
        (fun hm => hforeign .veth (h.moved hm)) r).trans (h.others r)
      have hall := (Bool.and_eq_true_iff.mp hok).2
      rw [World.allows, hr', Option.all_some, decide_eq_true_eq] at hall
      rw [hall]
      decide
    · exact h.others r
  · show (ite _ _ _ : World).moved = true → _
    split
    · intro hm
      by_cases hc : c = .linkSetNetns
      · exact h.mine .veth (hmove hc)
      · exact h.moved (after_moved hc hm)
    · exact h.moved

/-! ## The steps of `Apply` -/

/-- Steps claim what they create and delete nothing. -/
def Regular (l : List CommandStep) : Prop :=
  ∀ step ∈ l, step.completed = step.command.creates ∧ step.command.deletes = none

theorem owns_claim {c : Controller} {r : Resource} {r' : Option Resource} :
    (c.claim r').owns r = true ↔ c.owns r = true ∨ r' = some r := by
  rcases r' with - | r'
  · simp [Controller.claim]
  · cases r <;> cases r' <;> simp [Controller.claim, Controller.owns]

theorem after_controller {w : World} {r : Resource} (hdel : c.deletes = none)
    (h : (w.after c).holder r = .controller) : w.holder r = .controller ∨ c.creates = some r := by
  have hset (r' : Resource) (hr : (w.set r' .controller).holder r = .controller) :
      w.holder r = .controller ∨ some r' = some r := by
    rw [set_holder] at hr
    split at hr
    · exact .inr (congrArg some (Eq.symm ‹r = r'›))
    · exact .inl hr
  cases c with
  | mkdirRoot | netnsAdd | linkAdd => exact hset _ h
  | netnsDel | linkDel | rmPins | rmdirPins => cases hdel
  | _ => exact .inl h

/-- What `run` does, with its parts named. -/
theorem run_spec {ok : Bool} (h : s.run outcome c = (ok, t)) :
    t.controller = s.controller ∧ t.log = s.log ++ [(c, ok)] ∧
      t.world = (if ok then s.world.after c else s.world) ∧
      ok = (outcome s.log.length && s.world.allows c) := by
  cases h
  exact ⟨rfl, rfl, rfl, rfl⟩

theorem absent_of_allows {w : World} {r : Resource} (h : w.allows c = true)
    (hr : c.creates = some r) : w.holder r = .absent := by
  rwa [World.allows, hr, Option.all_some, decide_eq_true_eq] at h

/-- One step that succeeds. -/
theorem Inv.step {step : CommandStep} (h : Inv foreign s)
    (hreg : step.completed = step.command.creates) (hdel : step.command.deletes = none)
    (hmove : step.command = .linkSetNetns → s.controller.ownsHostVeth = true)
    (hok : s.run outcome step.command = (true, t)) :
    Inv foreign { t with controller := t.controller.claim step.completed } := by
  obtain ⟨-, hlog, -, hyes⟩ := run_spec hok
  have hinv : Inv foreign t := by
    have hrun := h.run outcome step.command (fun r hr => by rw [hdel] at hr; cases hr) hmove
    rwa [hok] at hrun
  refine hinv.controller fun r hr => ?_
  rcases owns_claim.mp hr with hr | hr
  · exact ⟨hinv.made r hr, hinv.mine r hr⟩
  · rw [hreg] at hr
    refine ⟨⟨step.command, ?_, hr⟩, ?_⟩
    · rw [hlog]
      exact List.mem_append_right _ List.mem_cons_self
    · have habsent := absent_of_allows (Bool.and_eq_true_iff.mp hyes.symm).2 hr
      rw [← Bool.not_eq_true, ← h.others, habsent]
      decide

theorem runSteps_inv (outcome : Nat → Bool) {l : List CommandStep} (hreg : Regular l)
    (hmove : ∀ step ∈ l, step.command = .linkSetNetns → s.controller.ownsHostVeth = true)
    (h : Inv foreign s) : Inv foreign (runSteps outcome l s).2 := by
  induction l generalizing s with
  | nil => exact h
  | cons step rest ih =>
    obtain ⟨⟨hclaim, hdel⟩, hrest⟩ := List.forall_mem_cons.mp hreg
    have hmove₁ := hmove step List.mem_cons_self
    unfold runSteps
    split
    · rename_i t hrun
      have hinv := h.run outcome step.command (fun r hr => by rw [hdel] at hr; cases hr) hmove₁
      rwa [hrun] at hinv
    · rename_i t hrun
      refine ih hrest (fun step' hstep' hset => ?_) (h.step hclaim hdel hmove₁ hrun)
      have howns := hmove step' (List.mem_cons_of_mem _ hstep') hset
      rw [← (run_spec hrun).1] at howns
      exact (owns_claim (r := Resource.veth)).mpr (.inl howns)

/-- What the steps create is claimed. -/
theorem runSteps_tracked {l : List CommandStep} (hreg : Regular l) (h : Tracked s) :
    Tracked (runSteps outcome l s).2 := by
  induction l generalizing s with
  | nil => exact h
  | cons step rest ih =>
    obtain ⟨⟨hclaim, hdel⟩, hrest⟩ := List.forall_mem_cons.mp hreg
    unfold runSteps
    split
    · rename_i t hrun
      obtain ⟨hcon, -, hworld, -⟩ := run_spec hrun
      intro r hr
      rw [hcon]
      rw [hworld] at hr
      exact h r hr
    · rename_i t hrun
      obtain ⟨hcon, -, hworld, -⟩ := run_spec hrun
      refine ih hrest fun r hr => owns_claim.mpr ?_
      rw [hcon, hclaim]
      rw [hworld, if_pos rfl] at hr
      exact (after_controller hdel hr).imp_left (h r)

theorem runSteps_append (xs ys : List CommandStep) (s : Sys) : runSteps outcome (xs ++ ys) s =
    match runSteps outcome xs s with
    | (none, t) => runSteps outcome ys t
    | (some step, t) => (some step, t) := by
  induction xs generalizing s with
  | nil => rfl
  | cons step rest ih =>
    rw [List.cons_append, runSteps, runSteps]
    cases s.run outcome step.command with
    | mk ok t =>
      cases ok with
      | false => rfl
      | true => exact ih _

/-- A claim is kept by the steps after it. -/
theorem runSteps_owns (l : List CommandStep) {r : Resource} (h : s.controller.owns r = true) :
    (runSteps outcome l s).2.controller.owns r = true := by
  induction l generalizing s with
  | nil => exact h
  | cons step rest ih =>
    unfold runSteps
    split
    · exact (run_spec ‹_›).1 ▸ h
    · exact ih (owns_claim.mpr (.inl ((run_spec ‹_›).1 ▸ h)))

/-- Steps that have all succeeded have claimed what they create. -/
theorem runSteps_claimed {l : List CommandStep} (h : runSteps outcome l s = (none, t))
    {step : CommandStep} (hstep : step ∈ l) {r : Resource} (hr : step.completed = some r) :
    t.controller.owns r = true := by
  induction l generalizing s with
  | nil => cases hstep
  | cons first rest ih =>
    unfold runSteps at h
    split at h
    · cases h
    · rcases List.mem_cons.mp hstep with rfl | hstep
      · have heq := congrArg (·.2.controller.owns r) h
        exact heq ▸ runSteps_owns rest (owns_claim.mpr (.inr hr))
      · exact ih h hstep

theorem regular_claimSteps (p : Plan) : Regular (claimSteps p) := by
  intro step hstep
  simp only [claimSteps, List.mem_cons, List.not_mem_nil, or_false] at hstep
  rcases hstep with rfl | rfl | rfl | rfl | rfl | rfl | rfl <;> exact ⟨rfl, rfl⟩

theorem regular_configSteps (p : Plan) : Regular (configSteps p) := by
  intro step hstep
  rcases List.mem_append.mp hstep with hstep | hstep
  · simp only [List.mem_cons, List.not_mem_nil, or_false] at hstep
    rcases hstep with rfl | rfl | rfl | rfl | rfl | rfl | rfl | rfl | rfl <;> exact ⟨rfl, rfl⟩
  · split at hstep
    · rw [List.mem_singleton.mp hstep]
      exact ⟨rfl, rfl⟩
    · cases hstep

theorem steps_tracked (p : Plan) (h : Tracked s) :
    Tracked (runSteps outcome (steps p) s).2 :=
  runSteps_tracked (List.forall_mem_append.mpr ⟨regular_claimSteps p, regular_configSteps p⟩) h

theorem steps_inv (p : Plan) (h : Inv foreign s) :
    Inv foreign (runSteps outcome (steps p) s).2 := by
  have hclaims := runSteps_inv outcome (regular_claimSteps p)
    (fun step hstep hset => by
      simp only [claimSteps, List.mem_cons, List.not_mem_nil, or_false] at hstep
      rcases hstep with rfl | rfl | rfl | rfl | rfl | rfl | rfl <;> cases hset) h
  rw [steps, runSteps_append]
  cases hrun : runSteps outcome (claimSteps p) s with
  | mk failed t =>
    rw [hrun] at hclaims
    cases failed with
    | some step => exact hclaims
    | none =>
      -- the pair is this controller's own when its peer is moved
      have howns : t.controller.ownsHostVeth = true :=
        runSteps_claimed (r := .veth) hrun (List.mem_of_getLast? rfl) rfl
      exact runSteps_inv outcome (regular_configSteps p) (fun _ _ _ => howns) hclaims

/-! ## `cleanup` -/

/-- The condition under which `cleanup` forgets nothing: where it deletes the namespace while the
peer of its veth pair lies elsewhere, the pair is deleted by the command after. -/
def Kept (outcome : Nat → Bool) (s : Sys) : Prop :=
  s.controller.ownsNamespace = true → s.world.holder .veth = .controller → s.world.moved = false →
    outcome s.log.length = true → outcome (s.log.length + 1) = true

/-- The first two stages, where they have something to delete. -/
theorem deleteNamespace_owned (h : s.controller.ownsNamespace = true) :
    deleteNamespace outcome s =
      if outcome s.log.length then
        ([], { controller := { s.controller with ownsNamespace := false }
               world := s.world.after .netnsDel, log := s.log ++ [(.netnsDel, true)] })
      else ([.netnsDel], { s with log := s.log ++ [(.netnsDel, false)] }) := by
  rw [deleteNamespace, if_pos h, Sys.run]
  cases outcome s.log.length <;> rfl

theorem deleteVeth_owned (had : Bool) (h : s.controller.ownsHostVeth = true) :
    deleteVeth outcome had s =
      if outcome s.log.length then
        ([], { controller := { s.controller with ownsHostVeth := false }
               world := s.world.after .linkDel, log := s.log ++ [(.linkDel, true)] })
      else if had && !s.controller.ownsNamespace then
        ([], { s with controller := { s.controller with ownsHostVeth := false }
                      log := s.log ++ [(.linkDel, false)] })
      else ([.linkDel], { s with log := s.log ++ [(.linkDel, false)] }) := by
  rw [deleteVeth, if_pos h, Sys.run]
  cases outcome s.log.length <;> rfl

theorem Inv.delete (h : Inv foreign s) (r : Resource) (hc : c.deletes = some r)
    (hr : s.controller.owns r = true) {ok : Bool} (hrun : s.run outcome c = (ok, t)) :
    Inv foreign t := by
  have hinv := h.run outcome c (fun r' hr' => by rw [hc] at hr'; cases hr'; exact hr)
    (fun hset => by rw [hset] at hc; cases hc)
  rwa [hrun] at hinv

theorem deleteNamespace_inv (h : Inv foreign s) : Inv foreign (deleteNamespace outcome s).2 := by
  unfold deleteNamespace
  split
  · rename_i howns
    split
    · rename_i t hrun
      exact (h.delete .netns rfl howns hrun).lower fun r hr => by cases r <;> first | exact hr | cases hr
    · rename_i t hrun
      exact h.delete .netns rfl howns hrun
  · exact h

theorem deleteVeth_inv (h : Inv foreign s) (had : Bool) :
    Inv foreign (deleteVeth outcome had s).2 := by
  unfold deleteVeth
  split
  · rename_i howns
    have hinv := h.delete .veth rfl howns (Prod.eta (s.run outcome .linkDel)).symm
    split
    rename_i ok t hrun
    rw [hrun] at hinv
    split
    · exact hinv.lower fun r hr => by cases r <;> first | exact hr | cases hr
    · exact hinv
  · exact h

theorem removePins_inv (h : Inv foreign s) : Inv foreign (removePins outcome s).2 := by
  unfold removePins
  split
  · rename_i howns
    split
    rename_i removed t hrm
    have hinv := h.delete .pinRoot rfl howns hrm
    have howns' : t.controller.ownsPinRoot = true := (run_spec hrm).1 ▸ howns
    split
    · rename_i u hrmdir
      exact (hinv.delete .pinRoot rfl howns' hrmdir).lower fun r hr => by
        cases r <;> first | exact hr | cases hr
    · rename_i u hrmdir
      exact hinv.delete .pinRoot rfl howns' hrmdir
  · exact h

theorem cleanup_inv (h : Inv foreign s) : Inv foreign (cleanup outcome s).2 :=
  removePins_inv (deleteVeth_inv (deleteNamespace_inv h) _)

/-! ### Nothing is forgotten -/

theorem tracked_iff : Tracked s ↔
    (s.world.holder .pinRoot = .controller → s.controller.ownsPinRoot = true) ∧
      (s.world.holder .netns = .controller → s.controller.ownsNamespace = true) ∧
      (s.world.holder .veth = .controller → s.controller.ownsHostVeth = true) := by
  refine ⟨fun h => ⟨h .pinRoot, h .netns, h .veth⟩, fun h r => ?_⟩
  cases r with
  | pinRoot => exact h.1
  | netns => exact h.2.1
  | veth => exact h.2.2

/-- The machine after each of the deletes. -/
theorem after_netnsDel (w : World) : (w.after .netnsDel).holder .pinRoot = w.holder .pinRoot ∧
    (w.after .netnsDel).holder .netns = .absent ∧
    (w.after .netnsDel).holder .veth = (if w.moved then .absent else w.holder .veth) := by
  cases hm : w.moved <;> simp [World.after, hm, set_holder]

theorem deleteNamespace_tracked (h : Tracked s) : Tracked (deleteNamespace outcome s).2 := by
  rw [tracked_iff] at h
  by_cases howns : s.controller.ownsNamespace = true
  · obtain ⟨hpin, hns, hveth⟩ := after_netnsDel s.world
    rw [deleteNamespace_owned howns]
    split
    · refine tracked_iff.mpr ⟨hpin ▸ h.1, fun hc => ?_, fun hc => h.2.2 ?_⟩
      · rw [hns] at hc
        cases hc
      · rw [hveth] at hc
        split at hc
        · cases hc
        · exact hc
    · exact tracked_iff.mpr h
  · rw [deleteNamespace, if_neg howns]
    exact tracked_iff.mpr h

theorem deleteVeth_tracked (had : Bool) (h : Tracked s) :
    Tracked (deleteVeth outcome had s).2 ↔
      (had = true → s.controller.ownsNamespace = false → s.world.holder .veth = .controller →
        outcome s.log.length = true) := by
  rw [tracked_iff] at h
  by_cases howns : s.controller.ownsHostVeth = true
  · rw [deleteVeth_owned had howns]
    cases hok : outcome s.log.length with
    | true =>
      refine iff_of_true (tracked_iff.mpr ?_) fun _ _ _ => rfl
      simpa [World.after, set_holder] using ⟨h.1, h.2.1⟩
    | false =>
      cases hforget : had && !s.controller.ownsNamespace with
      | true =>
        rw [Bool.and_eq_true, Bool.not_eq_true'] at hforget
        simp only [tracked_iff, Bool.false_eq_true, if_false, if_true, imp_false, hforget,
          true_imp_iff]
        have hns : s.world.holder .netns ≠ .controller := fun hc => by
          rw [h.2.1 hc] at hforget
          cases hforget.2
        exact ⟨fun ht => ht.2.2, fun hv => ⟨h.1, hns, hv⟩⟩
      | false =>
        refine iff_of_true (tracked_iff.mpr h) fun hhad hns => ?_
        rw [hhad, hns] at hforget
        cases hforget
  · rw [deleteVeth, if_neg howns]
    exact iff_of_true (tracked_iff.mpr h) fun _ _ hv => absurd (h.2.2 hv) howns

theorem removePins_tracked : Tracked (removePins outcome s).2 ↔ Tracked s := by
  unfold removePins
  split
  · rename_i howns
    split
    rename_i removed t hrm
    obtain ⟨hcon, -, hworld, -⟩ := run_spec hrm
    have hsame : t.world = s.world := by rw [hworld]; split <;> rfl
    split
    all_goals
      rename_i u hrmdir
      obtain ⟨hcon', -, hworld', -⟩ := run_spec hrmdir
      simp only [tracked_iff, hcon', hworld', hcon, hsame]
    · simp [World.after, set_holder, howns]
    · rfl
  · rfl

/-- `cleanup` forgets nothing exactly under `Kept`. -/
theorem cleanup_tracked_iff (h : Tracked s) :
    Tracked (cleanup outcome s).2 ↔ Kept outcome s := by
  show Tracked (removePins outcome (deleteVeth outcome _ _).2).2 ↔ _
  rw [removePins_tracked, deleteVeth_tracked _ (deleteNamespace_tracked h), Kept]
  refine imp_congr_right fun howns => ?_
  obtain ⟨-, -, hveth⟩ := after_netnsDel s.world
  rw [deleteNamespace_owned howns]
  cases outcome s.log.length with
  | true =>
    simp only [if_true, List.length_append, List.length_singleton, hveth, true_imp_iff]
    cases s.world.moved <;> simp
  | false => simp [howns]

/-- Without an error each stage has given up its resource, and the later ones leave that. -/
theorem deleteNamespace_no_error (h : (deleteNamespace outcome s).1 = []) :
    (deleteNamespace outcome s).2.controller.ownsNamespace = false := by
  by_cases howns : s.controller.ownsNamespace = true
  · rw [deleteNamespace_owned howns] at h ⊢
    split at h
    · rw [if_pos ‹_›]
    · cases h
  · rw [deleteNamespace, if_neg howns]
    exact Bool.not_eq_true _ ▸ howns

theorem deleteVeth_no_error {had : Bool} (h : (deleteVeth outcome had s).1 = []) :
    (deleteVeth outcome had s).2.controller =
      { s.controller with ownsHostVeth := false } := by
  by_cases howns : s.controller.ownsHostVeth = true
  · rw [deleteVeth_owned had howns] at h ⊢
    split at h
    · rw [if_pos ‹_›]
    · split at h
      · rw [if_neg ‹_›, if_pos ‹_›]
      · cases h
  · rw [deleteVeth, if_neg howns]
    rw [Bool.not_eq_true] at howns
    rw [← howns]

theorem removePins_no_error (h : (removePins outcome s).1 = []) :
    (removePins outcome s).2.controller = { s.controller with ownsPinRoot := false } := by
  unfold removePins at h ⊢
  split
  · rename_i howns
    rw [if_pos howns] at h
    split
    rename_i removed t hrm
    simp only [hrm] at h
    split
    · rename_i u hrmdir
      show { u.controller with ownsPinRoot := false } = _
      rw [(run_spec hrmdir).1, (run_spec hrm).1]
    · rename_i u hrmdir
      simp only [hrmdir] at h
      exact absurd h (List.append_ne_nil_of_right_ne_nil _ (List.cons_ne_nil _ _))
  · rename_i howns
    rw [Bool.not_eq_true] at howns
    show s.controller = _
    rw [← howns]

theorem cleanup_no_error (h : (cleanup outcome s).1 = []) (r : Resource) :
    (cleanup outcome s).2.controller.owns r = false := by
  rw [cleanup] at h ⊢
  simp only [List.append_eq_nil_iff] at h
  obtain ⟨⟨hns, hveth⟩, hpins⟩ := h
  have hns' := deleteNamespace_no_error hns
  show Controller.owns (removePins outcome _).2.controller r = false
  rw [removePins_no_error hpins, deleteVeth_no_error hveth]
  cases r with
  | pinRoot | veth => rfl
  | netns => exact hns'

/-! ## Calls -/

/-- Every `cleanup` of the calls meets the condition. -/
def AllKept (outcome : Nat → Bool) (p : Plan) : Sys → List Call → Prop
  | _, [] => True
  | s, call :: rest =>
    (∀ u ∈ call.cleanupStart outcome p s, Kept outcome u) ∧
      AllKept outcome p (call.exec outcome p s).2 rest

theorem owns_active (c : Controller) (active : Bool) (r : Resource) :
    Controller.owns { c with active := active } r = c.owns r := by
  cases r <;> rfl

theorem Inv.setActive (h : Inv foreign s) (active : Bool) :
    Inv foreign { s with controller := { s.controller with active := active } } :=
  h.lower fun r hr => by rwa [owns_active] at hr

theorem Tracked.setActive (h : Tracked s) (active : Bool) :
    Tracked { s with controller := { s.controller with active := active } } :=
  fun r hr => (owns_active _ _ r).trans (h r hr)

/-- `Apply` is refused, or it runs the steps and cleans up after the one that fails. -/
theorem exec_apply (p : Plan) (s : Sys) : Call.apply.exec outcome p s =
    if s.controller.active ∨ p.policy.toOption.isNone then (none, s)
    else match runSteps outcome (steps p) s with
      | (some _, t) => (some (cleanup outcome t).1, (cleanup outcome t).2)
      | (none, t) => (none, { t with controller := { t.controller with active := true } }) := by
  show (match apply outcome p s with
    | (.failed _ errors, t) => (some errors, t)
    | (_, t) => (none, t)) = _
  unfold apply
  cases hactive : s.controller.active with
  | true => simp
  | false =>
    cases p.policy with
    | error text => rfl
    | ok value =>
      cases runSteps outcome (steps p) s with
      | mk failed t => cases failed <;> rfl

theorem exec_inv (p : Plan) (call : Call) (h : Inv foreign s) :
    Inv foreign (call.exec outcome p s).2 := by
  have hsteps : Inv foreign (runSteps outcome (steps p) s).2 := steps_inv p h
  cases call with
  | close =>
    show Inv foreign (ite _ _ _)
    split
    · exact (cleanup_inv h).setActive false
    · exact cleanup_inv h
  | apply =>
    rw [exec_apply]
    split
    · exact h
    · split <;> (rename_i hrun; rw [hrun] at hsteps)
      · exact cleanup_inv hsteps
      · exact hsteps.setActive true

theorem exec_tracked (p : Plan) (call : Call) (h : Tracked s)
    (hkept : ∀ u ∈ call.cleanupStart outcome p s, Kept outcome u) :
    Tracked (call.exec outcome p s).2 := by
  have hsteps : Tracked (runSteps outcome (steps p) s).2 := steps_tracked p h
  cases call with
  | close =>
    have hclean := (cleanup_tracked_iff h).mpr (hkept s rfl)
    show Tracked (ite _ _ _)
    split
    · exact hclean.setActive false
    · exact hclean
  | apply =>
    rw [exec_apply]
    split
    · exact h
    · rename_i hruns
      split <;> (rename_i hrun; rw [hrun] at hsteps)
      · refine (cleanup_tracked_iff hsteps).mpr (hkept _ ?_)
        rw [Call.cleanupStart, if_neg hruns, hrun]
        rfl
      · exact hsteps.setActive true

/-- A call whose `cleanup` reports no error owns nothing any more. -/
theorem exec_no_error (p : Plan) (call : Call) (h : (call.exec outcome p s).1 = some [])
    (r : Resource) : (call.exec outcome p s).2.controller.owns r = false := by
  cases call with
  | close =>
    have herr : (cleanup outcome s).1 = [] := Option.some.inj h
    show Controller.owns (Sys.controller (ite _ _ _)) r = _
    rw [if_pos herr, owns_active]
    exact cleanup_no_error herr r
  | apply =>
    rw [exec_apply] at h ⊢
    split at h
    · cases h
    · rw [if_neg ‹_›]
      split at h
      · exact cleanup_no_error (Option.some.inj h) r
      · cases h

theorem runCalls_inv (p : Plan) (calls : List Call) (h : Inv foreign s) :
    Inv foreign (runCalls outcome p s calls) := by
  induction calls generalizing s with
  | nil => exact h
  | cons call rest ih => exact ih (exec_inv p call h)

theorem runCalls_tracked (p : Plan) (calls : List Call) (h : Tracked s)
    (hkept : AllKept outcome p s calls) : Tracked (runCalls outcome p s calls) := by
  induction calls generalizing s with
  | nil => exact h
  | cons call rest ih => exact ih (exec_tracked p call h hkept.1) hkept.2

theorem allKept_snoc (p : Plan) (calls : List Call) (call : Call)
    (h : AllKept outcome p s (calls ++ [call])) : AllKept outcome p s calls ∧
      ∀ u ∈ call.cleanupStart outcome p (runCalls outcome p s calls), Kept outcome u := by
  induction calls generalizing s with
  | nil => exact ⟨trivial, h.1⟩
  | cons first rest ih =>
    obtain ⟨hrest, hlast⟩ := ih h.2
    exact ⟨⟨h.1, hrest⟩, hlast⟩

/-- In every run of `Apply` and `Close`: each delete names a resource that this controller has
created, and what others have made stays. If every `cleanup` meets the condition, then a call whose
`cleanup` reports no error leaves nothing that this controller has created. -/
theorem cleanup_leaks_nothing (p : Plan) (outcome : Nat → Bool) (foreign : Resource → Bool)
    (calls : List Call) (call : Call) :
    let s := runCalls outcome p (start foreign) calls
    let t := call.exec outcome p s
    Justified t.2.log ∧ (∀ r, t.2.world.holder r = .other ↔ foreign r = true) ∧
      (AllKept outcome p (start foreign) (calls ++ [call]) → t.1 = some [] →
        ∀ r, t.2.world.holder r ≠ .controller) := by
  intro s t
  have hinv : Inv foreign t.2 := exec_inv p call (runCalls_inv p calls (inv_start foreign))
  refine ⟨hinv.justified, hinv.others, fun hkept herr r hr => ?_⟩
  obtain ⟨hcalls, hcall⟩ := allKept_snoc p calls call hkept
  have htracked := exec_tracked p call (runCalls_tracked p calls (tracked_start foreign) hcalls) hcall
  have howns := htracked r hr
  rw [exec_no_error p call herr r] at howns
  cases howns

section Runs

/-- A plan with an empty policy and no queueing discipline. -/
def plainPlan : Plan where
  nameSpace := "promtact-ns"
  hostVeth := "promtact-h"
  peerVeth := "promtact-p"
  hostCIDR := "192.0.2.1/30"
  peerCIDR := "192.0.2.2/30"
  bpfObject := "promtact_chaos.bpf.o"
  policy := .ok (List.replicate 20 0)
  netem := none

/-- Everything is made, the commands all succeed, and `Close` leaves nothing. -/
theorem cleanup_after_apply : ∀ r, (Call.close.exec (fun _ => true) plainPlan
    (runCalls (fun _ => true) plainPlan (start fun _ => false) [.apply])).2.world.holder r ≠
      .controller := by
  refine (cleanup_leaks_nothing plainPlan (fun _ => true) (fun _ => false) [.apply] .close).2.2
    ?_ rfl
  exact ⟨fun _ _ _ _ _ _ => rfl, fun _ _ _ _ _ _ => rfl, trivial⟩

/-- The veth pair is created, moving its peer fails, `ip netns del` succeeds and `ip link del`
fails: the failed `Apply` reports the step only, and the pair that it has created is still there,
also after `Close`. -/
theorem forgotten_veth :
    let outcome := fun n => decide (n ≠ 7 ∧ n ≠ 9)
    let applied := Call.apply.exec outcome plainPlan (start fun _ => false)
    let closed := Call.close.exec outcome plainPlan applied.2
    applied.1 = some [] ∧ applied.2.log[7]? = some (.linkSetNetns, false) ∧
      applied.2.log[8]? = some (.netnsDel, true) ∧ applied.2.log[9]? = some (.linkDel, false) ∧
      applied.2.world.holder .veth = .controller ∧
      closed.1 = some [] ∧ closed.2.world.holder .veth = .controller := by
  decide +kernel

end Runs

end Promtact.Chaos
