import Promtact.Adapter.Proto

/-!
# Sessions of an adapter (`internal/adapterhost/session.go`)

A session numbers its requests and takes the next frame of the stream for the answer to the request
it has just written. After a call that failed the stream may be anywhere, also within a frame.

A session of the model also keeps the requests that it wrote and the answers that it accepted
(`written`, `accepted`). Every call is made of a few kinds of moves (`Move`), and what holds in
every state of a session is read off them (`Sound`). `Call.success` says what a call that succeeds
has read.
-/

namespace Promtact.Adapter

open Refine

/-- `Session`. `nodes` and `invariants` are also the source's sets. -/
structure Session (ω : Type) where
  input : List UInt8
  sink : ω
  nextId : UInt64 := 1
  closed : Bool := false
  nodes : List Nat := []
  invariants : List String := []
  written : List Request := []
  accepted : List (Request × Response) := []

/-- The methods of a session. -/
abbrev SessionM (ω : Type) := EStateM Failure (Session ω)

variable {ω α : Type}

/-- A check in its context. -/
def SessionM.inContext (context : String) (x : SessionM ω α) : SessionM ω α := fun s =>
  match x s with
  | .ok a s' => .ok a s'
  | .error e s' => .error (.wrapped context e) s'

namespace Session

section Program

variable (json : Json) (sink : Sink ω)

/-- A request is written. -/
def send (q : Request) : SessionM ω Unit := fun s =>
  match writeFrame json sink q s.sink with
  | (.ok _, w) => .ok () { s with sink := w, written := s.written ++ [q] }
  | (.error e, w) => .error e { s with sink := w, written := s.written ++ [q] }

/-- A response is read. -/
def receive : SessionM ω Response := fun s =>
  match readFrame json s.input with
  | (.ok p, rest) => .ok p { s with input := rest }
  | (.error e, rest) => .error e { s with input := rest }

/-- `exchange`: one request and its response. The id is spent even where the request fails. -/
def exchange (request : Request) : SessionM ω Response := do
  let s ← get
  if s.closed then throw .closed
  if s.nextId = 0 then throw .idExhausted
  let q := { request with version := Version, id := s.nextId }
  modify fun s => { s with nextId := s.nextId + 1 }
  liftM (validateRequest q)
  (send json sink q).inContext ("adapter host: write " ++ q.op.text ++ " request")
  let p ← (receive json).inContext ("adapter host: read " ++ q.op.text ++ " response")
  liftM (inContext ("adapter host: validate " ++ q.op.text ++ " response") (validateResponseFor q p))
  match p.error with
  | some e => throw (.remote q.op e)
  | none =>
    modify fun s => { s with accepted := s.accepted ++ [(q, p)] }
    pure p

/-- The target announced the node. -/
def requireNode (node : Nat) (s : Session ω) : Except Failure Unit :=
  if node ∈ s.nodes then .ok () else .error (.text ("node " ++ toString node ++ " is not configured"))

/-- `Open`, from a session that has just been made. -/
def openSession (seed : Int) : SessionM ω Unit := do
  let p ← (exchange json sink { op := .hello, hello := some seed }).inContext "adapter host: hello"
  match p.hello with
  | some hello => modify fun s => { s with nodes := hello.nodes, invariants := hello.invariants }
  -- A valid answer to hello has a body.
  | none => pure ()

/-- `Tick`. -/
def tick (node : Nat) : SessionM ω Unit := do
  liftM (requireNode node (← get))
  let _ ← exchange json sink { op := .tick, node := some node }

/-- The loop of `Drain`. -/
def checkDestinations (s : Session ω) : Nat → List Message → Except Failure Unit
  | _, [] => .ok ()
  | index, m :: rest => do
    inContext ("adapter host: drained message " ++ toString index ++ " destination")
      (requireNode m.dst s)
    checkDestinations s (index + 1) rest

/-- `Drain`: every message must be for a configured node. -/
def drain (node : Nat) : SessionM ω (List Message) := do
  liftM (requireNode node (← get))
  let p ← exchange json sink { op := .drain, node := some node }
  liftM (checkDestinations (← get) 0 p.messages)
  pure p.messages

/-- The checks of `Deliver` before its request. -/
def deliverable (node : Nat) (m : Message) (s : Session ω) : Except Failure Unit := do
  requireNode node s
  inContext "adapter host: message sender" (requireNode m.src s)
  if m.dst ≠ node then
    throw (.text ("adapter host: message destination " ++ toString m.dst ++ " does not match node " ++
      toString node))

/-- `Deliver`. -/
def deliver (node : Nat) (m : Message) : SessionM ω Unit := do
  liftM (deliverable node m (← get))
  let _ ← exchange json sink { op := .deliver, node := some node, message := some m }

/-- `Check`: only a declared invariant may be reported. -/
def check : SessionM ω (Option Violation) := do
  let p ← exchange json sink { op := .check }
  match p.violation with
  | none => pure none
  | some v =>
    if v.invariant ∉ (← get).invariants then
      throw (.text ("adapter host: adapter reported undeclared invariant " ++ quoted v.invariant))
    pure (some v)

/-- `Close`: closing twice sends nothing. -/
def close : SessionM ω Unit := do
  if (← get).closed then return
  let _ ← exchange json sink { op := .close }
  modify fun s => { s with closed := true }

end Program

/-! ## One exchange -/

/-- The request with its number. -/
def number (request : Request) (s : Session ω) : Request :=
  { request with version := Version, id := s.nextId }

/-- A session after a request was written. -/
def sent (request : Request) (input : List UInt8) (w : ω) (s : Session ω) : Session ω :=
  { s with input, sink := w, nextId := s.nextId + 1, written := s.written ++ [number request s] }

/-- The states in which an exchange can fail. -/
inductive Failed (request : Request) (s : Session ω) : Session ω → Prop
  | refused : Failed request s s
  | invalid (h : s.nextId ≠ 0) : Failed request s { s with nextId := s.nextId + 1 }
  | sent (h : s.nextId ≠ 0) (input : List UInt8) (w : ω) : Failed request s (sent request input w s)

/-- The state after an exchange that succeeds with `p`: the next frame of the stream is `p`, and it
is valid for the request that was written. -/
inductive Answered (json : Json) (request : Request) (s : Session ω) : Response → Session ω → Prop
  | intro {p : Response} {frame rest : List UInt8} (w : ω) (hid : s.nextId ≠ 0)
    (hinput : s.input = frame ++ rest) (hframe : IsFrame json frame p)
    (hvalid : validateResponseFor (number request s) p = .ok ()) (herror : p.error = none) :
    Answered json request s p
      { sent request rest w s with accepted := s.accepted ++ [(number request s, p)] }

variable {json : Json} {sink : Sink ω}

theorem send_spec {B : Session ω → Prop} {q : Request} {s : Session ω} (context : String)
    (h : ∀ w, B { s with sink := w, written := s.written ++ [q] }) :
    Triple B ((send json sink q).inContext context) s
      fun _ s' => ∃ w, s' = { s with sink := w, written := s.written ++ [q] } := by
  unfold Triple Sim SessionM.inContext send
  cases writeFrame json sink q s.sink with
  | mk result w =>
    cases result with
    | error e => exact ⟨(), .refl, h w⟩
    | ok a => exact ⟨(), .refl, w, rfl⟩

theorem receive_spec {B : Session ω → Prop} {s : Session ω} (context : String)
    (h : ∀ rest, B { s with input := rest }) :
    Triple B ((receive json).inContext context) s
      fun p s' => ∃ frame rest, s' = { s with input := rest } ∧ s.input = frame ++ rest ∧
        IsFrame json frame p := by
  unfold Triple Sim SessionM.inContext receive
  cases hread : readFrame json s.input with
  | mk result rest =>
    cases result with
    | error e => exact ⟨(), .refl, h rest⟩
    | ok p =>
      obtain ⟨frame, hinput, hframe⟩ := readFrame_ok hread
      exact ⟨(), .refl, frame, rest, rfl, hinput, hframe⟩

theorem exchange_spec (request : Request) (s : Session ω) :
    Triple (Failed request s) (exchange json sink request) s (Answered json request s) := by
  refine Sim.seq_get (Sim.ite (fun _ => Sim.fail .refused) fun _ => ?_)
  refine Sim.ite (fun _ => Sim.fail .refused) fun hid => Sim.seq_update ?_
  refine Sim.seq_check_of (.invalid hid) fun _ _ => ?_
  refine Sim.seq (send_spec _ fun w => .sent hid s.input w) fun _ _ s₁ _ hs₁ => ?_
  obtain ⟨w, rfl⟩ := hs₁
  refine Sim.seq (receive_spec _ fun rest => .sent hid rest w) fun p _ s₂ _ hs₂ => ?_
  obtain ⟨frame, rest, rfl, hinput, hframe⟩ := hs₂
  refine Sim.seq_check_of (.sent hid rest w) fun _ hvalid => ?_
  split
  · exact Sim.fail (.sent hid rest w)
  · exact Sim.seq_update (Sim.ret (.intro w hid hinput hframe (inContext_ok hvalid) ‹_›))

/-! ## The moves of a session -/

/-- What a call can do, and what the adapter can do between two calls. -/
inductive Move : Session ω → Session ω → Prop
  | number (s : Session ω) (h : s.nextId ≠ 0) : Move s { s with nextId := s.nextId + 1 }
  | send (s : Session ω) (h : s.nextId ≠ 0) (request : Request) (input : List UInt8) (w : ω) :
    Move s (sent request input w s)
  | accept (s : Session ω) (h : s.nextId ≠ 0) (request : Request) (p : Response) (input : List UInt8)
    (w : ω) (hop : request.op ≠ .hello) (hans : Answers (number request s) p) :
    Move s { sent request input w s with accepted := s.accepted ++ [(number request s, p)] }
  | close (s : Session ω) : Move s { s with closed := true }
  | feed (s : Session ω) (bytes : List UInt8) : Move s { s with input := s.input ++ bytes }

theorem exchange_moves {request : Request} (hop : request.op ≠ .hello) (s : Session ω) :
    Sim Move (fun w s => w = s) s (exchange json sink request) s
      fun p w s' => w = s' ∧ Answered json request s p s' := by
  have hspec : Triple (Failed request s) (exchange json sink request) s (Answered json request s) :=
    exchange_spec request s
  unfold Sim
  cases hx : exchange json sink request s with
  | ok p s' =>
    have ha := hspec.ok hx
    refine ⟨s', .single ?_, rfl, ha⟩
    cases ha with
    | intro w hid hinput hframe hvalid herror =>
      exact .accept s hid request p _ w hop (validateResponseFor_ok hvalid)
  | error e s' =>
    refine ⟨s', ?_, rfl⟩
    cases hspec.error hx with
    | refused => exact .refl
    | invalid hid => exact .single (.number s hid)
    | sent hid input w => exact .single (.send s hid request input w)

theorem exchange_made {request : Request} (hop : request.op ≠ .hello) :
    Made Move (exchange json sink request) := fun s =>
  (exchange_moves hop s).mono fun _ _ _ _ h => h.1

theorem requireNode_ok {node : Nat} {s : Session ω} : requireNode node s = .ok () ↔ node ∈ s.nodes := by
  unfold requireNode
  split <;> simp_all

theorem tick_made (node : Nat) : Made Move (tick json sink node) := fun s =>
  Sim.seq_get (Sim.seq_check_of rfl fun _ _ => (exchange_made (by rintro ⟨⟩) s).discard)

theorem deliver_made (node : Nat) (m : Message) : Made Move (deliver json sink node m) := fun s =>
  Sim.seq_get (Sim.seq_check_of rfl fun _ _ => (exchange_made (by rintro ⟨⟩) s).discard)

theorem check_made : Made Move (check json sink : SessionM ω _) := by
  refine fun s => (exchange_made (by rintro ⟨⟩)).seq (fun p s => ?_) s
  split
  · exact Sim.ret rfl
  · exact Sim.seq_get (Sim.ite (fun _ => Sim.fail rfl) fun _ => Sim.ret rfl)

theorem close_made : Made Move (close json sink : SessionM ω _) := fun s =>
  Sim.seq_get (Sim.ite (fun _ => Sim.ret rfl) fun _ =>
    ((exchange_made (by rintro ⟨⟩)).seq fun _ s => Sim.step (.close s) (Sim.update rfl)) s)

/-- The message came with an answer to a drain of its sender, and is between declared nodes. -/
structure Drawn (s : Session ω) (m : Message) : Prop where
  src : m.src ∈ s.nodes
  dst : m.dst ∈ s.nodes
  origin : ∃ a ∈ s.accepted, a.1.op = .drain ∧ a.1.node = some m.src ∧ m ∈ a.2.messages

theorem checkDestinations_ok {s : Session ω} {index : Nat} {messages : List Message}
    (h : checkDestinations s index messages = .ok ()) : ∀ m ∈ messages, m.dst ∈ s.nodes := by
  induction messages generalizing index with
  | nil => exact fun m hm => (List.not_mem_nil hm).elim
  | cons m rest ih =>
    obtain ⟨_, hm, hrest⟩ := check_ok h
    exact List.forall_mem_cons.mpr ⟨requireNode_ok.mp (inContext_ok hm), ih hrest⟩

theorem drain_moves (node : Nat) (s : Session ω) :
    Sim Move (fun w s => w = s) s (drain json sink node) s
      fun out w s' => w = s' ∧ ∀ m ∈ out, Drawn s' m := by
  refine Sim.seq_get (Sim.seq_check_of rfl fun _ hnode => ?_)
  refine (exchange_moves (by rintro ⟨⟩) s).seq fun p w s' _ hs' => ?_
  obtain ⟨rfl, hs'⟩ := hs'
  refine Sim.seq_get (Sim.seq_check_of rfl fun _ hdst => Sim.ret ⟨rfl, fun m hm => ?_⟩)
  cases hs' with
  | intro sink' hid hinput hframe hvalid herror =>
    have hsrc : m.src = node := (validateResponseFor_ok hvalid).senders herror rfl node rfl m hm
    have hin : m.src ∈ s.nodes := hsrc ▸ requireNode_ok.mp hnode
    exact ⟨hin, checkDestinations_ok hdst m hm, _, List.mem_append_right _ List.mem_cons_self, rfl,
      hsrc ▸ rfl, hm⟩

/-! ## What holds in every state -/

/-- Nothing that was declared or accepted is lost. -/
structure Extends (s s' : Session ω) : Prop where
  nodes : s'.nodes = s.nodes
  accepted : s.accepted <+: s'.accepted

theorem Drawn.extends {s s' : Session ω} {m : Message} (h : Drawn s m) (he : Extends s s') :
    Drawn s' m := by
  obtain ⟨a, ha, hrest⟩ := h.origin
  exact ⟨he.nodes ▸ h.src, he.nodes ▸ h.dst, a, he.accepted.subset ha, hrest⟩

theorem moves_extend {s s' : Session ω} (h : Relation.ReflTransGen Move s s') : Extends s s' := by
  induction h with
  | refl => exact ⟨rfl, List.prefix_rfl⟩
  | tail _ hm ih =>
    cases hm with
    | accept => exact ⟨ih.nodes, ih.accepted.trans (List.prefix_append _ _)⟩
    | number | send | close | feed => exact ⟨ih.nodes, ih.accepted⟩

/-- The requests that were written have the numbers before `next`, in order. After the last number
`next` is 0, and nothing more is written. -/
structure Numbered (written : List Request) (next : UInt64) : Prop where
  ids : (written.map (·.id)).Pairwise (· < ·)
  nonzero : ∀ q ∈ written, q.id ≠ 0
  below : next ≠ 0 → ∀ q ∈ written, q.id < next

theorem lt_succ_of_ne_zero {n : UInt64} (h : n + 1 ≠ 0) : n < n + 1 := by
  have hlt := n.toNat_lt
  have hne : (n + 1).toNat ≠ 0 := fun h0 => h (UInt64.toNat_inj.mp h0)
  rw [UInt64.lt_iff_toNat_lt]
  rw [UInt64.toNat_add] at hne ⊢
  simp only [UInt64.toNat_one] at hne ⊢
  omega

theorem Numbered.skip {written : List Request} {n : UInt64} (h : Numbered written n) (hn : n ≠ 0) :
    Numbered written (n + 1) :=
  ⟨h.ids, h.nonzero, fun hne q hq => UInt64.lt_trans (h.below hn q hq) (lt_succ_of_ne_zero hne)⟩

theorem Numbered.snoc {written : List Request} {n : UInt64} {q : Request} (h : Numbered written n)
    (hn : n ≠ 0) (hq : q.id = n) : Numbered (written ++ [q]) (n + 1) := by
  refine ⟨?_, fun q' hq' => ?_, fun hne q' hq' => ?_⟩
  · rw [List.map_append, List.pairwise_append]
    refine ⟨h.ids, List.pairwise_singleton _ _, fun i hi j hj => ?_⟩
    obtain ⟨q', hq', rfl⟩ := List.mem_map.mp hi
    rw [List.map_singleton, List.mem_singleton] at hj
    rw [hj, hq]
    exact h.below hn q' hq'
  · rcases List.mem_append.mp hq' with hq' | hq'
    · exact h.nonzero q' hq'
    · rw [List.mem_singleton.mp hq', hq]
      exact hn
  · rcases List.mem_append.mp hq' with hq' | hq'
    · exact (h.skip hn).below hne q' hq'
    · rw [List.mem_singleton.mp hq', hq]
      exact lt_succ_of_ne_zero hne

/-- The answers to hello. -/
def hellos (accepted : List (Request × Response)) : List (Request × Response) :=
  accepted.filter fun a => a.1.op = .hello

/-- The requests are numbered, each answer that was accepted has the version, the number and the
operation of its request, and the nodes are those of the one hello. -/
structure Sound (s : Session ω) : Prop where
  numbered : Numbered s.written s.nextId
  answers : ∀ a ∈ s.accepted, a.1 ∈ s.written ∧ Answers a.1 a.2
  hello : ∃ q p hello, hellos s.accepted = [(q, p)] ∧ p.hello = some hello ∧
    s.nodes = hello.nodes

/-- The answers, after one more request. -/
theorem answers_sent {s : Session ω} {q : Request}
    (h : ∀ a ∈ s.accepted, a.1 ∈ s.written ∧ Answers a.1 a.2) :
    ∀ a ∈ s.accepted, a.1 ∈ s.written ++ [q] ∧ Answers a.1 a.2 :=
  fun a ha => ⟨List.mem_append_left _ (h a ha).1, (h a ha).2⟩

theorem Sound.move {s s' : Session ω} (h : Sound s) (hm : Move s s') : Sound s' := by
  cases hm with
  | number hid => exact ⟨h.numbered.skip hid, h.answers, h.hello⟩
  | send hid request input w =>
    exact ⟨h.numbered.snoc hid rfl, answers_sent h.answers, h.hello⟩
  | accept hid request p input w hop hans =>
    refine ⟨h.numbered.snoc hid rfl, fun a ha => ?_, ?_⟩
    · rcases List.mem_append.mp ha with ha | ha
      · exact answers_sent h.answers a ha
      · rw [List.mem_singleton.mp ha]
        exact ⟨List.mem_append_right _ List.mem_cons_self, hans⟩
    · have hsame : hellos (s.accepted ++ [(number request s, p)]) = hellos s.accepted := by
        simp [hellos, number, hop]
      exact hsame ▸ h.hello
  | close | feed => exact ⟨h.numbered, h.answers, h.hello⟩

theorem Sound.moves {s s' : Session ω} (h : Sound s) (hm : Relation.ReflTransGen Move s s') :
    Sound s' := by
  induction hm with
  | refl => exact h
  | tail _ hm ih => exact ih.move hm

/-- An error with its context. -/
theorem inContext_spec {B : Session ω → Prop} {x : SessionM ω α} {s : Session ω}
    {Q : α → Session ω → Prop} (context : String) (h : Triple B x s Q) :
    Triple B (x.inContext context) s Q := by
  unfold Triple Sim SessionM.inContext
  cases hx : x s with
  | ok a s' => exact ⟨(), .refl, h.ok hx⟩
  | error e s' => exact ⟨(), .refl, h.error hx⟩

theorem openSession_spec (seed : Int) (s : Session ω) :
    Triple (fun _ => True) (openSession json sink seed) s fun _ s' => ∃ p s₁ hello,
      Answered json { op := .hello, hello := some seed } s p s₁ ∧ p.hello = some hello ∧
      s' = { s₁ with nodes := hello.nodes, invariants := hello.invariants } := by
  refine Sim.seq (inContext_spec _ (exchange_spec _ s).succeeds) fun p _ s₁ _ hs₁ => ?_
  have hbody : ∃ hello, p.hello = some hello := by
    cases hs₁ with
    | intro w hid hinput hframe hvalid herror =>
      have hop := (validateResponseFor_ok hvalid).op
      obtain ⟨_, -, hrest⟩ := check_ok hvalid
      obtain ⟨_, hp, -⟩ := check_ok hrest
      exact validateResponse_hello (inContext_ok hp) herror hop
  obtain ⟨hello, hhello⟩ := hbody
  rw [hhello]
  exact Sim.update ⟨p, s₁, hello, hs₁, hhello, rfl⟩

/-- A session that was opened. -/
theorem openSession_sound {seed : Int} {input : List UInt8} {w : ω} {s : Session ω}
    (h : openSession json sink seed { input, sink := w } = .ok () s) : Sound s := by
  obtain ⟨p, s₁, hello, hanswer, hhello, rfl⟩ := (openSession_spec seed _).ok h
  cases hanswer with
  | intro w hid hinput hframe hvalid herror =>
    refine ⟨?_, ?_, _, p, hello, rfl, hhello, rfl⟩
    · exact Numbered.snoc ⟨.nil, fun q hq => (List.not_mem_nil hq).elim,
        fun _ q hq => (List.not_mem_nil hq).elim⟩ hid rfl
    · intro a ha
      rw [List.mem_singleton.mp ha]
      exact ⟨List.mem_cons_self, validateResponseFor_ok hvalid⟩

end Session

/-! ## Calls that succeed -/

/-- A method of the session, with its arguments. -/
inductive Call where
  | tick (node : Nat)
  | drain (node : Nat)
  | deliver (node : Nat) (m : Message)
  | check
  | close
  deriving DecidableEq, Repr

namespace Call

open Session

/-- The operation a method sends. -/
def op : Call → Operation
  | .tick _ => .tick
  | .drain _ => .drain
  | .deliver _ _ => .deliver
  | .check => .check
  | .close => .close

/-- A call, without its result. -/
def exec (json : Json) (sink : Sink ω) : Call → SessionM ω Unit
  | .tick node => Session.tick json sink node
  | .drain node => do let _ ← Session.drain json sink node
  | .deliver node m => Session.deliver json sink node m
  | .check => do let _ ← Session.check json sink
  | .close => Session.close json sink

variable {json : Json} {sink : Sink ω}

theorem exec_made (call : Call) : Made Move (exec json sink call) := by
  cases call with
  | tick node => exact tick_made node
  | drain node => exact fun s => ((drain_moves node s).mono fun _ _ _ _ h => h.1).discard
  | deliver node m => exact deliver_made node m
  | check => exact fun s => (check_made s).discard
  | close => exact close_made

end Call

/-- One request was written, and the next frame of the stream is a response with its version, its
number and its operation. -/
structure Correlated (json : Json) (op : Operation) (s s' : Session ω) (q : Request) (p : Response)
    (frame : List UInt8) : Prop where
  written : s'.written = s.written ++ [q]
  request : q.op = op ∧ q.id = s.nextId ∧ q.id ≠ 0
  read : s.input = frame ++ s'.input
  frame : IsFrame json frame p
  response : p.version = q.version ∧ p.id = q.id ∧ p.op = q.op

theorem correlated_of_answered {json : Json} {request : Request} {s s' : Session ω} {p : Response}
    (h : Session.Answered json request s p s') :
    ∃ q frame, Correlated json request.op s s' q p frame := by
  cases h with
  | intro w hid hinput hframe hvalid herror =>
    have hans := validateResponseFor_ok hvalid
    exact ⟨_, _, rfl, ⟨rfl, rfl, hid⟩, hinput, hframe, hans.version, hans.id, hans.op⟩

/-- An exchange that is all that is left of a call. -/
theorem exchange_correlated {json : Json} {sink : Sink ω} (request : Request) (s : Session ω) :
    Triple (fun _ => True) (Session.exchange json sink request) s
      fun p s' => ∃ q frame, Correlated json request.op s s' q p frame :=
  (Session.exchange_spec request s).succeeds.mono fun _ _ _ _ h => correlated_of_answered h

/-- A call that succeeds has read the answer to its own request, or closes a session that is
closed. -/
theorem Call.success {json : Json} {sink : Sink ω} (call : Call) (s : Session ω) :
    Triple (fun _ => True) (call.exec json sink) s fun _ s' =>
      call = .close ∧ s.closed = true ∧ s' = s ∨
        ∃ q p frame, Correlated json call.op s s' q p frame := by
  cases call with
  | tick node =>
    refine Sim.seq_get (Sim.seq_check_of trivial fun _ _ => ?_)
    exact Sim.seq (exchange_correlated _ s) fun p _ _ _ ⟨q, frame, h⟩ =>
      Sim.ret (.inr ⟨q, p, frame, h⟩)
  | drain node =>
    refine Sim.seq ?_ fun _ _ _ _ h => Sim.ret (.inr h)
    refine Sim.seq_get (Sim.seq_check_of trivial fun _ _ => ?_)
    refine Sim.seq (exchange_correlated _ s) fun p _ _ _ ⟨q, frame, h⟩ => ?_
    exact Sim.seq_get (Sim.seq_check_of trivial fun _ _ => Sim.ret ⟨q, p, frame, h⟩)
  | deliver node m =>
    refine Sim.seq_get (Sim.seq_check_of trivial fun _ _ => ?_)
    exact Sim.seq (exchange_correlated _ s) fun p _ _ _ ⟨q, frame, h⟩ =>
      Sim.ret (.inr ⟨q, p, frame, h⟩)
  | check =>
    refine Sim.seq ?_ fun _ _ _ _ h => Sim.ret (.inr h)
    refine Sim.seq (exchange_correlated _ s) fun p _ s' _ ⟨q, frame, h⟩ => ?_
    split
    · exact Sim.ret ⟨q, p, frame, h⟩
    · exact Sim.seq_get (Sim.ite (fun _ => Sim.fail trivial) fun _ => Sim.ret ⟨q, p, frame, h⟩)
  | close =>
    refine Sim.seq_get (Sim.ite (fun hc => Sim.ret (.inl ⟨rfl, hc, rfl⟩)) fun _ => ?_)
    refine Sim.seq (exchange_correlated _ s) fun p _ _ _ ⟨q, frame, h⟩ => Sim.update ?_
    exact .inr ⟨q, p, frame, h.written, h.request, h.read, h.frame, h.response⟩

end Promtact.Adapter
