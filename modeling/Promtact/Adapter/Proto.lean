import Promtact.Lib.Bytes
import Promtact.Lib.Sim

/-!
# The process adapter protocol (`internal/adapterproto`)

The requests of the host and the responses of an adapter, what makes each of them valid, and the
frames that carry them: a length of four bytes, big-endian, and a text.

`encoding/json` is a parameter (`Json`), since nothing here depends on it: a text is read as some
response or not at all.
-/

namespace Promtact.Adapter

open Bytes Refine

/-- The version both sides must speak. -/
def Version : UInt16 := 1

/-- `Operation`. `other` is any other text. -/
inductive Operation where
  | hello
  | tick
  | drain
  | deliver
  | check
  | close
  | other (text : String)
  deriving DecidableEq, Repr

/-- The operation as it stands in the JSON. -/
def Operation.text : Operation → String
  | .hello => "hello"
  | .tick => "tick"
  | .drain => "drain"
  | .deliver => "deliver"
  | .check => "check"
  | .close => "close"
  | .other text => text

/-- `Message`. `src` and `dst` are the source's `From` and `To`. -/
structure Message where
  src : Nat
  dst : Nat
  kind : UInt8
  value : Nat
  payload : List UInt8 := []
  deriving DecidableEq, Repr

/-- `Request`. The body of a hello is its seed. -/
structure Request where
  version : UInt16 := 0
  id : UInt64 := 0
  op : Operation
  hello : Option Int := none
  node : Option Nat := none
  message : Option Message := none
  deriving DecidableEq, Repr

/-- The nodes of the target and the invariants it can report. -/
structure HelloResponse where
  nodes : List Nat
  invariants : List String := []
  deriving DecidableEq, Repr

/-- An invariant that the target reports as violated. -/
structure Violation where
  invariant : String
  detail : String
  deriving DecidableEq, Repr

/-- An error the target reports. -/
structure RemoteError where
  code : String
  message : String
  deriving DecidableEq, Repr

/-- What the target sends back, before any check. -/
structure Response where
  version : UInt16
  id : UInt64
  op : Operation
  error : Option RemoteError := none
  hello : Option HelloResponse := none
  messages : List Message := []
  violation : Option Violation := none
  deriving DecidableEq, Repr

/-- The errors of the protocol and of its host. `wrapped` is an error with its context. -/
inductive Failure where
  | closed
  | idExhausted
  | emptyFrame
  | frameTooLarge (size : Nat)
  | remote (op : Operation) (error : RemoteError)
  | text (message : String)
  | wrapped (context : String) (cause : Failure)
  deriving DecidableEq, Repr

/-- `MaxFrameSize`: 16 MiB. -/
def maxFrameSize : Nat := 16 * 2 ^ 20

/-- `Error`. -/
def Failure.message : Failure → String
  | .closed => "adapter host: session is closed"
  | .idExhausted => "adapter host: request ids exhausted"
  | .emptyFrame => "adapter protocol: empty frame"
  | .frameTooLarge size => "adapter protocol: frame too large: " ++ toString size ++
      " bytes exceeds " ++ toString maxFrameSize
  | .remote op error => "adapter host: remote " ++ op.text ++ " failed with " ++ error.code ++ ": " ++
      error.message
  | .text message => message
  | .wrapped context cause => context ++ ": " ++ cause.message

/-- An error with its context. -/
def inContext {α : Type} (context : String) : Except Failure α → Except Failure α
  | .ok a => .ok a
  | .error e => .error (.wrapped context e)

/-- `protocolError`: the text with the prefix of the package. -/
def protocolError {α : Type} (text : String) : Except Failure α :=
  .error (.text ("adapter protocol: " ++ text))

/-- `%q` of a text without characters that it escapes. -/
def quoted (text : String) : String := "\"" ++ text ++ "\""

/-- `strings.TrimSpace(text) == ""`: the white space of Unicode. -/
def blank (text : String) : Bool :=
  text.toList.all fun c =>
    let n := c.toNat
    (9 ≤ n && n ≤ 13) || n == 32 || n == 0x85 || n == 0xA0 || n == 0x1680 ||
      (0x2000 ≤ n && n ≤ 0x200A) || n == 0x2028 || n == 0x2029 || n == 0x202F || n == 0x205F ||
      n == 0x3000

/-! ## Validation -/

/-- `validateEnvelope`: version, id and operation, in this order. -/
def validateEnvelope (version : UInt16) (id : UInt64) (op : Operation) : Except Failure Unit := do
  if version ≠ Version then protocolError ("version " ++ toString version ++ " is not supported")
  if id = 0 then protocolError "request id must be non-zero"
  match op with
  | .other text =>
    if text = "" then protocolError "operation is empty"
    else protocolError ("unknown operation " ++ quoted text)
  | _ => pure ()

/-- `ValidateRequest`: each operation has its own fields and no others. -/
def validateRequest (q : Request) : Except Failure Unit := do
  validateEnvelope q.version q.id q.op
  match q.op with
  | .hello =>
    if q.hello.isNone then protocolError "hello request has no hello body"
    if q.node.isSome ∨ q.message.isSome then protocolError "hello request has unrelated fields"
  | .tick | .drain =>
    if q.node.isNone then protocolError (q.op.text ++ " request has no node")
    if q.hello.isSome ∨ q.message.isSome then
      protocolError (q.op.text ++ " request has unrelated fields")
  | .deliver =>
    match q.node, q.message with
    | some node, some m =>
      if q.hello.isSome then protocolError "deliver request has unrelated fields"
      if node ≠ m.dst then
        protocolError ("deliver node " ++ toString node ++ " does not match message destination " ++
          toString m.dst)
    | _, _ => protocolError "deliver request requires node and message"
  | .check | .close =>
    if q.hello.isSome ∨ q.node.isSome ∨ q.message.isSome then
      protocolError (q.op.text ++ " request has unrelated fields")
  | .other text => protocolError ("unknown operation " ++ quoted text)

/-- The first loop of `validateHello`. -/
def checkNodes : List Nat → List Nat → Except Failure Unit
  | _, [] => .ok ()
  | seen, node :: rest =>
    if node ∈ seen then protocolError ("hello response repeats node " ++ toString node)
    else checkNodes (node :: seen) rest

/-- The second loop of `validateHello`. -/
def checkInvariants : List String → List String → Except Failure Unit
  | _, [] => .ok ()
  | seen, name :: rest =>
    if blank name then protocolError "hello response has an empty invariant name"
    else if name ∈ seen then protocolError ("hello response repeats invariant " ++ quoted name)
    else checkInvariants (name :: seen) rest

/-- `validateHello`: nodes and invariants are listed once each. -/
def validateHello (hello : HelloResponse) : Except Failure Unit := do
  if hello.nodes.length = 0 then protocolError "hello response has no nodes"
  checkNodes [] hello.nodes
  checkInvariants [] hello.invariants

/-- `ValidateResponse`: an error comes alone, and each operation has its own fields. -/
def validateResponse (p : Response) : Except Failure Unit := do
  validateEnvelope p.version p.id p.op
  match p.error with
  | some e =>
    if blank e.code then protocolError "remote error has no code"
    if blank e.message then protocolError "remote error has no message"
    if p.hello.isSome ∨ p.messages.length ≠ 0 ∨ p.violation.isSome then
      protocolError "error response also contains success fields"
  | none =>
    match p.op with
    | .hello =>
      match p.hello with
      | none => protocolError "hello response has no hello body"
      | some hello =>
        if p.messages.length ≠ 0 ∨ p.violation.isSome then
          protocolError "hello response has unrelated fields"
        validateHello hello
    | .tick | .deliver | .close =>
      if p.hello.isSome ∨ p.messages.length ≠ 0 ∨ p.violation.isSome then
        protocolError (p.op.text ++ " response has unrelated fields")
    | .drain =>
      if p.hello.isSome ∨ p.violation.isSome then
        protocolError "drain response has unrelated fields"
    | .check =>
      if p.hello.isSome ∨ p.messages.length ≠ 0 then
        protocolError "check response has unrelated fields"
      match p.violation with
      | none => pure ()
      | some violation =>
        if blank violation.invariant then protocolError "violation has no invariant name"
        if blank violation.detail then protocolError "violation has no detail"
    | .other text => protocolError ("unknown operation " ++ quoted text)

/-- The loop over the messages that were drained. -/
def checkSenders (node : Nat) : Nat → List Message → Except Failure Unit
  | _, [] => .ok ()
  | index, m :: rest =>
    if m.src ≠ node then
      protocolError ("drained message " ++ toString index ++ " has sender " ++ toString m.src ++
        ", want node " ++ toString node)
    else checkSenders node (index + 1) rest

/-- `ValidateResponseFor`: both are valid, and the response answers this request. -/
def validateResponseFor (q : Request) (p : Response) : Except Failure Unit := do
  inContext "request" (validateRequest q)
  inContext "response" (validateResponse p)
  if p.id ≠ q.id then
    protocolError ("response id " ++ toString p.id ++ " does not match request id " ++ toString q.id)
  if p.op ≠ q.op then
    protocolError ("response operation " ++ quoted p.op.text ++
      " does not match request operation " ++ quoted q.op.text)
  match p.error, q.op, q.node with
  | none, .drain, some node => checkSenders node 0 p.messages
  -- A valid drain request has a node.
  | _, _, _ => pure ()

/-! ## Frames -/

/-- `json.Marshal` of a request and `json.Unmarshal` of a response. -/
structure Json where
  marshal : Request → Except String (List UInt8)
  unmarshal : List UInt8 → Except String Response

/-- `binary.BigEndian`. -/
def be (width value : Nat) : List UInt8 := (le width value).reverse

/-- The number of big-endian bytes. -/
def fromBE (b : List UInt8) : Nat := fromLE b.reverse

/-- `io.ReadFull`, with what is left of the stream. -/
def readFull (count : Nat) (input : List UInt8) : Except Failure (List UInt8) × List UInt8 :=
  if count ≤ input.length then (.ok (input.take count), input.drop count)
  else (.error (.text (if input = [] then "EOF" else "unexpected EOF")), [])

/-- `ReadFrame`: what a failed read leaves on the stream is part of the result. -/
def readFrame (json : Json) (input : List UInt8) : Except Failure Response × List UInt8 :=
  match readFull 4 input with
  | (.error e, rest) => (.error (.wrapped "adapter protocol: read length" e), rest)
  | (.ok header, rest) =>
    if fromBE header = 0 then (.error .emptyFrame, rest)
    else if fromBE header > maxFrameSize then (.error (.frameTooLarge (fromBE header)), rest)
    else
      match readFull (fromBE header) rest with
      | (.error e, rest) => (.error (.wrapped "adapter protocol: read payload" e), rest)
      | (.ok payload, rest) =>
        match json.unmarshal payload with
        | .error e => (.error (.wrapped "adapter protocol: decode frame" (.text e)), rest)
        | .ok p => (.ok p, rest)

/-- `io.Writer`: how many bytes were taken, and an error. -/
structure Sink (ω : Type) where
  write : List UInt8 → ω → (Nat × Option String) × ω

section Write

variable {ω : Type} (json : Json) (sink : Sink ω)

/-- The loop of `writeAll`. Each pass takes a byte at least, so the length of the data is enough
passes. -/
def writeLoop : Nat → List UInt8 → ω → Except Failure Unit × ω
  | _, [], w => (.ok (), w)
  | 0, _ :: _, w => (.error (.text "short write"), w)
  | passes + 1, data, w =>
    match sink.write data w with
    | ((_, some e), w) => (.error (.text e), w)
    | ((0, none), w) => (.error (.text "short write"), w)
    | ((n + 1, none), w) => writeLoop passes (data.drop (n + 1)) w

/-- `writeAll`: as many writes as it takes. -/
def writeAll (data : List UInt8) (w : ω) : Except Failure Unit × ω :=
  writeLoop sink data.length data w

/-- `WriteFrame`: length first, then the payload. -/
def writeFrame (q : Request) (w : ω) : Except Failure Unit × ω :=
  match json.marshal q with
  | .error e => (.error (.wrapped "adapter protocol: encode frame" (.text e)), w)
  | .ok payload =>
    if payload.length > maxFrameSize then (.error (.frameTooLarge payload.length), w)
    else
      match writeAll sink (be 4 payload.length) w with
      | (.error e, w) => (.error (.wrapped "adapter protocol: write length" e), w)
      | (.ok _, w) =>
        match writeAll sink payload w with
        | (.error e, w) => (.error (.wrapped "adapter protocol: write payload" e), w)
        | (.ok _, w) => (.ok (), w)

end Write

/-! ## What is valid -/

theorem validateEnvelope_ok {version : UInt16} {id : UInt64} {op : Operation}
    (h : validateEnvelope version id op = .ok ()) : version = Version ∧ id ≠ 0 := by
  unfold validateEnvelope at h
  obtain ⟨hversion, h⟩ := guard_ok h
  obtain ⟨hid, -⟩ := guard_ok h
  exact ⟨not_not.mp hversion, hid⟩

theorem inContext_ok {α : Type} {context : String} {x : Except Failure α} {a : α}
    (h : inContext context x = .ok a) : x = .ok a := by
  cases x with
  | ok b => exact h
  | error e => cases h

theorem checkSenders_ok {node index : Nat} {messages : List Message}
    (h : checkSenders node index messages = .ok ()) : ∀ m ∈ messages, m.src = node := by
  induction messages generalizing index with
  | nil => exact fun m hm => (List.not_mem_nil hm).elim
  | cons m rest ih =>
    unfold checkSenders at h
    split at h
    · cases h
    · exact List.forall_mem_cons.mpr ⟨not_not.mp ‹_›, ih h⟩

/-- What is known of a response that is accepted for a request. -/
structure Answers (q : Request) (p : Response) : Prop where
  version : p.version = q.version
  id : p.id = q.id
  op : p.op = q.op
  senders : p.error = none → q.op = .drain → ∀ node, q.node = some node →
    ∀ m ∈ p.messages, m.src = node

theorem validateResponseFor_ok {q : Request} {p : Response}
    (h : validateResponseFor q p = .ok ()) : Answers q p := by
  obtain ⟨_, hq, h⟩ := check_ok h
  obtain ⟨_, hp, h⟩ := check_ok h
  obtain ⟨hid, h⟩ := guard_ok h
  obtain ⟨hop, h⟩ := guard_ok h
  obtain ⟨_, hqe, -⟩ := check_ok (inContext_ok hq)
  obtain ⟨_, hpe, -⟩ := check_ok (inContext_ok hp)
  refine ⟨?_, not_not.mp hid, not_not.mp hop, fun herr hdrain node hnode => ?_⟩
  · rw [(validateEnvelope_ok hqe).1, (validateEnvelope_ok hpe).1]
  · simp only [herr, hdrain, hnode] at h
    exact checkSenders_ok h

/-- A response to hello declares the nodes. -/
theorem validateResponse_hello {p : Response} (h : validateResponse p = .ok ())
    (herr : p.error = none) (hop : p.op = .hello) : ∃ hello, p.hello = some hello := by
  obtain ⟨_, -, h⟩ := check_ok h
  simp only [herr, hop] at h
  cases hbody : p.hello with
  | some hello => exact ⟨hello, rfl⟩
  | none =>
    rw [hbody] at h
    cases h

/-- The bytes of a frame that is read as `p`. -/
def IsFrame (json : Json) (frame : List UInt8) (p : Response) : Prop :=
  ∃ header payload, frame = header ++ payload ∧ header.length = 4 ∧
    fromBE header = payload.length ∧ payload ≠ [] ∧ payload.length ≤ maxFrameSize ∧
    json.unmarshal payload = .ok p

theorem readFull_ok {count : Nat} {input b rest : List UInt8}
    (h : readFull count input = (.ok b, rest)) : input = b ++ rest ∧ b.length = count := by
  unfold readFull at h
  split at h
  · cases h
    exact ⟨(List.take_append_drop _ _).symm, List.length_take_of_le ‹_›⟩
  · cases h

/-- A frame is read from the front of the stream. -/
theorem readFrame_ok {json : Json} {input rest : List UInt8} {p : Response}
    (h : readFrame json input = (.ok p, rest)) :
    ∃ frame, input = frame ++ rest ∧ IsFrame json frame p := by
  unfold readFrame at h
  split at h
  · cases h
  · rename_i header rest₁ hheader
    obtain ⟨rfl, hlen⟩ := readFull_ok hheader
    by_cases hzero : fromBE header = 0
    · rw [if_pos hzero] at h
      cases h
    rw [if_neg hzero] at h
    by_cases hbig : fromBE header > maxFrameSize
    · rw [if_pos hbig] at h
      cases h
    rw [if_neg hbig] at h
    split at h
    · cases h
    · rename_i payload rest₂ hpayload
      obtain ⟨rfl, hsize⟩ := readFull_ok hpayload
      split at h
      · cases h
      · rename_i hjson
        cases h
        refine ⟨header ++ payload, (List.append_assoc ..).symm, header, payload, rfl, hlen,
          hsize.symm, fun hnil => hzero ?_, by omega, hjson⟩
        rw [← hsize, hnil]
        rfl

end Promtact.Adapter
