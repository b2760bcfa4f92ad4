import Promtact.Protocol.Peer

/-!
# Requests of clients (`protocol/client.go`, `protocol/call.go`)

A request is 40 bytes, and a response 32. A client writes the frame of a request, and reads the
frame of the response (`call`); the server reads and answers it (`Server.handleClient`, here
`exchange`).

* `decodeClientRequest_encode`, `decodeClientResponse_encode`: both are read back.
* `decodeClientRequest_ok`: what the server accepts has one of the four operations.
* `call_exchange`: a call returns what the server answers to the request of the client; a request with
  another operation is answered with `StatusInvalid`.
-/

namespace Promtact.Protocol

open Bytes

/-- What a client asks for. A code without a name is kept as it was read. -/
inductive ClientOp where
  | put
  | delete
  | get
  | status
  | other (code : UInt8) (unnamed : code = 0 ∨ 5 ≤ code)
  deriving DecidableEq, Repr

/-- The outcome in a response. A code without a name is kept as it was read. -/
inductive Status where
  | ok
  | notLeader
  | busy
  | invalid
  | notFound
  | timeout
  | internal
  | other (code : UInt16) (unnamed : 7 ≤ code)
  deriving DecidableEq, Repr

/-- A request: a write is named by its client and its number. -/
structure ClientRequest where
  operation : ClientOp
  clientID : UInt64 := 0
  requestID : UInt64 := 0
  key : UInt64 := 0
  value : UInt64 := 0
  deriving DecidableEq, Repr

/-- The answer to a request, with the leader the server knows of. -/
structure ClientResponse where
  status : Status := .ok
  leader : Nat := 0
  requestID : UInt64 := 0
  value : UInt64 := 0
  commit : Nat := 0
  deriving DecidableEq, Repr

/-! ## Codes -/

/-- The byte an operation is written as. -/
def ClientOp.code : ClientOp → UInt8
  | .put => 1
  | .delete => 2
  | .get => 3
  | .status => 4
  | .other code _ => code

/-- The operation of a byte; the last branch is never taken. -/
def ClientOp.ofCode (code : UInt8) : ClientOp :=
  if code = 1 then .put
  else if code = 2 then .delete
  else if code = 3 then .get
  else if code = 4 then .status
  else if h : code = 0 ∨ 5 ≤ code then .other code h
  else .put

/-- The two bytes a status is written as. -/
def Status.code : Status → UInt16
  | .ok => 0
  | .notLeader => 1
  | .busy => 2
  | .invalid => 3
  | .notFound => 4
  | .timeout => 5
  | .internal => 6
  | .other code _ => code

/-- The status of a code; the last branch is never taken. -/
def Status.ofCode (code : UInt16) : Status :=
  if code = 0 then .ok
  else if code = 1 then .notLeader
  else if code = 2 then .busy
  else if code = 3 then .invalid
  else if code = 4 then .notFound
  else if code = 5 then .timeout
  else if code = 6 then .internal
  else if h : 7 ≤ code then .other code h
  else .ok

theorem ClientOp.ofCode_code (operation : ClientOp) : ofCode operation.code = operation := by
  cases operation with
  | other code h =>
    have hne : ∀ c : UInt8, 0 < c → c < 5 → code ≠ c := by
      rintro c h0 hc rfl
      rcases h with h | h
      · rw [h] at h0
        exact absurd h0 (by decide)
      · exact absurd h (UInt8.not_le.mpr hc)
    show ofCode code = _
    unfold ofCode
    simp only [hne 1 (by decide) (by decide), hne 2 (by decide) (by decide),
      hne 3 (by decide) (by decide), hne 4 (by decide) (by decide), h, if_false, dif_pos]
  | _ => rfl

theorem Status.ofCode_code (status : Status) : ofCode status.code = status := by
  cases status with
  | other code h =>
    have hne : ∀ c : UInt16, c < 7 → code ≠ c := by
      rintro c hc rfl
      exact absurd h (UInt16.not_le.mpr hc)
    show ofCode code = _
    unfold ofCode
    simp only [hne 0 (by decide), hne 1 (by decide), hne 2 (by decide), hne 3 (by decide),
      hne 4 (by decide), hne 5 (by decide), hne 6 (by decide), h, if_false, dif_pos]
  | _ => rfl

/-! ## Requests -/

/-- Why a request does not decode. -/
inductive ClientError where
  | protocol (e : Error)
  | invalidOperation
  deriving DecidableEq, Repr

/-- The text of the error. -/
def ClientError.message : ClientError → String
  | .protocol e => e.message
  | .invalidOperation => "protocol: invalid client operation"

/-- The bytes of a request. -/
def clientRequestSize : Nat := 40

/-- The bytes of a response. -/
def clientResponseSize : Nat := 32

/-- The fields of a request in the order of its bytes, each with its width. -/
def requestLayout (r : ClientRequest) : List (Nat × Nat) :=
  [(1, r.operation.code.toNat), (7, 0), (8, r.clientID.toNat), (8, r.requestID.toNat),
    (8, r.key.toNat), (8, r.value.toNat)]

/-- `EncodeClientRequest`. -/
def encodeClientRequest (r : ClientRequest) : List UInt8 := pack (requestLayout r)

/-- `DecodeClientRequest`: the length is checked first, then the operation. -/
def decodeClientRequest (data : List UInt8) : Except ClientError ClientRequest :=
  if data.length ≠ clientRequestSize then .error (.protocol .frame)
  else
    let request : ClientRequest :=
      { operation := .ofCode (u8 data 0)
        clientID := u64 data 8
        requestID := u64 data 16
        key := u64 data 24
        value := u64 data 32 }
    if request.operation.code < 1 ∨ request.operation.code > 4 then .error .invalidOperation
    else .ok request

/-- The operations that a server accepts. -/
def ClientOp.Named (operation : ClientOp) : Prop := ¬ (operation.code < 1 ∨ operation.code > 4)

instance (operation : ClientOp) : Decidable operation.Named :=
  inferInstanceAs (Decidable (¬ _))

theorem decodeClientRequest_encode (r : ClientRequest) : decodeClientRequest (encodeClientRequest r) =
    if r.operation.Named then .ok r else .error .invalidOperation := by
  have hlen : (encodeClientRequest r).length = clientRequestSize := length_pack _
  have hop : u8 (encodeClientRequest r) 0 = r.operation.code := by
    have hfield : fromLE (slice (pack (requestLayout r) ++ []) 0 1) = r.operation.code.toNat :=
      fromLE_field (i := 0) rfl rfl r.operation.code.toNat_lt
    rw [List.append_nil] at hfield
    rw [u8, encodeClientRequest, hfield, UInt8.ofNat_toNat]
  have hclient : u64 (encodeClientRequest r) 8 = r.clientID := u64_field (i := 2) rfl
  have hrequest : u64 (encodeClientRequest r) 16 = r.requestID := u64_field (i := 3) rfl
  have hkey : u64 (encodeClientRequest r) 24 = r.key := u64_field (i := 4) rfl
  have hvalue : u64 (encodeClientRequest r) 32 = r.value := u64_field (i := 5) rfl
  unfold decodeClientRequest
  rw [if_neg (not_not.mpr hlen), hop, hclient, hrequest, hkey, hvalue, ClientOp.ofCode_code]
  dsimp only
  by_cases hn : r.operation.Named
  · rw [if_pos hn, if_neg (show ¬ _ from hn)]
  · rw [if_neg hn, if_pos (not_not.mp hn)]

theorem decodeClientRequest_ok {data : List UInt8} {r : ClientRequest}
    (h : decodeClientRequest data = .ok r) : r.operation.Named := by
  unfold decodeClientRequest at h
  split at h
  · cases h
  · dsimp only at h
    split at h
    · cases h
    · cases h
      assumption

/-! ## Responses -/

/-- The fields of a response in the order of its bytes, each with its width. -/
def responseLayout (r : ClientResponse) : List (Nat × Nat) :=
  [(2, r.status.code.toNat), (2, 0), (4, r.leader), (8, r.requestID.toNat), (8, r.value.toNat),
    (8, r.commit)]

/-- `EncodeClientResponse`. -/
def encodeClientResponse (r : ClientResponse) : List UInt8 := pack (responseLayout r)

/-- `DecodeClientResponse`: any status is accepted. -/
def decodeClientResponse (data : List UInt8) : Except ClientError ClientResponse :=
  if data.length ≠ clientResponseSize then .error (.protocol .frame)
  else .ok
    { status := .ofCode (u16 data 0)
      leader := (u32 data 4).toNat
      requestID := u64 data 8
      value := u64 data 16
      commit := (u64 data 24).toNat }

/-- The numbers have the width of the source's types. -/
structure ClientResponse.Fits (r : ClientResponse) : Prop where
  leader : r.leader < 2 ^ 32
  commit : r.commit < 2 ^ 64

theorem decodeClientResponse_encode {r : ClientResponse} (h : r.Fits) :
    decodeClientResponse (encodeClientResponse r) = .ok r := by
  have hlen : (encodeClientResponse r).length = clientResponseSize := length_pack _
  have hstatus : u16 (encodeClientResponse r) 0 = r.status.code := u16_field (i := 0) rfl
  have hleader : (u32 (encodeClientResponse r) 4).toNat = r.leader := u32_field (i := 2) rfl h.leader
  have hrequest : u64 (encodeClientResponse r) 8 = r.requestID := u64_field (i := 3) rfl
  have hvalue : u64 (encodeClientResponse r) 16 = r.value := u64_field (i := 4) rfl
  have hcommit : (u64 (encodeClientResponse r) 24).toNat = r.commit := by
    have hwidth : r.commit = (UInt64.ofNat r.commit).toNat := (UInt64.toNat_ofNat_of_lt' h.commit).symm
    have hfield : u64 (encodeClientResponse r) 24 = UInt64.ofNat r.commit :=
      u64_field (i := 5) (congrArg (fun v => some (8, v)) hwidth)
    rw [hfield, UInt64.toNat_ofNat_of_lt' h.commit]
  rw [decodeClientResponse, if_neg (not_not.mpr hlen), hstatus, hleader, hrequest, hvalue, hcommit,
    Status.ofCode_code]

/-! ## A call -/

/-- The response to the payload of a request, which is answered by `handle`. -/
def answer (handle : ClientRequest → ClientResponse) (payload : List UInt8) : ClientResponse :=
  match decodeClientRequest payload with
  | .error _ => { status := .invalid }
  | .ok value => handle value

/-- `Server.handleClient` for a connection that brought `input`: what it writes. -/
def exchange (handle : ClientRequest → ClientResponse) (input : List UInt8) : List UInt8 :=
  match readFrame input with
  | .error _ => []
  | .ok (kind, payload, _) =>
    if kind ≠ .clientRequest then []
    else match writeFrame .clientResponse (encodeClientResponse (answer handle payload)) with
      | .error _ => []
      | .ok output => output

/-- `Call`, to a server that answers the bytes it gets with `serve`. -/
def call (serve : List UInt8 → List UInt8) (request : ClientRequest) :
    Except ClientError ClientResponse :=
  match writeFrame .clientRequest (encodeClientRequest request) with
  | .error e => .error (.protocol e)
  | .ok input =>
    match readFrame (serve input) with
    | .error e => .error (.protocol e)
    | .ok (kind, payload, _) =>
      if kind ≠ .clientResponse then .error (.protocol .frame) else decodeClientResponse payload

theorem answer_encode (handle : ClientRequest → ClientResponse) (request : ClientRequest) :
    answer handle (encodeClientRequest request) =
      if request.operation.Named then handle request else { status := .invalid } := by
  rw [answer, decodeClientRequest_encode]
  split <;> rename_i hres
  · split at hres
    · cases hres
    · rw [if_neg ‹_›]
  · split at hres
    · cases hres
      rw [if_pos ‹_›]
    · cases hres

theorem writeFrame_ok (kind : Kind) {payload : List UInt8} (h : payload.length ≤ maxFrameSize) :
    ∃ frame, writeFrame kind payload = .ok frame ∧ readFrame frame = .ok (kind, payload, []) := by
  have hwrite : ∃ frame, writeFrame kind payload = .ok frame := ⟨_, if_neg (Nat.not_lt.mpr h)⟩
  obtain ⟨frame, hwrite⟩ := hwrite
  have hread := readFrame_writeFrame hwrite []
  rw [List.append_nil] at hread
  exact ⟨frame, hwrite, hread⟩

theorem exchange_ok (handle : ClientRequest → ClientResponse) {input payload rest : List UInt8}
    (h : readFrame input = .ok (.clientRequest, payload, rest)) :
    readFrame (exchange handle input) =
      .ok (.clientResponse, encodeClientResponse (answer handle payload), []) := by
  have hlen : (encodeClientResponse (answer handle payload)).length = clientResponseSize :=
    length_pack _
  obtain ⟨output, hwrite, hread⟩ := writeFrame_ok .clientResponse
    (hlen.trans_le (by decide) : (encodeClientResponse (answer handle payload)).length ≤ _)
  rw [exchange, h]
  dsimp only
  rw [if_neg (not_not.mpr rfl), hwrite]
  exact hread

/-- A call returns what the server answers. -/
theorem call_exchange (handle : ClientRequest → ClientResponse) (request : ClientRequest)
    (hfits : (handle request).Fits) : call (exchange handle) request =
      .ok (if request.operation.Named then handle request else { status := .invalid }) := by
  have hlen : (encodeClientRequest request).length = clientRequestSize := length_pack _
  obtain ⟨input, hwrite, hread⟩ := writeFrame_ok .clientRequest
    (hlen.trans_le (by decide) : (encodeClientRequest request).length ≤ _)
  rw [call, hwrite]
  dsimp only
  rw [exchange_ok handle hread, answer_encode]
  dsimp only
  rw [if_neg (not_not.mpr rfl)]
  refine decodeClientResponse_encode ?_
  split
  · exact hfits
  · exact ⟨by decide, by decide⟩

theorem call_exchange_get : call (exchange fun request => { requestID := request.requestID, value := 7 })
    { operation := .get, requestID := 2 } = .ok { requestID := 2, value := 7 } :=
  (call_exchange _ _ ⟨by decide, by decide⟩).trans rfl

end Promtact.Protocol
