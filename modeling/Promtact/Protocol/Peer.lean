import Promtact.Lib.Bytes
import Promtact.Storage.RaftWal

/-!
# The wire format between the nodes (`protocol/frame.go`, `protocol/peer.go`)

A frame is a header with the kind, the length and the checksum of a payload, and the payload. The
payload between two nodes is a message: 176 bytes for the fields, and the snapshot.

* `decodePeer_encodePeer`: a message whose fields have the width of the source's types is read back.
* `readFrame_writeFrame`: a frame is read back, and what follows it is left.
-/

namespace Promtact.Protocol

open Raft Storage Bytes

/-- The version every frame carries. -/
def version : UInt16 := 1

/-- Magic, version, kind, length and checksum. -/
def headerSize : Nat := 16

/-- The longest payload of a frame. -/
def maxFrameSize : Nat := 2 ^ 20

/-- What the payload of a frame is. A code without a name is kept as it was read. -/
inductive Kind where
  | peer
  | clientRequest
  | clientResponse
  | other (code : UInt16) (unnamed : code = 0 ∨ 4 ≤ code)
  deriving DecidableEq, Repr

/-- Why a frame or a peer message is refused. -/
inductive Error where
  | frame
  | version
  | frameTooLarge
  | eof
  | unexpectedEOF
  deriving DecidableEq, Repr

/-- The text of the error. -/
def Error.message : Error → String
  | .frame => "protocol: invalid frame"
  | .version => "protocol: unsupported version"
  | .frameTooLarge => "protocol: frame too large"
  | .eof => "EOF"
  | .unexpectedEOF => "unexpected EOF"

/-! ## Codes -/

/-- The two bytes a kind is written as. -/
def Kind.code : Kind → UInt16
  | .peer => 1
  | .clientRequest => 2
  | .clientResponse => 3
  | .other code _ => code

/-- The kind of a code; the last branch is never taken. -/
def Kind.ofCode (code : UInt16) : Kind :=
  if code = 1 then .peer
  else if code = 2 then .clientRequest
  else if code = 3 then .clientResponse
  else if h : code = 0 ∨ 4 ≤ code then .other code h
  else .peer

/-- The message type of a byte. -/
def typeOfCode (code : UInt8) : MessageType :=
  if code = 0 then .preVote
  else if code = 1 then .preVoteResponse
  else if code = 2 then .requestVote
  else if code = 3 then .requestVoteResponse
  else if code = 4 then .append
  else if code = 5 then .appendResponse
  else if code = 6 then .timeoutNow
  else if code = 7 then .installSnapshot
  else if code = 8 then .installSnapshotResponse
  else if h : 9 ≤ code then .other code h
  else .preVote

theorem typeOfCode_typeCode (type : MessageType) : typeOfCode (typeCode type) = type := by
  cases type with
  | other code h =>
    have hne : ∀ c : UInt8, c < 9 → code ≠ c := by
      rintro c hc rfl
      exact absurd h (UInt8.not_le.mpr hc)
    show typeOfCode code = _
    unfold typeOfCode
    simp only [hne 0 (by decide), hne 1 (by decide), hne 2 (by decide), hne 3 (by decide),
      hne 4 (by decide), hne 5 (by decide), hne 6 (by decide), hne 7 (by decide), hne 8 (by decide),
      h, if_false, dif_pos]
  | _ => rfl

theorem Kind.ofCode_code (kind : Kind) : Kind.ofCode kind.code = kind := by
  cases kind with
  | other code h =>
    have hne : ∀ c : UInt16, 0 < c → c < 4 → code ≠ c := by
      rintro c h0 hc rfl
      rcases h with h | h
      · rw [h] at h0
        exact absurd h0 (by decide)
      · exact absurd h (UInt16.not_le.mpr hc)
    show Kind.ofCode code = _
    unfold Kind.ofCode
    simp only [hne 1 (by decide) (by decide), hne 2 (by decide) (by decide),
      hne 3 (by decide) (by decide), h, if_false, dif_pos]
  | _ => rfl

/-! ## Messages -/

/-- The bytes of a peer message before its snapshot. -/
def peerFixedSize : Nat := 176

/-- The fields of a message as they stand in the payload. -/
def peerLayout (m : Message) : List (Nat × Nat) :=
  [(1, (typeCode m.type).toNat), (1, m.reject.toNat), (1, m.hasEntry.toNat), (1, 0),
    (4, m.src), (4, m.dst), (8, m.term), (8, m.logIndex), (8, m.logTerm), (8, m.commit),
    (8, m.matchIndex), (8, m.context.toNat), (8, m.snapshotIndex), (8, m.snapshotTerm),
    (8, m.entry.term), (8, m.entry.command.toNat), (1, (kindCode m.entry.kind).toNat),
    (1, (operationCode m.entry.operation).toNat), (6, 0), (8, m.entry.oldVoters.toNat),
    (8, m.entry.newVoters.toNat), (8, m.entry.clientID.toNat), (8, m.entry.requestID.toNat),
    (8, m.entry.key.toNat), (8, m.entry.value.toNat), (8, m.snapshotOld.toNat),
    (8, m.snapshotNew.toNat), (4, m.snapshot.length), (8, 0)]

/-- `EncodePeer`: the fixed fields, then the snapshot. -/
def encodePeer (m : Message) : List UInt8 := pack (peerLayout m) ++ m.snapshot

/-- `DecodePeer`: only the lengths are checked. -/
def decodePeer (data : List UInt8) : Except Error Message :=
  if data.length < peerFixedSize then .error .frame
  else if (u32 data 164).toNat ≠ data.length - peerFixedSize then .error .frame
  else .ok
    { type := typeOfCode (u8 data 0)
      reject := u8 data 1 != 0
      hasEntry := u8 data 2 != 0
      src := (u32 data 4).toNat
      dst := (u32 data 8).toNat
      term := (u64 data 12).toNat
      logIndex := (u64 data 20).toNat
      logTerm := (u64 data 28).toNat
      commit := (u64 data 36).toNat
      matchIndex := (u64 data 44).toNat
      context := u64 data 52
      snapshotIndex := (u64 data 60).toNat
      snapshotTerm := (u64 data 68).toNat
      entry :=
        { term := (u64 data 76).toNat
          command := u64 data 84
          kind := kindOfCode (u8 data 92)
          operation := operationOfCode (u8 data 93)
          oldVoters := (u64 data 100).toBitVec
          newVoters := (u64 data 108).toBitVec
          clientID := u64 data 116
          requestID := u64 data 124
          key := u64 data 132
          value := u64 data 140 }
      snapshotOld := (u64 data 148).toBitVec
      snapshotNew := (u64 data 156).toBitVec
      snapshot := data.drop peerFixedSize }

/-- The fields have the width of the source's types. -/
structure Fits (m : Message) : Prop where
  src : m.src < 2 ^ 32
  dst : m.dst < 2 ^ 32
  term : m.term < 2 ^ 64
  logIndex : m.logIndex < 2 ^ 64
  logTerm : m.logTerm < 2 ^ 64
  commit : m.commit < 2 ^ 64
  matchIndex : m.matchIndex < 2 ^ 64
  snapshotIndex : m.snapshotIndex < 2 ^ 64
  snapshotTerm : m.snapshotTerm < 2 ^ 64
  entryTerm : m.entry.term < 2 ^ 64
  snapshot : m.snapshot.length < 2 ^ 32

/-- Where each of the fields that `decodePeer` reads starts. -/
theorem width_take_peerLayout (m : Message) :
    ∀ p ∈ [(0, 0), (1, 1), (2, 2), (4, 4), (5, 8), (6, 12), (7, 20), (8, 28), (9, 36), (10, 44),
      (11, 52), (12, 60), (13, 68), (14, 76), (15, 84), (16, 92), (17, 93), (19, 100), (20, 108),
      (21, 116), (22, 124), (23, 132), (24, 140), (25, 148), (26, 156), (27, 164),
      (29, peerFixedSize)], width ((peerLayout m).take p.1) = p.2 := by
  simp [width, peerLayout, peerFixedSize]

theorem length_peerLayout (m : Message) : (pack (peerLayout m)).length = peerFixedSize := by
  rw [length_pack]
  exact width_take_peerLayout m (29, peerFixedSize) (by decide)

theorem length_encodePeer (m : Message) :
    (encodePeer m).length = peerFixedSize + m.snapshot.length := by
  rw [encodePeer, List.length_append, length_peerLayout]

/-- Reading the fields of an encoded message. -/
structure Reads (m : Message) (data : List UInt8) : Prop where
  u8 : ∀ {i o : Nat} {v : UInt8}, (peerLayout m)[i]? = some (1, v.toNat) →
    width ((peerLayout m).take i) = o → u8 data o = v
  bool : ∀ {i o : Nat} {v : Bool}, (peerLayout m)[i]? = some (1, v.toNat) →
    width ((peerLayout m).take i) = o → (Bytes.u8 data o != 0) = v
  u32 : ∀ {i o v : Nat}, (peerLayout m)[i]? = some (4, v) →
    width ((peerLayout m).take i) = o → v < 2 ^ 32 → (u32 data o).toNat = v
  nat : ∀ {i o v : Nat}, (peerLayout m)[i]? = some (8, v) →
    width ((peerLayout m).take i) = o → v < 2 ^ 64 → (u64 data o).toNat = v
  word : ∀ {i o : Nat} {v : UInt64}, (peerLayout m)[i]? = some (8, v.toNat) →
    width ((peerLayout m).take i) = o → u64 data o = v
  mask : ∀ {i o : Nat} {v : Mask}, (peerLayout m)[i]? = some (8, v.toNat) →
    width ((peerLayout m).take i) = o → (u64 data o).toBitVec = v

theorem encodePeer_reads (m : Message) : Reads m (encodePeer m) := by
  have read : ∀ {i w v o}, (peerLayout m)[i]? = some (w, v) → width ((peerLayout m).take i) = o →
      v < 256 ^ w → fromLE (slice (encodePeer m) o w) = v := fromLE_field
  have nat : ∀ {i o v : Nat}, (peerLayout m)[i]? = some (8, v) →
      width ((peerLayout m).take i) = o → v < 2 ^ 64 → (Bytes.u64 (encodePeer m) o).toNat = v :=
    fun hi ho hv => by rw [Bytes.u64, read hi ho hv, UInt64.toNat_ofNat_of_lt' hv]
  refine ⟨fun {_ _ v} hi ho => ?_, fun {_ _ v} hi ho => ?_, fun hi ho hv => ?_, nat,
    fun {_ _ v} hi ho => ?_, fun {_ _ v} hi ho => ?_⟩
  · rw [Bytes.u8, read hi ho v.toNat_lt, UInt8.ofNat_toNat]
  · rw [Bytes.u8, read hi ho (by cases v <;> decide)]
    cases v <;> rfl
  · rw [Bytes.u32, read hi ho hv, UInt32.toNat_ofNat_of_lt' hv]
  · exact UInt64.toNat_inj.mp (nat hi ho v.toNat_lt)
  · exact BitVec.eq_of_toNat_eq (nat hi ho v.isLt)

/-- A message is read back. -/
theorem decodePeer_encodePeer {m : Message} (h : Fits m) : decodePeer (encodePeer m) = .ok m := by
  have hr := encodePeer_reads m
  have hw := width_take_peerLayout m
  simp only [List.forall_mem_cons] at hw
  obtain ⟨w0, w1, w2, w4, w8, w12, w20, w28, w36, w44, w52, w60, w68, w76, w84, w92, w93, w100,
    w108, w116, w124, w132, w140, w148, w156, w164, -⟩ := hw
  have hlen := length_encodePeer m
  have hdrop : (encodePeer m).drop peerFixedSize = m.snapshot :=
    List.drop_left' (length_peerLayout m)
  rw [decodePeer, if_neg (by omega), hr.u32 (i := 27) rfl w164 h.snapshot, if_neg (by omega), hdrop,
    hr.u8 (i := 0) rfl w0, hr.bool (i := 1) rfl w1, hr.bool (i := 2) rfl w2,
    hr.u32 (i := 4) rfl w4 h.src, hr.u32 (i := 5) rfl w8 h.dst, hr.nat (i := 6) rfl w12 h.term,
    hr.nat (i := 7) rfl w20 h.logIndex, hr.nat (i := 8) rfl w28 h.logTerm,
    hr.nat (i := 9) rfl w36 h.commit, hr.nat (i := 10) rfl w44 h.matchIndex,
    hr.word (i := 11) rfl w52, hr.nat (i := 12) rfl w60 h.snapshotIndex,
    hr.nat (i := 13) rfl w68 h.snapshotTerm, hr.nat (i := 14) rfl w76 h.entryTerm,
    hr.word (i := 15) rfl w84, hr.u8 (i := 16) rfl w92, hr.u8 (i := 17) rfl w93,
    hr.mask (i := 19) rfl w100, hr.mask (i := 20) rfl w108, hr.word (i := 21) rfl w116,
    hr.word (i := 22) rfl w124, hr.word (i := 23) rfl w132, hr.word (i := 24) rfl w140,
    hr.mask (i := 25) rfl w148, hr.mask (i := 26) rfl w156, typeOfCode_typeCode,
    kindOfCode_kindCode, operationOfCode_operationCode]

/-! ## Frames -/

/-- The four bytes a frame starts with. -/
def frameMagic : List UInt8 := [0x48, 0x59, 0x50, 0x52]

/-- The fields of a frame header in the order of its bytes, each with its width. -/
def headerLayout (kind : Kind) (payload : List UInt8) : List (Nat × Nat) :=
  frameMagic.map (fun b => (1, b.toNat)) ++
    [(2, version.toNat), (2, kind.code.toNat), (4, payload.length), (4, (crc32c payload).toNat)]

/-- `WriteFrame`, to a writer that takes everything. -/
def writeFrame (kind : Kind) (payload : List UInt8) : Except Error (List UInt8) :=
  if payload.length > maxFrameSize then .error .frameTooLarge
  else .ok (pack (headerLayout kind payload) ++ payload)

/-- `io.ReadFull`: what was read, and what is left. -/
def readFull (count : Nat) (r : List UInt8) : Except Error (List UInt8 × List UInt8) :=
  if count ≤ r.length then .ok (r.take count, r.drop count)
  else if r = [] then .error .eof
  else .error .unexpectedEOF

/-- `ReadFrame`, and what is left after the frame. -/
def readFrame (r : List UInt8) : Except Error (Kind × List UInt8 × List UInt8) := do
  let (header, r) ← readFull headerSize r
  if header.take 4 ≠ frameMagic then throw .frame
  else if u16 header 4 ≠ version then throw .version
  else if (u32 header 8).toNat > maxFrameSize then throw .frameTooLarge
  else do
    let (payload, r) ← readFull (u32 header 8).toNat r
    if crc32c payload ≠ u32 header 12 then throw .frame
    else pure (.ofCode (u16 header 6), payload, r)

theorem length_headerLayout (kind : Kind) (payload : List UInt8) :
    (pack (headerLayout kind payload)).length = headerSize := by
  rw [length_pack]
  rfl

theorem readFull_append {a : List UInt8} {count : Nat} (h : a.length = count) (r : List UInt8) :
    readFull count (a ++ r) = .ok (a, r) := by
  rw [readFull, if_pos (by rw [List.length_append]; omega), List.take_left' h, List.drop_left' h]

/-- A frame is read back. -/
theorem readFrame_writeFrame {kind : Kind} {payload frame : List UInt8}
    (h : writeFrame kind payload = .ok frame) (rest : List UInt8) :
    readFrame (frame ++ rest) = .ok (kind, payload, rest) := by
  unfold writeFrame at h
  split at h
  · cases h
  rename_i hle
  cases h
  have hlen : payload.length < 2 ^ 32 := Nat.lt_of_le_of_lt (Nat.not_lt.mp hle) (by decide)
  have hmagic : (pack (headerLayout kind payload)).take 4 = frameMagic := rfl
  have hversion : u16 (pack (headerLayout kind payload)) 4 = version := u16_field (i := 4) rfl
  have hkind : u16 (pack (headerLayout kind payload)) 6 = kind.code := u16_field (i := 5) rfl
  have hlength : (u32 (pack (headerLayout kind payload)) 8).toNat = payload.length :=
    u32_field (i := 6) rfl hlen
  have hcrc : u32 (pack (headerLayout kind payload)) 12 = crc32c payload :=
    UInt32.toNat_inj.mp (u32_field (i := 7) rfl (UInt32.toNat_lt _))
  rw [readFrame, List.append_assoc, readFull_append (length_headerLayout kind payload)]
  simp only [bind, Except.bind, hmagic, hversion, hlength, hcrc, hkind, Kind.ofCode_code, ne_eq,
    not_true_eq_false, if_false, if_neg hle, readFull_append (rfl : payload.length = payload.length)]
  rfl

end Promtact.Protocol
