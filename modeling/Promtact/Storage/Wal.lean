import Promtact.Lib.Bytes
import Promtact.Lib.Sim

/-!
# The write-ahead log (`storage/wal`)

A log puts entries into records of 112 bytes, with a sequence number and a checksum, and appends
the bytes to a device. The in-memory device keeps the bytes of `Append` apart from those that
`Sync` has made durable; a crash keeps the durable ones and a first part of the others. Opening a
log reads the records of the durable bytes and cuts off an incomplete one at the end.

* `decode_encode`: a record is read back as it was written.
* `recover_image`: of the bytes of a log cut anywhere, `Recover` returns the records that are whole.
* `crash_recovers_first`: what is read after a crash is a first part of what was appended, with everything
  that was synced, after any number of crashes.

Sequence numbers wrap around at 64 bits in `Append` and in `Recover` alike. A context is given by
the number of times that its `Err` still returns nil.
-/

namespace Promtact.Storage.Wal

open Bytes Refine

/-- `storage.Entry`, at the widths that a record has. -/
structure Entry where
  index : UInt64 := 0
  term : UInt64 := 0
  command : UInt64 := 0
  kind : UInt8 := 0
  oldVoters : UInt64 := 0
  newVoters : UInt64 := 0
  operation : UInt8 := 0
  clientID : UInt64 := 0
  requestID : UInt64 := 0
  key : UInt64 := 0
  value : UInt64 := 0
  deriving DecidableEq, Repr

/-- `wal.Record`. -/
structure LogRecord where
  sequence : UInt64
  entry : Entry
  deriving DecidableEq, Repr

/-- The errors of the log. -/
inductive Error where
  | checksum
  | format
  | sequence
  | invalidTear
  | canceled
  deriving DecidableEq, Repr

/-- The text of the error. -/
def Error.message : Error → String
  | .checksum => "wal: checksum mismatch"
  | .format => "wal: invalid record format"
  | .sequence => "wal: non-contiguous sequence"
  | .invalidTear => "wal: invalid torn-write length"
  | .canceled => "context canceled"

/-! ## Records as bytes -/

/-- The bytes of a record. -/
def recordSize : Nat := 112

/-- The version every record carries. -/
def version : UInt16 := 3

/-- `HYPWAL03` -/
def magic : List UInt8 := [0x48, 0x59, 0x50, 0x57, 0x41, 0x4C, 0x30, 0x33]

/-- The fields that the checksum covers, in the order of the record. -/
def layout (r : LogRecord) : List (Nat × Nat) :=
  magic.map (fun b => (1, b.toNat)) ++
  [(2, version.toNat), (2, 0),
    (8, r.sequence.toNat),
    (8, r.entry.index.toNat),
    (8, r.entry.term.toNat),
    (8, r.entry.command.toNat),
    (2, r.entry.kind.toUInt16.toNat), (6, 0),
    (8, r.entry.oldVoters.toNat),
    (8, r.entry.newVoters.toNat),
    (2, r.entry.operation.toUInt16.toNat), (2, 0),
    (8, r.entry.clientID.toNat),
    (8, r.entry.requestID.toNat),
    (8, r.entry.key.toNat),
    (8, r.entry.value.toNat), (4, 0)]

/-- The layout of a record with its checksum. -/
def withChecksum (r : LogRecord) (crc : UInt32) : List (Nat × Nat) := layout r ++ [(4, crc.toNat)]

/-- The bytes of a record. -/
def encode (r : LogRecord) : List UInt8 := pack (withChecksum r (crc32c (pack (layout r))))

/-- The record of some bytes: format first, then checksum. -/
def decode (src : List UInt8) : Except Error LogRecord :=
  if src.length ≠ recordSize ∨ src.take 8 ≠ magic ∨ u16 src 8 ≠ version then .error .format
  else if crc32c (src.take 108) ≠ u32 src 108 then .error .checksum
  else .ok
    { sequence := u64 src 12
      entry :=
        { index := u64 src 20
          term := u64 src 28
          command := u64 src 36
          kind := (u16 src 44).toUInt8
          oldVoters := u64 src 52
          newVoters := u64 src 60
          operation := (u16 src 68).toUInt8
          clientID := u64 src 72
          requestID := u64 src 80
          key := u64 src 88
          value := u64 src 96 } }

/-- Where each of the fields that `decode` reads starts. -/
theorem width_take (r : LogRecord) (crc : UInt32) :
    ∀ p ∈ [(8, 8), (10, 12), (11, 20), (12, 28), (13, 36), (14, 44), (16, 52), (17, 60), (18, 68),
      (20, 72), (21, 80), (22, 88), (23, 96), (25, 108), (26, recordSize)],
      width ((withChecksum r crc).take p.1) = p.2 := by
  simp [width, withChecksum, layout, magic, recordSize]

theorem length_withChecksum (r : LogRecord) (crc : UInt32) :
    (pack (withChecksum r crc)).length = recordSize := by
  rw [length_pack]
  exact width_take r crc (26, recordSize) (by decide)

theorem length_encode (r : LogRecord) : (encode r).length = recordSize := length_withChecksum r _

/-- Everything but the checksum is read back, whatever the checksum is. -/
theorem decode_pack (r : LogRecord) (crc : UInt32) :
    decode (pack (withChecksum r crc)) =
      if crc32c (pack (layout r)) ≠ crc then .error .checksum else .ok r := by
  have h16 : ∀ i o {v}, width ((withChecksum r crc).take i) = o →
      (withChecksum r crc)[i]? = some (2, v.toNat) → u16 (pack (withChecksum r crc)) o = v :=
    fun i o v ho h => ho ▸ u16_field h
  have h64 : ∀ i o {v}, width ((withChecksum r crc).take i) = o →
      (withChecksum r crc)[i]? = some (8, v.toNat) → u64 (pack (withChecksum r crc)) o = v :=
    fun i o v ho h => ho ▸ u64_field h
  have hw := width_take r crc
  simp only [List.forall_mem_cons] at hw
  obtain ⟨w8, w12, w20, w28, w36, w44, w52, w60, w68, w72, w80, w88, w96, w108, -⟩ := hw
  have hcrc : u32 (pack (withChecksum r crc)) 108 = crc :=
    UInt32.toNat_inj.mp (w108 ▸ u32_field (i := 25) rfl crc.toNat_lt)
  have hbody : (pack (withChecksum r crc)).take 108 = pack (layout r) := by
    have hwidth : width (layout r) = 108 := by simp [width, layout, magic]
    rw [withChecksum, pack_append]
    exact List.take_left' (by rw [length_pack, hwidth])
  have hmagic : (pack (withChecksum r crc)).take 8 = magic := rfl
  have hformat : ¬ ((pack (withChecksum r crc)).length ≠ recordSize ∨
      (pack (withChecksum r crc)).take 8 ≠ magic ∨ u16 (pack (withChecksum r crc)) 8 ≠ version) := by
    rintro (h | h | h)
    · exact h (length_withChecksum r crc)
    · exact h hmagic
    · exact h (h16 8 8 w8 rfl)
  rw [decode, if_neg hformat, hbody, hcrc,
    h64 10 12 w12 rfl, h64 11 20 w20 rfl, h64 12 28 w28 rfl, h64 13 36 w36 rfl,
    h16 14 44 w44 rfl, h64 16 52 w52 rfl, h64 17 60 w60 rfl, h16 18 68 w68 rfl,
    h64 20 72 w72 rfl, h64 21 80 w80 rfl, h64 22 88 w88 rfl, h64 23 96 w96 rfl,
    UInt8.toUInt8_toUInt16, UInt8.toUInt8_toUInt16]

theorem decode_encode (r : LogRecord) : decode (encode r) = .ok r := by
  rw [encode, decode_pack, if_neg (by simp)]

/-! ## The device -/

/-- `MemoryDevice`: the bytes on the medium, and those that are still volatile. -/
structure MemoryDevice where
  durable : List UInt8 := []
  pending : List UInt8 := []
  deriving DecidableEq, Repr

namespace MemoryDevice

/-- `Append`: nothing is durable yet. -/
def append (d : MemoryDevice) (p : List UInt8) : MemoryDevice := { d with pending := d.pending ++ p }

/-- `Sync`: what is pending becomes durable. -/
def sync (d : MemoryDevice) : MemoryDevice := { durable := d.durable ++ d.pending, pending := [] }

/-- `TruncateDurable`. -/
def truncateDurable (d : MemoryDevice) (size : Int) : Except Error MemoryDevice :=
  if size < 0 ∨ size > d.durable.length then .error .invalidTear
  else .ok { d with durable := d.durable.take size.toNat }

/-- The device after a power loss, `tornBytes` of the volatile bytes having reached the medium. -/
def crash (d : MemoryDevice) (tornBytes : Int) : Except Error MemoryDevice :=
  if tornBytes < 0 ∨ tornBytes > d.pending.length then .error .invalidTear
  else .ok { durable := d.durable ++ d.pending.take tornBytes.toNat }

end MemoryDevice

/-! ## The log -/

/-- `Recover`, from record `i` on. An error comes with the length of the verified bytes. -/
def recoverFrom (image : List UInt8) : Nat → Nat → Except (Nat × Error) (List LogRecord)
  | _, 0 => .ok []
  | i, count + 1 =>
    match decode (slice image (recordSize * i) recordSize) with
    | .error e => .error (i * recordSize, e)
    | .ok record =>
      if record.sequence ≠ UInt64.ofNat (i + 1) then .error (i * recordSize, .sequence)
      else (recoverFrom image (i + 1) count).map (record :: ·)

/-- `Recover`: the records of the image and their length in bytes. -/
def recover (image : List UInt8) : Except (Nat × Error) (List LogRecord × Nat) :=
  let count := image.length / recordSize
  (recoverFrom image 0 count).map (·, count * recordSize)

/-- `Log`: a device and the next sequence number. -/
structure Log where
  device : MemoryDevice := {}
  nextSeq : UInt64 := 1
  deriving DecidableEq, Repr

/-- `Open` -/
def openLog (device : MemoryDevice) : Except Error (Log × List LogRecord) := do
  let (records, validBytes) ← (recover device.durable).mapError (·.2)
  let device ← if validBytes ≠ device.durable.length then device.truncateDurable validBytes
    else pure device
  let next := (records.getLast?.map (·.sequence + 1)).getD 1
  pure ({ device, nextSeq := next }, records)

/-- A context: how often `Err` returns nil before it returns an error, `none` for always. -/
abbrev Context := Option Nat

namespace Log

/-- One round of the loop of `Append`, once the context was checked. -/
def write (l : Log) (entry : Entry) : Log :=
  { device := l.device.append (encode { sequence := l.nextSeq, entry }), nextSeq := l.nextSeq + 1 }

/-- `Append`: each entry takes the next sequence number. -/
def append : Context → List Entry → EStateM Error Log Unit
  | _, [] => pure ()
  | some 0, _ :: _ => throw .canceled
  | ctx, entry :: entries => do
    modify (·.write entry)
    append (ctx.map (· - 1)) entries

/-- `Sync` of the device, unless the context is done. -/
def sync (ctx : Context) : EStateM Error Log Unit :=
  if ctx = some 0 then throw .canceled else modify fun l => { l with device := l.device.sync }

end Log

/-! ## What a log holds -/

/-- The records of a log to which these entries were appended. -/
def stamp (entries : List Entry) : List LogRecord :=
  entries.mapIdx fun i entry => { sequence := UInt64.ofNat (i + 1), entry }

/-- The bytes of a log of these entries. -/
def image (entries : List Entry) : List UInt8 := (stamp entries).flatMap encode

@[simp] theorem length_stamp (entries : List Entry) : (stamp entries).length = entries.length := by
  simp [stamp]

theorem stamp_append (entries : List Entry) (entry : Entry) :
    stamp (entries ++ [entry]) =
      stamp entries ++ [{ sequence := UInt64.ofNat (entries.length + 1), entry }] := by
  simp [stamp]

theorem stamp_take (entries : List Entry) (k : Nat) :
    stamp (entries.take k) = (stamp entries).take k := by
  apply List.ext_getElem <;> simp [stamp]

@[simp] theorem map_entry_stamp (entries : List Entry) : (stamp entries).map (·.entry) = entries := by
  apply List.ext_getElem <;> simp [stamp]

@[simp] theorem length_image (entries : List Entry) :
    (image entries).length = recordSize * entries.length := by
  rw [image, length_flatMap length_encode, length_stamp]

theorem image_append (entries : List Entry) (entry : Entry) :
    image (entries ++ [entry]) =
      image entries ++ encode { sequence := UInt64.ofNat (entries.length + 1), entry } := by
  rw [image, stamp_append, List.flatMap_append, List.flatMap_singleton, image]

/-- The bytes of a log up to `m`: whole records and an incomplete one. -/
theorem take_image {entries : List Entry} {m : Nat} (hm : m ≤ recordSize * entries.length) :
    ∃ rest, (image entries).take m = image (entries.take (m / recordSize)) ++ rest ∧
      rest.length = m % recordSize := by
  have hk : recordSize * (m / recordSize) ≤ m := Nat.mul_div_le m recordSize
  have hle : m / recordSize ≤ entries.length := Nat.div_le_of_le_mul hm
  have hsplit : image entries = image (entries.take (m / recordSize)) ++
      ((stamp entries).drop (m / recordSize)).flatMap encode := by
    rw [image, image, stamp_take, ← List.flatMap_append, List.take_append_drop]
  have hlen : (image (entries.take (m / recordSize))).length = recordSize * (m / recordSize) := by
    rw [length_image, List.length_take, Nat.min_eq_left hle]
  refine ⟨(((stamp entries).drop (m / recordSize)).flatMap encode).take (m % recordSize), ?_, ?_⟩
  · rw [hsplit, List.take_append, List.take_of_length_le (by omega), hlen, Nat.mod_eq_sub]
  · have htotal := congrArg List.length hsplit
    have hmod := Nat.div_add_mod m recordSize
    rw [List.length_append, length_image, hlen] at htotal
    rw [List.length_take, Nat.min_eq_left]
    omega

theorem recoverFrom_image {entries : List Entry} {rest : List UInt8} {i count : Nat}
    (h : i + count = entries.length) :
    recoverFrom (image entries ++ rest) i count = .ok ((stamp entries).drop i) := by
  induction count generalizing i with
  | zero => rw [List.drop_eq_nil_of_le (by simp; omega)]; rfl
  | succ count ih =>
    have hi : i < (stamp entries).length := by rw [length_stamp]; omega
    have hslice : slice (image entries ++ rest) (recordSize * i) recordSize =
        encode (stamp entries)[i] := slice_flatMap length_encode hi
    have hseq : (stamp entries)[i].sequence = UInt64.ofNat (i + 1) := by simp [stamp]
    rw [recoverFrom, hslice, decode_encode]
    dsimp only
    rw [if_neg (by simp [hseq]), ih (by omega), List.drop_eq_getElem_cons hi]
    rfl

/-- Of a log cut at any byte, the whole records are read. -/
theorem recover_image {entries : List Entry} {m : Nat} (hm : m ≤ recordSize * entries.length) :
    recover ((image entries).take m) =
      .ok (stamp (entries.take (m / recordSize)), m / recordSize * recordSize) := by
  obtain ⟨rest, hrest, -⟩ := take_image hm
  have hlen : ((image entries).take m).length = m := by
    rw [List.length_take, length_image, Nat.min_eq_left hm]
  have hle : m / recordSize ≤ entries.length := Nat.div_le_of_le_mul hm
  rw [recover, hlen, hrest, recoverFrom_image (by rw [List.length_take]; omega)]
  rfl

/-- The log has these entries, and the first `synced` of them are durable. -/
structure Holds (l : Log) (entries : List Entry) (synced : Nat) : Prop where
  bytes : l.device.durable ++ l.device.pending = image entries
  durable : l.device.durable.length = recordSize * synced
  nextSeq : l.nextSeq = UInt64.ofNat (entries.length + 1)

/-- What `Append` stages before the context is cancelled. -/
def staged : Context → List Entry → List Entry
  | none, entries => entries
  | some n, entries => entries.take n

variable {l : Log} {entries : List Entry} {synced : Nat}

theorem Holds.write (h : Holds l entries synced) (entry : Entry) :
    Holds (l.write entry) (entries ++ [entry]) synced where
  bytes := by
    rw [image_append, ← h.bytes, List.append_assoc, ← h.nextSeq]
    rfl
  durable := h.durable
  nextSeq := by
    show l.nextSeq + 1 = _
    rw [h.nextSeq, List.length_append, List.length_singleton]
    exact (UInt64.ofNat_add _ 1).symm

theorem Holds.append (h : Holds l entries synced) (ctx : Context) (batch : List Entry) :
    Holds (finalState (Log.append ctx batch l)) (entries ++ staged ctx batch) synced := by
  induction batch generalizing ctx l entries with
  | nil =>
    have hnil : entries ++ staged ctx [] = entries := by cases ctx <;> simp [staged]
    rw [hnil]
    exact h
  | cons entry batch ih =>
    match ctx with
    | none =>
      have := ih (h.write entry) none
      rwa [List.append_assoc] at this
    | some 0 =>
      rw [staged, List.take_zero, List.append_nil]
      exact h
    | some (n + 1) =>
      have := ih (h.write entry) (some n)
      rwa [List.append_assoc] at this

theorem Holds.sync (h : Holds l entries synced) (ctx : Context) :
    Holds (finalState (Log.sync ctx l)) entries (if ctx = some 0 then synced else entries.length) := by
  rw [Log.sync]
  split
  · exact h
  · refine ⟨?_, ?_, h.nextSeq⟩
    · rw [← h.bytes]
      exact List.append_nil _
    · exact (congrArg List.length h.bytes).trans (length_image entries)

/-- `Open` takes up the sequence numbers where they ended. -/
theorem next_stamp (entries : List Entry) :
    ((stamp entries).getLast?.map (·.sequence + 1)).getD 1 = UInt64.ofNat (entries.length + 1) := by
  rcases List.eq_nil_or_concat entries with rfl | ⟨es, e, rfl⟩
  · rfl
  · rw [List.concat_eq_append, stamp_append, List.getLast?_concat, List.length_append,
      List.length_singleton]
    exact (UInt64.ofNat_add _ 1).symm

/-- Opening the bytes of a log cut at `m`. -/
theorem openLog_image {m : Nat} (hm : m ≤ recordSize * entries.length) :
    openLog { durable := (image entries).take m } =
      .ok ({ device := { durable := image (entries.take (m / recordSize)) }
             nextSeq := UInt64.ofNat ((entries.take (m / recordSize)).length + 1) },
        stamp (entries.take (m / recordSize))) := by
  obtain ⟨rest, hrest, hmod⟩ := take_image hm
  have hlen : ((image entries).take m).length = m := by
    rw [List.length_take, length_image, Nat.min_eq_left hm]
  have hwhole : (image (entries.take (m / recordSize))).length = m / recordSize * recordSize := by
    rw [length_image, List.length_take, Nat.min_eq_left (Nat.div_le_of_le_mul hm), Nat.mul_comm]
  have hdiv := Nat.div_add_mod' m recordSize
  rw [openLog, recover_image hm]
  show (if m / recordSize * recordSize ≠ ((image entries).take m).length then _ else _) = _
  rw [hlen]
  split
  · -- an incomplete record is cut off
    rw [MemoryDevice.truncateDurable, if_neg (by simp only [hlen]; omega)]
    simp only [Int.toNat_natCast, hrest, List.take_left' hwhole]
    rw [← next_stamp]
    rfl
  · have hnil : rest = [] := List.length_eq_zero_iff.mp (by omega)
    rw [hrest, hnil, List.append_nil, ← next_stamp]
    rfl

theorem Holds.reopen {d : MemoryDevice} {torn : Int} (h : Holds l entries synced)
    (hc : l.device.crash torn = .ok d) :
    ∃ k l', synced ≤ k ∧ k ≤ entries.length ∧ openLog d = .ok (l', stamp (entries.take k)) ∧
      Holds l' (entries.take k) k ∧ l'.device = { durable := d.durable.take (recordSize * k) } := by
  rw [MemoryDevice.crash] at hc
  split at hc
  · cases hc
  rename_i htorn
  cases hc
  have htotal := congrArg List.length h.bytes
  rw [List.length_append, length_image, h.durable] at htotal
  -- the bytes on the medium are those of the log up to some point behind the durable ones
  obtain ⟨t, rfl⟩ : ∃ t : Nat, torn = t := ⟨torn.toNat, by omega⟩
  have hm : recordSize * synced + t ≤ recordSize * entries.length := by omega
  have hcut : l.device.durable ++ l.device.pending.take t =
      (image entries).take (recordSize * synced + t) := by
    have hall : l.device.durable.take (recordSize * synced + t) = l.device.durable :=
      List.take_of_length_le (by rw [h.durable]; omega)
    rw [← h.bytes, List.take_append, hall, h.durable, Nat.add_sub_cancel_left]
  obtain ⟨rest, hrest, -⟩ := take_image hm
  have hk : (recordSize * synced + t) / recordSize ≤ entries.length := Nat.div_le_of_le_mul hm
  have hwhole : (image (entries.take ((recordSize * synced + t) / recordSize))).length =
      recordSize * ((recordSize * synced + t) / recordSize) := by
    rw [length_image, List.length_take, Nat.min_eq_left hk]
  rw [Int.toNat_natCast, hcut]
  refine ⟨_, _, ?_, hk, openLog_image hm, ⟨List.append_nil _, hwhole, rfl⟩, ?_⟩
  · rw [Nat.le_div_iff_mul_le (by decide), Nat.mul_comm]
    omega
  · show MemoryDevice.mk _ _ = MemoryDevice.mk _ _
    rw [hrest, List.take_left' hwhole]

theorem append_none (batch : List Entry) (l : Log) : ∃ l', Log.append none batch l = .ok () l' := by
  induction batch generalizing l with
  | nil => exact ⟨l, rfl⟩
  | cons entry batch ih => exact ih (l.write entry)

/-- A batch that is appended and synced is read after what was there. -/
theorem Holds.read (h : Holds l entries synced) (batch : List Entry) :
    ∃ l₁ l₂ l₃, Log.append none batch l = .ok () l₁ ∧ Log.sync none l₁ = .ok () l₂ ∧
      openLog l₂.device = .ok (l₃, stamp (entries ++ batch)) := by
  obtain ⟨l₁, h₁⟩ := append_none batch l
  have ha : Holds (finalState (Log.append none batch l)) (entries ++ batch) synced := h.append none batch
  rw [h₁] at ha
  have hdevice : l₁.device.sync = { durable := image (entries ++ batch) } := by
    rw [MemoryDevice.sync, ← ha.bytes]
    rfl
  have ho := openLog_image (Nat.le_refl (recordSize * (entries ++ batch).length))
  rw [List.take_of_length_le (Nat.le_of_eq (length_image _)), Nat.mul_div_cancel_left _ (by decide),
    List.take_length, ← hdevice] at ho
  exact ⟨l₁, _, _, h₁, rfl, ho⟩

/-! ## Any number of crashes -/

/-- A log reached by appends, syncs and crashes, with what was appended to it and survived, and how
many of these entries the last successful `Sync` (or the last opening) covers. -/
inductive Reached : Log → List Entry → Nat → Prop
  | opened {l : Log} {records : List LogRecord} (h : openLog {} = .ok (l, records)) : Reached l [] 0
  | append {l : Log} {entries : List Entry} {synced : Nat} (h : Reached l entries synced)
      (ctx : Context) (batch : List Entry) :
      Reached (finalState (Log.append ctx batch l)) (entries ++ staged ctx batch) synced
  | sync {l l' : Log} {entries : List Entry} {synced : Nat} (h : Reached l entries synced)
      (ctx : Context) (hok : Log.sync ctx l = .ok () l') : Reached l' entries entries.length
  | crash {l l' : Log} {entries : List Entry} {synced : Nat} {torn : Int} {d : MemoryDevice}
      {records : List LogRecord} (h : Reached l entries synced) (hc : l.device.crash torn = .ok d)
      (ho : openLog d = .ok (l', records)) :
      Reached l' (entries.take records.length) records.length

theorem Reached.holds (h : Reached l entries synced) : Holds l entries synced := by
  induction h with
  | opened h =>
    cases h
    exact ⟨rfl, rfl, rfl⟩
  | append h ctx batch ih => exact ih.append ctx batch
  | sync h ctx hok ih =>
    have := ih.sync ctx
    rw [hok] at this
    have hctx : ctx ≠ some 0 := by
      rintro rfl
      cases hok
    rwa [if_neg hctx] at this
  | crash h hc ho ih =>
    obtain ⟨k, l', -, hk, ho', hl', -⟩ := ih.reopen hc
    rw [ho] at ho'
    cases ho'
    rwa [length_stamp, List.length_take, Nat.min_eq_left hk]

/-- The crash-prefix law: after any appends, syncs and crashes, and one more crash, the log is
opened with the first `k` entries that were appended, all those that were synced among them, and
goes on from there. -/
theorem crash_recovers_first {d : MemoryDevice} {torn : Int} (h : Reached l entries synced)
    (hc : l.device.crash torn = .ok d) :
    ∃ k l' records, synced ≤ k ∧ k ≤ entries.length ∧ openLog d = .ok (l', records) ∧
      records.map (·.entry) = entries.take k ∧
      records.map (·.sequence) = (List.range k).map (fun i => UInt64.ofNat (i + 1)) ∧
      l'.device = { durable := d.durable.take (112 * k) } ∧ l'.device.durable.length = 112 * k ∧
      ∀ batch, ∃ l₁ l₂ l₃ records', Log.append none batch l' = .ok () l₁ ∧
        Log.sync none l₁ = .ok () l₂ ∧ openLog l₂.device = .ok (l₃, records') ∧
        records'.map (·.entry) = entries.take k ++ batch := by
  obtain ⟨k, l', hn, hk, ho, hl', hdevice⟩ := h.holds.reopen hc
  have hlength : l'.device.durable.length = 112 * k := hl'.durable
  have hsequence : (stamp (entries.take k)).map (·.sequence) =
      (List.range k).map fun i => UInt64.ofNat (i + 1) := by
    apply List.ext_getElem <;> simp [stamp, Nat.min_eq_left hk]
  refine ⟨k, l', _, hn, hk, ho, map_entry_stamp _, hsequence, hdevice, hlength, fun batch => ?_⟩
  obtain ⟨l₁, l₂, l₃, h₁, h₂, h₃⟩ := hl'.read batch
  exact ⟨l₁, l₂, l₃, _, h₁, h₂, h₃, map_entry_stamp _⟩

/-- A record of which five bytes reached the medium is gone. -/
theorem crash_recovers_torn_record :
    ∃ l d, Reached l [{ index := 1 }] 0 ∧ l.device.crash 5 = .ok d ∧
      ∃ k l' records, 0 ≤ k ∧ k ≤ 1 ∧ openLog d = .ok (l', records) ∧
        records.map (·.entry) = [({ index := 1 } : Entry)].take k := by
  have hnew : openLog {} = .ok ({}, []) := rfl
  have hreached := (Reached.opened hnew).append none [{ index := 1 }]
  generalize finalState (Log.append none [{ index := 1 }] {}) = l at hreached
  have hlength := congrArg List.length hreached.holds.bytes
  rw [List.length_append, hreached.holds.durable, length_image] at hlength
  rw [Nat.mul_zero, Nat.zero_add] at hlength
  have hc : l.device.crash 5 = .ok _ := if_neg (by rw [hlength]; decide)
  obtain ⟨k, l', records, hn, hk, ho, he, -⟩ := crash_recovers_first hreached hc
  exact ⟨_, _, hreached, hc, k, l', records, hn, hk, ho, he⟩

end Promtact.Storage.Wal
