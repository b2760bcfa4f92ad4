import Promtact.Lib.Stream
import Promtact.Protocol.Peer

/-!
# Messages over a stream (`protocol/frame.go`: `WriteFrame`, `ReadFrame`, `writeFull`)

One side writes the frames of its messages into a byte stream, to a writer that may take a part of
each write. The other side reads frames and decodes them until there is an error, from a reader that
may return its bytes in any parts. `messages_over_stream`: it gets the messages, in order, and then
the end of the stream; if the stream breaks off, it gets the first messages, and then an error.
-/

namespace Promtact.Protocol

open Raft Bytes Stream

/-- Why `WriteFrame` fails. -/
inductive WriteError where
  | frameTooLarge
  | shortWrite
  deriving DecidableEq, Repr

/-- `WriteFrame`. -/
def writeFrameTo (accepts : Nat → Nat) (kind : Kind) (payload : List UInt8) (w : Writer UInt8) :
    Except WriteError (Writer UInt8) :=
  if payload.length > maxFrameSize then .error .frameTooLarge
  else
    match writeFull accepts (pack (headerLayout kind payload)) w with
    | none => .error .shortWrite
    | some w =>
      match writeFull accepts payload w with
      | none => .error .shortWrite
      | some w => .ok w

/-- The error of a read, as the protocol returns it. -/
def ofReadError : ReadError → Error
  | .eof => .eof
  | .unexpectedEOF => .unexpectedEOF

/-- `io.ReadFull`. -/
def readFullFrom (chunks : Nat → Nat) (count : Nat) (r : Reader UInt8) :
    Except Error (List UInt8 × Reader UInt8) :=
  (Stream.readFull chunks count r).mapError ofReadError

/-- `ReadFrame`. -/
def readFrameFrom (chunks : Nat → Nat) (r : Reader UInt8) :
    Except Error (Kind × List UInt8 × Reader UInt8) := do
  let (header, r) ← readFullFrom chunks headerSize r
  if header.take 4 ≠ frameMagic then throw .frame
  else if u16 header 4 ≠ version then throw .version
  else if (u32 header 8).toNat > maxFrameSize then throw .frameTooLarge
  else do
    let (payload, r) ← readFullFrom chunks (u32 header 8).toNat r
    if crc32c payload ≠ u32 header 12 then throw .frame
    else pure (.ofCode (u16 header 6), payload, r)

/-- The frames of the messages, one after the other. -/
def sendAll (accepts : Nat → Nat) (ms : List Message) (w : Writer UInt8) :
    Except WriteError (Writer UInt8) :=
  ms.foldlM (fun w m => writeFrameTo accepts .peer (encodePeer m) w) w

/-- Frames are read and decoded until there is an error, at most `passes` times. -/
def receiveAll (chunks : Nat → Nat) : Nat → Reader UInt8 → List Message × Option Error
  | 0, _ => ([], none)
  | passes + 1, r =>
    match readFrameFrom chunks r with
    | .error e => ([], some e)
    | .ok (_, payload, r) =>
      match decodePeer payload with
      | .error e => ([], some e)
      | .ok m =>
        let (ms, e) := receiveAll chunks passes r
        (m :: ms, e)

/-! ## The parts do not matter -/

variable {accepts chunks : Nat → Nat}

theorem writeFrameTo_eq (hpos : ∀ k, 0 < accepts k) {kind : Kind} {payload frame : List UInt8}
    (h : writeFrame kind payload = .ok frame) (w : Writer UInt8) :
    ∃ calls, writeFrameTo accepts kind payload w = .ok ⟨w.written ++ frame, calls⟩ := by
  unfold writeFrame at h
  split at h
  · cases h
  rename_i hle
  cases h
  obtain ⟨calls, hheader⟩ := writeFull_eq hpos (pack (headerLayout kind payload)) w
  obtain ⟨calls', hpayload⟩ := writeFull_eq hpos payload
    ⟨w.written ++ pack (headerLayout kind payload), calls⟩
  refine ⟨calls', ?_⟩
  simp only [writeFrameTo, if_neg hle, hheader, hpayload, List.append_assoc]

theorem readFullFrom_eq (hpos : ∀ k, 0 < chunks k) (count : Nat) (r : Reader UInt8) :
    ∃ calls, readFullFrom chunks count r =
      (readFull count r.rest).map fun (got, rest) => (got, ⟨rest, calls⟩) := by
  unfold readFullFrom readFull
  by_cases hle : count ≤ r.rest.length
  · obtain ⟨calls, h⟩ := Stream.readFull_eq hpos hle
    exact ⟨calls, by rw [h, if_pos hle]; rfl⟩
  · rw [Stream.readFull_short hpos (Nat.not_le.mp hle), if_neg hle]
    refine ⟨0, ?_⟩
    split <;> rfl

theorem readFrameFrom_eq (hpos : ∀ k, 0 < chunks k) (r : Reader UInt8) :
    ∃ calls, readFrameFrom chunks r =
      (readFrame r.rest).map fun (kind, payload, rest) => (kind, payload, ⟨rest, calls⟩) := by
  unfold readFrameFrom readFrame
  obtain ⟨calls, hheader⟩ := readFullFrom_eq hpos headerSize r
  rw [hheader]
  cases readFull headerSize r.rest with
  | error e => exact ⟨0, rfl⟩
  | ok header =>
    obtain ⟨header, rest⟩ := header
    simp only [Except.map, bind, Except.bind]
    split
    · exact ⟨0, rfl⟩
    split
    · exact ⟨0, rfl⟩
    split
    · exact ⟨0, rfl⟩
    obtain ⟨calls', hpayload⟩ := readFullFrom_eq hpos (u32 header 8).toNat ⟨rest, calls⟩
    refine ⟨calls', ?_⟩
    rw [hpayload]
    cases readFull (u32 header 8).toNat rest with
    | error e => rfl
    | ok payload =>
      simp only [Except.map]
      split <;> rfl

/-! ## Frames that break off -/

/-- A part of a frame is not a frame. -/
theorem readFrame_prefix {kind : Kind} {payload frame part : List UInt8}
    (h : writeFrame kind payload = .ok frame) (hp : part <+: frame) (hlt : part.length < frame.length) :
    ∃ e, readFrame part = .error e := by
  unfold writeFrame at h
  split at h
  · cases h
  rename_i hle
  cases h
  have hlen := length_headerLayout kind payload
  obtain ⟨rest, hrest⟩ := hp
  unfold readFrame
  by_cases hshort : part.length < headerSize
  · -- not even the header is there
    rw [readFull, if_neg (Nat.not_le.mpr hshort)]
    split
    · exact ⟨_, rfl⟩
    · exact ⟨_, rfl⟩
  · obtain ⟨body, rfl⟩ : ∃ body, part = pack (headerLayout kind payload) ++ body := by
      refine ⟨part.drop headerSize, ?_⟩
      have htake := congrArg (List.take headerSize) hrest
      rw [List.take_append_of_le_length (Nat.not_lt.mp hshort), List.take_left' hlen] at htake
      rw [← htake, List.take_append_drop]
    -- the header says how much should follow
    have hlength : (u32 (pack (headerLayout kind payload)) 8).toNat = payload.length :=
      u32_field (i := 6) rfl (Nat.lt_of_le_of_lt (Nat.not_lt.mp hle) (by decide))
    have hbody : body.length < payload.length := by
      simp only [List.length_append] at hlt
      omega
    have hread : ∃ e, readFull payload.length body = .error e := by
      rw [readFull, if_neg (Nat.not_le.mpr hbody)]
      split
      · exact ⟨_, rfl⟩
      · exact ⟨_, rfl⟩
    obtain ⟨e, he⟩ := hread
    rw [readFull_append hlen]
    simp only [bind, Except.bind, hlength, he, if_neg hle]
    split
    · exact ⟨_, rfl⟩
    split
    · exact ⟨_, rfl⟩
    · exact ⟨e, rfl⟩

theorem readFrame_nil : readFrame [] = .error .eof := rfl

/-! ## Messages -/

/-- The message has the widths of the source's types, and fits a frame. -/
structure Sendable (m : Message) : Prop where
  fits : Fits m
  snapshot : m.snapshot.length ≤ maxFrameSize - peerFixedSize

/-- The frame of a message. -/
def peerFrame (m : Message) : List UInt8 := pack (headerLayout .peer (encodePeer m)) ++ encodePeer m

theorem writeFrame_peer {m : Message} (h : Sendable m) :
    writeFrame .peer (encodePeer m) = .ok (peerFrame m) := by
  have hlen := length_encodePeer m
  have hfit := h.snapshot
  have hfixed : peerFixedSize ≤ maxFrameSize := by decide
  rw [writeFrame, if_neg (by omega)]
  rfl

theorem sendAll_eq (hpos : ∀ k, 0 < accepts k) {ms : List Message} (h : ∀ m ∈ ms, Sendable m)
    (w : Writer UInt8) :
    ∃ calls, sendAll accepts ms w = .ok ⟨w.written ++ ms.flatMap peerFrame, calls⟩ := by
  induction ms generalizing w with
  | nil => exact ⟨w.calls, by rw [List.flatMap_nil, List.append_nil]; rfl⟩
  | cons m ms ih =>
    obtain ⟨hm, hms⟩ := List.forall_mem_cons.mp h
    obtain ⟨calls, hwrite⟩ := writeFrameTo_eq hpos (writeFrame_peer hm) w
    obtain ⟨calls', hsend⟩ := ih hms ⟨w.written ++ peerFrame m, calls⟩
    refine ⟨calls', ?_⟩
    rw [sendAll, List.foldlM_cons, hwrite]
    rw [List.flatMap_cons, ← List.append_assoc]
    exact hsend

/-- A message that is there is received, and then what follows it. -/
theorem receiveAll_cons (hpos : ∀ k, 0 < chunks k) {m : Message} (h : Sendable m) (passes calls : Nat)
    (rest : List UInt8) : ∃ calls', receiveAll chunks (passes + 1) ⟨peerFrame m ++ rest, calls⟩ =
      (m :: (receiveAll chunks passes ⟨rest, calls'⟩).1,
        (receiveAll chunks passes ⟨rest, calls'⟩).2) := by
  obtain ⟨calls', hread⟩ := readFrameFrom_eq hpos ⟨peerFrame m ++ rest, calls⟩
  rw [readFrame_writeFrame (writeFrame_peer h) rest] at hread
  refine ⟨calls', ?_⟩
  rw [receiveAll, hread]
  simp only [Except.map, decodePeer_encodePeer h.fits]

theorem receiveAll_error (hpos : ∀ k, 0 < chunks k) {part : List UInt8} {e : Error}
    (h : readFrame part = .error e) (passes calls : Nat) :
    receiveAll chunks (passes + 1) ⟨part, calls⟩ = ([], some e) := by
  obtain ⟨_, hread⟩ := readFrameFrom_eq hpos ⟨part, calls⟩
  rw [h] at hread
  rw [receiveAll, hread]
  rfl

theorem receiveAll_eq (hpos : ∀ k, 0 < chunks k) {ms : List Message} (h : ∀ m ∈ ms, Sendable m)
    {passes : Nat} (hp : ms.length < passes) (calls : Nat) :
    receiveAll chunks passes ⟨ms.flatMap peerFrame, calls⟩ = (ms, some .eof) := by
  induction ms generalizing passes calls with
  | nil =>
    obtain ⟨passes, rfl⟩ := Nat.exists_eq_succ_of_ne_zero (Nat.ne_of_gt hp)
    exact receiveAll_error hpos readFrame_nil passes calls
  | cons m ms ih =>
    obtain ⟨hm, hms⟩ := List.forall_mem_cons.mp h
    obtain ⟨passes, rfl⟩ := Nat.exists_eq_succ_of_ne_zero (Nat.ne_of_gt (Nat.zero_lt_of_lt hp))
    obtain ⟨calls', hcons⟩ := receiveAll_cons hpos hm passes calls (ms.flatMap peerFrame)
    rw [List.flatMap_cons, hcons, ih hms (Nat.lt_of_succ_lt_succ hp)]

/-- A stream that breaks off: the frame in which it does is not received. -/
theorem receiveAll_prefix (hpos : ∀ k, 0 < chunks k) {ms : List Message} (h : ∀ m ∈ ms, Sendable m)
    {passes : Nat} (hp : ms.length < passes) (calls : Nat) {part : List UInt8}
    (hpart : part <+: ms.flatMap peerFrame) (hne : part ≠ ms.flatMap peerFrame) :
    ∃ k e, k < ms.length ∧ receiveAll chunks passes ⟨part, calls⟩ = (ms.take k, some e) := by
  induction ms generalizing passes calls part with
  | nil => exact absurd (List.prefix_nil.mp hpart) hne
  | cons m ms ih =>
    obtain ⟨hm, hms⟩ := List.forall_mem_cons.mp h
    obtain ⟨passes, rfl⟩ := Nat.exists_eq_succ_of_ne_zero (Nat.ne_of_gt (Nat.zero_lt_of_lt hp))
    rw [List.flatMap_cons] at hpart hne
    by_cases hlt : part.length < (peerFrame m).length
    · have hframe : part <+: peerFrame m :=
        List.prefix_of_prefix_length_le hpart (List.prefix_append _ _) (Nat.le_of_lt hlt)
      obtain ⟨e, he⟩ := readFrame_prefix (writeFrame_peer hm) hframe hlt
      exact ⟨0, e, Nat.succ_pos _, receiveAll_error hpos he passes calls⟩
    · obtain ⟨tail, rfl⟩ := List.prefix_of_prefix_length_le (List.prefix_append _ _) hpart
        (Nat.not_lt.mp hlt)
      have htail : tail <+: ms.flatMap peerFrame := (List.prefix_append_right_inj _).mp hpart
      obtain ⟨calls', hcons⟩ := receiveAll_cons hpos hm passes calls tail
      obtain ⟨k, e, hk, hrest⟩ := ih hms (Nat.lt_of_succ_lt_succ hp) calls' htail
        fun heq => hne (by rw [heq])
      refine ⟨k + 1, e, Nat.succ_lt_succ hk, ?_⟩
      rw [hcons, hrest, List.take_succ_cons]

/-- Messages that fit a frame are received as they were sent, however the stream is cut into parts.
If it breaks off, only the first of them are, and then there is an error. -/
theorem messages_over_stream {accepts : Nat → Nat} (hw : ∀ k, 0 < accepts k) {ms : List Message}
    (h : ∀ m ∈ ms, Sendable m) :
    ∃ w, sendAll accepts ms {} = .ok w ∧
      ∀ chunks : Nat → Nat, (∀ k, 0 < chunks k) → ∀ passes, ms.length < passes →
        receiveAll chunks passes ⟨w.written, 0⟩ = (ms, some .eof) ∧
        ∀ part, part <+: w.written → part ≠ w.written →
          ∃ k e, k < ms.length ∧ receiveAll chunks passes ⟨part, 0⟩ = (ms.take k, some e) := by
  obtain ⟨calls, hsend⟩ := sendAll_eq hw h {}
  refine ⟨_, hsend, fun chunks hr passes hp => ⟨?_, fun part hpart hne => ?_⟩⟩
  · exact receiveAll_eq hr h hp 0
  · exact receiveAll_prefix hr h hp 0 hpart hne

/-- A snapshot and a vote. -/
def snapshotAndVote : List Message :=
  [{ type := .installSnapshot, src := 1, dst := 2, term := 3, snapshot := [7, 8] },
    { type := .requestVoteResponse, src := 2, dst := 1, term := 4 }]

theorem messages_over_stream_bytewise :
    ∃ w, sendAll (fun _ => 1) snapshotAndVote {} = .ok w ∧
      receiveAll (fun _ => 1) 3 ⟨w.written, 0⟩ = (snapshotAndVote, some .eof) := by
  have hsendable : ∀ m ∈ snapshotAndVote, Sendable m := by
    intro m hm
    simp only [snapshotAndVote, List.mem_cons, List.not_mem_nil, or_false] at hm
    rcases hm with rfl | rfl <;>
      exact ⟨⟨by decide, by decide, by decide, by decide, by decide, by decide, by decide, by decide,
        by decide, by decide, by decide⟩, by decide⟩
  obtain ⟨w, hsend, hreceive⟩ := messages_over_stream (fun _ => Nat.one_pos) hsendable
  exact ⟨w, hsend, (hreceive (fun _ => 1) (fun _ => Nat.one_pos) 3 (by decide)).1⟩

end Promtact.Protocol
