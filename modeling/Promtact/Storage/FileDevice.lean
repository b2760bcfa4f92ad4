import Promtact.Storage.Wal

/-!
# Opening a log on a file (`storage/wal/file_device.go`)

A `FileDevice` keeps the log in a file of the operating system, whose calls can fail. `DurableBytes`
has no error to return and answers with no bytes when a call fails, and `Open` asks it twice: once
for the records, and once for the length to compare with theirs.

* `openLog_read`: after a first answer with all bytes, the whole records are returned and stay in the
  file, whatever fails afterwards short of the truncation itself.
* `openLog_unread`: after a first answer without them, the log is opened as an empty one, and a second
  answer with the bytes makes `Open` cut the file at 0.
* `openLog_keeps_iff`: so the records survive exactly when the first answer has them.

A call that fails leaves the file as it is.
-/

namespace Promtact.Storage.File

open Bytes Wal

/-- The calls that the methods of a device make. -/
inductive Call where
  | sync
  | readFile
  | stat
  | truncate
  | seek
  deriving DecidableEq, Repr

/-- An error of the log, or of a call of the operating system. -/
inductive Error where
  | log (e : Wal.Error)
  | os (call : Call)
  deriving DecidableEq, Repr

/-- `FileDevice`: the file, and which calls fail in each of the methods that run next. -/
structure FileDevice where
  file : List UInt8
  fails : List (Call → Bool) := []

/-- The methods of a device. -/
abbrev DeviceM := EStateM Error FileDevice

/-- The failures of the method that starts. -/
def failures : DeviceM (Call → Bool) :=
  modifyGet fun d => (d.fails.headD fun _ => false, { d with fails := d.fails.tail })

/-- `DurableBytes`: a failed sync or read gives no bytes. -/
def durableBytes : DeviceM (List UInt8) := do
  let fails ← failures
  let d ← get
  pure (if fails .sync then [] else if fails .readFile then [] else d.file)

/-- `TruncateDurable`. -/
def truncateDurable (size : Int) : DeviceM Unit := do
  let fails ← failures
  let d ← get
  if size < 0 then throw (.log .invalidTear)
  else if fails .stat then throw (.os .stat)
  else if size > d.file.length then throw (.log .invalidTear)
  else if fails .truncate then throw (.os .truncate)
  else do
    set { d with file := d.file.take size.toNat }
    if fails .seek then throw (.os .seek)
    else if fails .sync then throw (.os .sync)
    else pure ()

/-- The sequence number after that of the last record. -/
def nextSeq (records : List LogRecord) : UInt64 := (records.getLast?.map (·.sequence + 1)).getD 1

/-- `Open`: the next sequence number of the log, and its records. -/
def openLog : DeviceM (UInt64 × List LogRecord) := do
  match recover (← durableBytes) with
  | .error (_, e) => throw (.log e)
  | .ok (records, validBytes) => do
    if validBytes ≠ (← durableBytes).length then truncateDurable validBytes
    pure (nextSeq records, records)

/-! ## What the methods do -/

variable {file : List UInt8} {first second : Call → Bool} {rest : List (Call → Bool)}

/-- What `DurableBytes` answers. -/
def answer (fails : Call → Bool) (file : List UInt8) : List UInt8 :=
  if fails .sync then [] else if fails .readFile then [] else file

theorem durableBytes_run :
    durableBytes ⟨file, first :: rest⟩ = .ok (answer first file) ⟨file, rest⟩ := rfl

theorem answer_eq (h : first .sync = false ∧ first .readFile = false) : answer first file = file := by
  simp [answer, h.1, h.2]

theorem answer_eq_nil (h : ¬ (first .sync = false ∧ first .readFile = false)) :
    answer first file = [] := by
  unfold answer
  split
  · rfl
  · rw [if_pos]
    simpa [*] using h

/-- A truncation none of whose calls fails. -/
theorem truncateDurable_run {size : Nat} (h : size ≤ file.length) :
    truncateDurable size ⟨file, []⟩ = .ok () ⟨file.take size, []⟩ := by
  have h0 : ¬ (size : Int) < 0 := by omega
  have hle : ¬ (size : Int) > file.length := by omega
  have hrun : ∀ f : (Call → Bool) → FileDevice → DeviceM Unit,
      (do let fails ← failures; let d ← get; f fails d : DeviceM Unit) ⟨file, []⟩ =
        f (fun _ => false) ⟨file, []⟩ ⟨file, []⟩ := fun _ => rfl
  unfold truncateDurable
  rw [hrun, if_neg h0, if_neg Bool.false_ne_true, if_neg hle, if_neg Bool.false_ne_true]
  rfl

/-- `Open` on a device with these two answers, the calls of the truncation not failing. -/
theorem openLog_run {records : List LogRecord} {validBytes : Nat}
    (h : recover (answer first file) = .ok (records, validBytes)) (hle : validBytes ≤ file.length) :
    openLog ⟨file, [first, second]⟩ = .ok (nextSeq records, records)
      ⟨if validBytes = (answer second file).length then file else file.take validBytes, []⟩ := by
  unfold openLog
  simp only [bind, EStateM.bind, durableBytes_run, h]
  by_cases heq : validBytes = (answer second file).length
  · simp only [heq, ne_eq, not_true_eq_false, if_false, if_true]
    rfl
  · simp only [heq, ne_eq, not_false_eq_true, if_false, if_true, EStateM.bind,
      truncateDurable_run hle]
    rfl

/-! ## Records and an incomplete tail -/

variable {entries : List Entry} {tail : List UInt8}

theorem recover_tail (ht : tail.length < recordSize) :
    recover (image entries ++ tail) = .ok (stamp entries, entries.length * recordSize) := by
  have hcount : (image entries ++ tail).length / recordSize = entries.length := by
    rw [List.length_append, length_image, Nat.mul_add_div (by decide), Nat.div_eq_of_lt ht,
      Nat.add_zero]
  rw [recover, hcount, recoverFrom_image (Nat.zero_add _)]
  rfl

/-- The first answer has the bytes: the records are returned, and at most the tail is cut off. -/
theorem openLog_read (entries : List Entry) (second : Call → Bool) (ht : tail.length < recordSize)
    (hfirst : first .sync = false ∧ first .readFile = false) :
    ∃ file, openLog ⟨image entries ++ tail, [first, second]⟩ =
      .ok (nextSeq (stamp entries), stamp entries) ⟨file, []⟩ ∧ image entries <+: file := by
  have hlen : entries.length * recordSize = (image entries).length := by
    rw [length_image, Nat.mul_comm]
  refine ⟨_, openLog_run (by rw [answer_eq hfirst, recover_tail ht]) ?_, ?_⟩
  · rw [hlen, List.length_append]
    omega
  · split
    · exact List.prefix_append _ _
    · have htake : (image entries ++ tail).take (entries.length * recordSize) = image entries := by
        rw [hlen, List.take_left]
      exact htake.symm ▸ List.prefix_rfl

/-- The first answer has no bytes: the log is opened as an empty one. -/
theorem openLog_unread (hfirst : ¬ (first .sync = false ∧ first .readFile = false)) :
    openLog ⟨file, [first, second]⟩ =
      .ok (1, []) ⟨if answer second file = [] then file else [], []⟩ := by
  rw [openLog_run (by rw [answer_eq_nil hfirst]; rfl) (Nat.zero_le _)]
  have hiff : 0 = (answer second file).length ↔ answer second file = [] := by
    rw [eq_comm, List.length_eq_zero_iff]
  simp only [hiff, List.take_zero]
  rfl

/-- A second answer that has the bytes then empties the file. -/
theorem openLog_cut (file : List UInt8)
    (hfirst : ¬ (first .sync = false ∧ first .readFile = false))
    (hsecond : second .sync = false ∧ second .readFile = false) :
    openLog ⟨file, [first, second]⟩ = .ok (1, []) ⟨[], []⟩ := by
  rw [openLog_unread hfirst, answer_eq hsecond]
  split_ifs with h
  · rw [h]
  · rfl

/-- What opening a log may do: fail and leave the file, or return the records and keep their
bytes. -/
def Kept (entries : List Entry) (tail : List UInt8) :
    EStateM.Result Error FileDevice (UInt64 × List LogRecord) → Prop
  | .error _ d => d.file = image entries ++ tail
  | .ok (_, records) d => records = stamp entries ∧ image entries <+: d.file

/-- Opening a log keeps its records exactly when the first `DurableBytes` reads them. -/
theorem openLog_keeps_iff (entries : List Entry) (tail : List UInt8) (ht : tail.length < recordSize)
    (first second : Call → Bool) :
    Kept entries tail (openLog ⟨image entries ++ tail, [first, second]⟩) ↔
      (first .sync = false ∧ first .readFile = false) ∨ entries = [] := by
  by_cases hfirst : first .sync = false ∧ first .readFile = false
  · obtain ⟨file, hopen, hkeep⟩ := openLog_read entries second ht hfirst
    rw [hopen]
    exact iff_of_true ⟨rfl, hkeep⟩ (.inl hfirst)
  · rw [openLog_unread hfirst]
    constructor
    · rintro ⟨hrecords, -⟩
      have hlen := congrArg List.length hrecords
      rw [length_stamp] at hlen
      exact .inr (List.length_eq_zero_iff.mp hlen.symm)
    · rintro (h | rfl)
      · exact absurd h hfirst
      · exact ⟨rfl, List.nil_prefix⟩

theorem openLog_keeps_iff_torn : Kept [{ index := 1 }, { index := 2 }] [7]
    (openLog ⟨image [{ index := 1 }, { index := 2 }] ++ [7], [fun _ => false, fun _ => true]⟩) := by
  rw [openLog_keeps_iff _ _ (by decide)]
  exact .inl ⟨rfl, rfl⟩

/-- A read that fails once empties the file, and `Open` reports no error. -/
theorem openLog_destroys_records :
    openLog ⟨image [{ index := 1 }, { index := 2 }], [fun c => c == .readFile, fun _ => false]⟩ =
        .ok (1, []) ⟨[], []⟩ ∧
      ¬ Kept [{ index := 1 }, { index := 2 }] []
        (openLog ⟨image [{ index := 1 }, { index := 2 }],
          [fun c => c == .readFile, fun _ => false]⟩) := by
  rw [openLog_cut _ (fun h => Bool.noConfusion h.2) ⟨rfl, rfl⟩]
  refine ⟨rfl, ?_⟩
  rintro ⟨h, -⟩
  cases congrArg List.length h

end Promtact.Storage.File
