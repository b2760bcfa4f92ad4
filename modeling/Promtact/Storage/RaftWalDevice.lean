import Promtact.Storage.RaftWal
import Promtact.Storage.Wal

/-!
# The Raft log on an in-memory device

`RaftWal.Store` keeps its records in a list. Here they are the bytes of a WAL on a `MemoryDevice`,
and the power may be lost in every call between the `Append` and the `Sync` of the WAL.

* `call cut c`: a call; with `cut` the power is lost in it.
* `Sound events`: wherever the run is stopped, opening the device gives the state before or after
  the call that was going on, and after it once the call has returned.
* `sound_iff_inRange`: this is so exactly if no entry is accepted at one of the two highest indexes,
  at which a record is a fence.
-/

namespace Promtact.Storage

open Raft Refine

/-! ## Records at the widths of the format -/

/-- The record as the log writes it. -/
def Record.toEntry (r : Record) : Wal.Entry :=
  { index := UInt64.ofNat r.index, term := UInt64.ofNat r.term, command := UInt64.ofNat r.command
    kind := r.kind, oldVoters := UInt64.ofNat r.oldVoters, newVoters := UInt64.ofNat r.newVoters
    operation := r.operation, clientID := r.clientID, requestID := r.requestID
    key := r.key, value := r.value }

/-- The record as the log reads it. -/
def Record.ofEntry (e : Wal.Entry) : Record :=
  { index := e.index.toNat, term := e.term.toNat, command := e.command.toNat, kind := e.kind
    oldVoters := e.oldVoters.toNat, newVoters := e.newVoters.toNat, operation := e.operation
    clientID := e.clientID, requestID := e.requestID, key := e.key, value := e.value }

/-- The fields are 64-bit words. -/
structure Record.Fits (r : Record) : Prop where
  index : r.index < 2 ^ 64
  term : r.term < 2 ^ 64
  command : r.command < 2 ^ 64
  oldVoters : r.oldVoters < 2 ^ 64
  newVoters : r.newVoters < 2 ^ 64

theorem Record.Fits.ofEntry_toEntry {r : Record} (h : r.Fits) : Record.ofEntry r.toEntry = r := by
  obtain ⟨h1, h2, h3, h4, h5⟩ := h
  cases r
  simp only [Record.ofEntry, Record.toEntry, UInt64.toNat_ofNat_of_lt' h1,
    UInt64.toNat_ofNat_of_lt' h2, UInt64.toNat_ofNat_of_lt' h3, UInt64.toNat_ofNat_of_lt' h4,
    UInt64.toNat_ofNat_of_lt' h5]

namespace RaftWal

/-- A method of the store that writes. -/
inductive Call where
  | saveHardState (h : HardState)
  | append (index : Nat) (entry : Entry)
  | resetBase (index term : Nat)
  | compactLog (index : Nat)
  deriving DecidableEq, Repr

namespace Call

/-- The effect of a call on the store in memory. -/
def run : Call → EStateM StorageError Store Unit
  | saveHardState h => Store.saveHardState h
  | append index entry => Store.append index entry
  | resetBase index term => Store.resetBase index term
  | compactLog index => Store.compactLog index

/-- The arguments are values of their types: terms and indexes have 64 bits, identifiers 32. -/
def Fits : Call → Prop
  | saveHardState h => h.term < 2 ^ 64 ∧ h.votedFor < 2 ^ 32 ∧ h.commit < 2 ^ 64
  | append index entry => index < 2 ^ 64 ∧ entry.term < 2 ^ 64
  | resetBase index term => index < 2 ^ 64 ∧ term < 2 ^ 64
  | compactLog index => index < 2 ^ 64

/-- An entry that the store accepts is below the reserved indexes. -/
def InRange (st : State) : Call → Prop
  | append index _ =>
    st.base < index → index ≤ (st.base + st.data.length) % 2 ^ 64 → index < resetIndex
  | _ => True

theorem run_ok {c : Call} {st : State} {s' : Store} (h : c.run { toState := st } = .ok () s') :
    ∃ r, s'.log = [r] := by
  cases c with
  | saveHardState hard => exact ⟨_, (Store.saveHardState_logs h).1⟩
  | append index entry => exact ⟨_, (Store.append_ok h).2.2.1⟩
  | resetBase index term => exact ⟨_, (Store.resetBase_logs h).1⟩
  | compactLog index =>
    obtain ⟨term, hlog, -⟩ := Store.compactLog_logs h
    exact ⟨_, hlog⟩

/-- The record of a call, as it is read from the device, replays as the call. -/
theorem run_replays {c : Call} {st : State} {s' : Store} {r : Record} (hf : c.Fits)
    (hi : c.InRange st) (h : c.run { toState := st } = .ok () s') (hr : s'.log = [r]) :
    st.replayRecord (.ofEntry r.toEntry) = .ok s'.toState := by
  cases c with
  | saveHardState hard =>
    obtain ⟨hlog, hreplay⟩ := Store.saveHardState_logs h
    cases hlog.symm.trans hr
    rw [Record.Fits.ofEntry_toEntry ⟨Nat.two_pow_pos 64, hf.1,
      Nat.lt_trans hf.2.1 (by decide), hf.2.2, Nat.two_pow_pos 64⟩]
    exact hreplay
  | append index entry =>
    obtain ⟨hbase, hlast, -, -⟩ := Store.append_ok h
    obtain ⟨hlog, hreplay⟩ := Store.append_logs (hi hbase hlast) h
    cases hlog.symm.trans hr
    rw [Record.Fits.ofEntry_toEntry ⟨hf.1, hf.2, UInt64.toNat_lt _, BitVec.isLt _, BitVec.isLt _⟩]
    exact hreplay
  | resetBase index term =>
    obtain ⟨hlog, hreplay⟩ := Store.resetBase_logs h
    cases hlog.symm.trans hr
    rw [Record.Fits.ofEntry_toEntry ⟨(by decide : resetIndex < 2 ^ 64), hf.1, hf.2,
      Nat.two_pow_pos 64, Nat.two_pow_pos 64⟩]
    exact hreplay
  | compactLog index =>
    obtain ⟨term, hlog, hreplay⟩ := Store.compactLog_logs h
    cases hlog.symm.trans hr
    -- the term of the fence may be cut to its width, but is not read
    have hread : Record.ofEntry
        (Record.toEntry { index := compactIndex, term := index, command := term }) =
        { index := compactIndex, term := index, command := (UInt64.ofNat term).toNat } := by
      rw [Record.ofEntry, Record.toEntry]
      dsimp only
      rw [UInt64.toNat_ofNat_of_lt' hf]
      rfl
    rw [hread]
    exact hreplay _

end Call

/-! ## The store on a device -/

/-- The store with the log behind it. -/
structure DeviceStore where
  log : Wal.Log := {}
  state : State := {}
  deriving DecidableEq, Repr

/-- `Open` -/
def openDevice (device : Wal.MemoryDevice) : Except StorageError DeviceStore := do
  let (log, records) ← (Wal.openLog device).mapError fun e => ⟨e.message⟩
  let state ← replay (records.map fun r => .ofEntry r.entry)
  pure { log, state }

namespace DeviceStore

/-- A method of the log, with its error as one of the store. -/
def onLog (x : EStateM Wal.Error Wal.Log Unit) : EStateM StorageError DeviceStore Unit := fun s =>
  match x s.log with
  | .ok _ log => .ok () { s with log }
  | .error e log => .error ⟨e.message⟩ { s with log }

/-- `append`. With `cut` the power is lost before the records are synced. -/
def write (cut : Bool) (records : List Record) : EStateM StorageError DeviceStore Unit := do
  onLog (Wal.Log.append none (records.map Record.toEntry))
  if cut then throw ⟨"power lost"⟩
  onLog (Wal.Log.sync none)

/-- A call writes its record before it changes what is in memory. -/
def call (cut : Bool) (c : Call) : EStateM StorageError DeviceStore Unit := fun s =>
  match c.run { toState := s.state } with
  | .error e _ => .error e s
  | .ok _ st => (write cut st.log >>= fun _ => modify fun s => { s with state := st.toState }) s

/-- The store after a call, whether it was accepted or not. -/
def after (c : Call) (s : DeviceStore) : DeviceStore := finalState (call false c s)

/-- The device at the power loss in a call. -/
def lost (c : Call) (s : DeviceStore) : Wal.MemoryDevice := (finalState (call true c s)).log.device

/-- Opening the device of the store gives what the store has, without a crash and after one. -/
def Returns (s : DeviceStore) : Prop :=
  (∃ s', openDevice s.log.device = .ok s' ∧ s'.state = s.state) ∧
  ∀ torn d, s.log.device.crash torn = .ok d → ∃ s', openDevice d = .ok s' ∧ s'.state = s.state

/-- Opening the device gives the state before the call if the call has not begun, the state after
it if it has returned, and one of the two if the power is lost in it. -/
def Atomic (c : Call) (s : DeviceStore) : Prop :=
  s.Returns ∧ (s.after c).Returns ∧ ∀ torn d, (s.lost c).crash torn = .ok d →
    ∃ s', openDevice d = .ok s' ∧ (s'.state = s.state ∨ s'.state = (s.after c).state)

end DeviceStore

/-- What happens to a store: a call that returns, a call in which the power is lost with `torn`
bytes of its record written, and a crash between two calls. After a crash the device is opened. -/
inductive Event where
  | call (c : Call)
  | crash (c : Call) (torn : Int)
  | idleCrash (torn : Int)
  deriving DecidableEq, Repr

namespace Event

/-- The store after a crash that leaves `torn` bytes of the last write. -/
def reopen (device : Wal.MemoryDevice) (torn : Int) : Option DeviceStore :=
  match device.crash torn with
  | .error _ => none
  | .ok d => (openDevice d).toOption

/-- `none` if `torn` is not admissible, or the device cannot be opened. -/
def step : Event → DeviceStore → Option DeviceStore
  | call c, s => some (s.after c)
  | crash c torn, s => reopen (s.lost c) torn
  | idleCrash torn, s => reopen s.log.device torn

/-- The call of an event fits the records. -/
def Fits : Event → Prop
  | call c => c.Fits
  | crash c _ => c.Fits
  | idleCrash _ => True

/-- The call of an event is atomic, or the store comes back as it was. -/
def Atomic (s : DeviceStore) : Event → Prop
  | call c => s.Atomic c
  | crash c _ => s.Atomic c
  | idleCrash _ => s.Returns

/-- The call of an event stays below the marks. -/
def InRange (s : DeviceStore) : Event → Prop
  | call c => c.InRange s.state
  | crash c _ => c.InRange s.state
  | idleCrash _ => True

end Event

/-- Every event of the run is atomic. -/
def Sound : List Event → DeviceStore → Prop
  | [], s => s.Returns
  | e :: events, s => e.Atomic s ∧ ∀ s', e.step s = some s' → Sound events s'

/-- Every event of a run stays below the marks. -/
def InRange : List Event → DeviceStore → Prop
  | [], _ => True
  | e :: events, s => e.InRange s ∧ ∀ s', e.step s = some s' → InRange events s'

/-! ## The bytes of the device -/

namespace DeviceStore

/-- The WAL has these entries, and all are durable. -/
def Backed (s : DeviceStore) (entries : List Wal.Entry) : Prop :=
  Wal.Holds s.log entries entries.length

/-- They replay as what is in memory. -/
def Good (s : DeviceStore) (entries : List Wal.Entry) : Prop :=
  s.Backed entries ∧ replay (entries.map Record.ofEntry) = .ok s.state

variable {s : DeviceStore} {c : Call} {entries : List Wal.Entry}

theorem after_error {e : StorageError} {st : Store}
    (h : c.run { toState := s.state } = .error e st) : s.after c = s ∧ s.lost c = s.log.device := by
  rw [after, lost, call, call, h]
  exact ⟨rfl, rfl⟩

theorem after_ok {st : Store} {r : Record} (h : c.run { toState := s.state } = .ok () st)
    (hr : st.log = [r]) :
    s.after c = { log := finalState (Wal.Log.sync none (s.log.write r.toEntry)), state := st.toState } ∧
      s.lost c = (s.log.write r.toEntry).device := by
  rw [after, lost, call, call, h]
  dsimp only
  rw [hr]
  exact ⟨rfl, rfl⟩

theorem call_ok {st : Store} (h : c.run { toState := s.state } = .ok () st) :
    call false c s = .ok () (s.after c) := by
  obtain ⟨r, hr⟩ := Call.run_ok h
  rw [after, call, h]
  dsimp only
  rw [hr]
  rfl

theorem Backed.after_ok {st : Store} {r : Record} (h : s.Backed entries)
    (hx : c.run { toState := s.state } = .ok () st) (hr : st.log = [r]) :
    (s.after c).Backed (entries ++ [r.toEntry]) := by
  rw [(DeviceStore.after_ok hx hr).1]
  exact (h.write r.toEntry).sync none

theorem Backed.after (h : s.Backed entries) (c : Call) : ∃ entries, (s.after c).Backed entries := by
  cases hx : c.run { toState := s.state } with
  | error e st =>
    rw [(after_error hx).1]
    exact ⟨entries, h⟩
  | ok _ st =>
    obtain ⟨r, hr⟩ := Call.run_ok hx
    exact ⟨_, h.after_ok hx hr⟩

/-- The device of a store, also if the power is lost in a call. -/
theorem Backed.lost (h : s.Backed entries) (c : Call) :
    ∃ log entries synced, Wal.Holds log entries synced ∧ log.device = s.lost c := by
  cases hx : c.run { toState := s.state } with
  | error e st => exact ⟨_, _, _, h, (after_error hx).2.symm⟩
  | ok _ st =>
    obtain ⟨r, hr⟩ := Call.run_ok hx
    exact ⟨_, _, _, h.write r.toEntry, (DeviceStore.after_ok hx hr).2.symm⟩

/-- Opening a device is replaying what is left of its entries. -/
theorem openDevice_crash {log : Wal.Log} {synced : Nat} {d : Wal.MemoryDevice} {torn : Int}
    (h : Wal.Holds log entries synced) (hc : log.device.crash torn = .ok d) :
    ∃ k log', synced ≤ k ∧ k ≤ entries.length ∧ Wal.Holds log' (entries.take k) k ∧
      openDevice d = (replay ((entries.take k).map Record.ofEntry)).map (DeviceStore.mk log') := by
  obtain ⟨k, log', hn, hk, ho, hlog', -⟩ := h.reopen hc
  refine ⟨k, log', hn, hk, hlog', ?_⟩
  rw [openDevice, ho]
  show (replay ((Wal.stamp (entries.take k)).map (Record.ofEntry ∘ Wal.LogRecord.entry)) >>= _) = _
  rw [← List.map_map, Wal.map_entry_stamp]
  cases replay ((entries.take k).map Record.ofEntry) <;> rfl

theorem Backed.pending (h : s.Backed entries) : s.log.device.pending = [] := by
  have := congrArg List.length h.bytes
  rw [List.length_append, h.durable, Wal.length_image] at this
  exact List.length_eq_zero_iff.mp (by omega)

theorem Backed.openDevice_crash (h : s.Backed entries) {d : Wal.MemoryDevice} {torn : Int}
    (hc : s.log.device.crash torn = .ok d) :
    ∃ log', Wal.Holds log' entries entries.length ∧
      openDevice d = (replay (entries.map Record.ofEntry)).map (DeviceStore.mk log') := by
  obtain ⟨k, log', hn, hk, hlog', ho⟩ := DeviceStore.openDevice_crash h hc
  obtain rfl := Nat.le_antisymm hk hn
  rw [List.take_length] at hlog' ho
  exact ⟨log', hlog', ho⟩

/-- The same without a crash: nothing is pending. -/
theorem Backed.openDevice (h : s.Backed entries) :
    ∃ log', Wal.Holds log' entries entries.length ∧
      openDevice s.log.device = (replay (entries.map Record.ofEntry)).map (DeviceStore.mk log') := by
  have hc : s.log.device.crash 0 = .ok s.log.device := by
    rw [Wal.MemoryDevice.crash, if_neg (by omega)]
    have := h.pending
    generalize s.log.device = d at this
    cases d
    cases this
    simp
  exact h.openDevice_crash hc

theorem Good.returns (h : s.Good entries) : s.Returns := by
  constructor
  · obtain ⟨log', -, ho⟩ := h.1.openDevice
    exact ⟨{ s with log := log' }, by rw [ho, h.2]; rfl, rfl⟩
  · intro torn d hc
    obtain ⟨log', -, ho⟩ := h.1.openDevice_crash hc
    exact ⟨{ s with log := log' }, by rw [ho, h.2]; rfl, rfl⟩

/-- A store that returns is good. -/
theorem Returns.good (h : s.Returns) (hb : s.Backed entries) : s.Good entries := by
  obtain ⟨⟨s', ho, hs'⟩, -⟩ := h
  obtain ⟨log', -, ho'⟩ := hb.openDevice
  refine ⟨hb, ?_⟩
  rw [ho'] at ho
  cases hr : replay (entries.map Record.ofEntry) with
  | error e => rw [hr] at ho; cases ho
  | ok st =>
    rw [hr] at ho
    cases ho
    exact congrArg _ hs'

/-! ## Calls in range are atomic -/

theorem Good.after_ok {st : Store} {r : Record} (h : s.Good entries) (hf : c.Fits)
    (hi : c.InRange s.state) (hx : c.run { toState := s.state } = .ok () st) (hr : st.log = [r]) :
    replay ((entries ++ [r.toEntry]).map Record.ofEntry) = .ok st.toState := by
  rw [List.map_append, List.map_singleton, Store.replay_snoc h.2]
  exact Call.run_replays hf hi hx hr

theorem Good.after (h : s.Good entries) (hf : c.Fits) (hi : c.InRange s.state) :
    ∃ entries, (s.after c).Good entries := by
  cases hx : c.run { toState := s.state } with
  | error e st =>
    rw [(after_error hx).1]
    exact ⟨entries, h⟩
  | ok _ st =>
    obtain ⟨r, hr⟩ := Call.run_ok hx
    refine ⟨_, h.1.after_ok hx hr, ?_⟩
    rw [(DeviceStore.after_ok hx hr).1]
    exact h.after_ok hf hi hx hr

/-- The power is lost in a call: its record is there or it is not. -/
theorem Good.lost {torn : Int} {d : Wal.MemoryDevice} (h : s.Good entries) (hf : c.Fits)
    (hi : c.InRange s.state) (hc : (s.lost c).crash torn = .ok d) :
    ∃ s' entries, openDevice d = .ok s' ∧ s'.Good entries ∧
      (s'.state = s.state ∨ s'.state = (s.after c).state) := by
  cases hx : c.run { toState := s.state } with
  | error e st =>
    rw [(after_error hx).2] at hc
    obtain ⟨log', hlog', ho⟩ := h.1.openDevice_crash hc
    exact ⟨{ s with log := log' }, entries, by rw [ho, h.2]; rfl, ⟨hlog', h.2⟩, .inl rfl⟩
  | ok _ st =>
    obtain ⟨r, hr⟩ := Call.run_ok hx
    have hreplay := h.after_ok hf hi hx hr
    obtain ⟨hafter, hlost⟩ := DeviceStore.after_ok hx hr
    rw [hlost] at hc
    obtain ⟨k, log', hn, hk, hlog', ho⟩ := openDevice_crash (h.1.write r.toEntry) hc
    rw [List.length_append, List.length_singleton] at hk
    rw [hafter]
    rcases Nat.le_succ_iff.mp hk with hk | rfl
    · obtain rfl := Nat.le_antisymm hk hn
      rw [List.take_left' rfl] at hlog' ho
      exact ⟨{ s with log := log' }, entries, by rw [ho, h.2]; rfl, ⟨hlog', h.2⟩, .inl rfl⟩
    · rw [List.take_of_length_le (by simp)] at hlog' ho
      refine ⟨⟨log', st.toState⟩, _, by rw [ho, hreplay]; rfl, ⟨?_, hreplay⟩, .inr rfl⟩
      rw [Backed, List.length_append]
      exact hlog'

theorem Good.atomic (h : s.Good entries) (hf : c.Fits) (hi : c.InRange s.state) : s.Atomic c := by
  obtain ⟨entries', h'⟩ := h.after hf hi
  refine ⟨h.returns, h'.returns, fun torn d hc => ?_⟩
  obtain ⟨s', -, ho, -, hs'⟩ := h.lost hf hi hc
  exact ⟨s', ho, hs'⟩

/-! ## A call out of range is not -/

/-- The record of an entry at a reserved index replays as a fence. -/
theorem replayRecord_reserved {st : State} {index : Nat} {entry : Entry} (hb : st.base < index)
    (hl : index ≤ (st.base + st.data.length) % 2 ^ 64) (hr : ¬ index < resetIndex) :
    st.replayRecord (.ofEntry (entryRecord index entry).toEntry) ≠ .ok (st.set index entry) := by
  have hle : (st.base + st.data.length) % 2 ^ 64 ≤ st.base + st.data.length := Nat.mod_le _ _
  have hlt : (st.base + st.data.length) % 2 ^ 64 < 2 ^ 64 := Nat.mod_lt _ (by decide)
  have hindex : (Record.ofEntry (entryRecord index entry).toEntry).index = index :=
    UInt64.toNat_ofNat_of_lt' (by show index < 2 ^ 64; omega)
  have hlength : (st.set index entry).data.length = min (index - st.base) st.data.length + 1 := by
    simp [State.set]
  unfold resetIndex at hr
  rw [State.replayRecord, hindex]
  intro h
  split at h
  · split at h
    · cases h
    · -- a reset leaves one entry, the accepted append at least two
      have hlen := congrArg (fun x => (x.map (·.data.length)).toOption) h
      simp only [Except.map, Except.toOption, hlength, Option.some.injEq, State.reset,
        List.length_singleton] at hlen
      omega
  · rename_i hne
    rw [if_pos (by unfold compactIndex; unfold resetIndex at hne; omega)] at h
    split at h
    · cases h
    · -- a compaction adds nothing to the log
      have hbase := congrArg (fun x => (x.map (·.base)).toOption) h
      have hlen := congrArg (fun x => (x.map (·.data.length)).toOption) h
      simp only [Except.map, Except.toOption, Option.some.injEq, State.dropTo, State.set] at hbase
      simp only [Except.map, Except.toOption, hlength, Option.some.injEq, State.dropTo,
        List.length_drop] at hlen
      unfold resetIndex at hne
      omega

theorem Atomic.inRange (h : s.Atomic c) (hb : s.Backed entries) : c.InRange s.state := by
  cases c with
  | append index entry =>
    intro hbase hlast
    refine by_contra fun hr => ?_
    obtain ⟨st, hx, hlog, hstate⟩ : ∃ st, Store.append index entry { toState := s.state } = .ok () st ∧
        st.log = [entryRecord index entry] ∧ st.toState = s.state.set index entry :=
      ⟨_, if_neg (not_or.mpr ⟨Nat.not_le.mpr hbase, Nat.not_lt.mpr hlast⟩), rfl, rfl⟩
    have hafter := (DeviceStore.after_ok (c := .append index entry) hx hlog).1
    have hgood : (s.after (.append index entry)).Good (entries ++ [(entryRecord index entry).toEntry]) :=
      h.2.1.good (hb.after_ok hx hlog)
    have hreplay := hgood.2
    rw [hafter, List.map_append, List.map_singleton, Store.replay_snoc (h.1.good hb).2, hstate] at hreplay
    exact replayRecord_reserved hbase hlast hr hreplay
  | _ => trivial

end DeviceStore

/-! ## Runs -/

namespace Event

variable {e : Event} {s s' : DeviceStore} {entries : List Wal.Entry}

theorem reopen_some {device : Wal.MemoryDevice} {torn : Int} (h : reopen device torn = some s') :
    ∃ d, device.crash torn = .ok d ∧ openDevice d = .ok s' := by
  unfold reopen at h
  split at h
  · cases h
  · rename_i d hc
    cases ho : openDevice d with
    | error e => rw [ho] at h; cases h
    | ok s => rw [ho] at h; cases h; exact ⟨d, hc, ho⟩

theorem step_good (h : s.Good entries) (hf : e.Fits) (hi : e.InRange s) (hs : e.step s = some s') :
    ∃ entries, s'.Good entries := by
  cases e with
  | call c =>
    cases hs
    exact h.after hf hi
  | crash c torn =>
    obtain ⟨d, hc, ho⟩ := reopen_some hs
    obtain ⟨s₁, entries₁, ho₁, h₁, -⟩ := h.lost hf hi hc
    cases ho₁.symm.trans ho
    exact ⟨entries₁, h₁⟩
  | idleCrash torn =>
    obtain ⟨d, hc, ho⟩ := reopen_some hs
    obtain ⟨log', hlog', ho'⟩ := h.1.openDevice_crash hc
    rw [h.2] at ho'
    cases ho'.symm.trans ho
    exact ⟨entries, hlog', h.2⟩

theorem atomic_of_inRange (h : s.Good entries) (hf : e.Fits) (hi : e.InRange s) : e.Atomic s := by
  cases e with
  | call c => exact h.atomic hf hi
  | crash c torn => exact h.atomic hf hi
  | idleCrash torn => exact h.returns

theorem step_backed (h : s.Backed entries) (hs : e.step s = some s') :
    ∃ entries, s'.Backed entries := by
  -- what is opened is backed by the entries that were read
  have key : ∀ {log : Wal.Log} {entries : List Wal.Entry} {synced : Nat} {torn : Int},
      Wal.Holds log entries synced → reopen log.device torn = some s' → ∃ entries, s'.Backed entries := by
    intro log entries synced torn hlog hs
    obtain ⟨d, hc, ho⟩ := reopen_some hs
    obtain ⟨k, log', -, hk, hlog', ho'⟩ := DeviceStore.openDevice_crash hlog hc
    cases hr : replay ((entries.take k).map Record.ofEntry) with
    | error e => rw [ho', hr] at ho; cases ho
    | ok st =>
      rw [ho', hr] at ho
      cases ho
      refine ⟨entries.take k, ?_⟩
      rw [DeviceStore.Backed, List.length_take, Nat.min_eq_left hk]
      exact hlog'
  cases e with
  | call c =>
    cases hs
    exact h.after c
  | crash c torn =>
    obtain ⟨log, entries', synced, hlog, hdevice⟩ := h.lost c
    exact key hlog (by rw [hdevice]; exact hs)
  | idleCrash torn => exact key h hs

theorem inRange_of_atomic (h : s.Backed entries) (ha : e.Atomic s) : e.InRange s := by
  cases e with
  | call c => exact ha.inRange h
  | crash c torn => exact ha.inRange h
  | idleCrash torn => trivial

end Event

theorem sound_of_inRange {events : List Event} {s : DeviceStore} {entries : List Wal.Entry}
    (hf : ∀ e ∈ events, e.Fits) (h : s.Good entries) (hi : InRange events s) : Sound events s := by
  induction events generalizing s entries with
  | nil => exact h.returns
  | cons e events ih =>
    obtain ⟨he, hevents⟩ := List.forall_mem_cons.mp hf
    refine ⟨Event.atomic_of_inRange h he hi.1, fun s' hs => ?_⟩
    obtain ⟨entries', h'⟩ := Event.step_good h he hi.1 hs
    exact ih hevents h' (hi.2 s' hs)

theorem inRange_of_sound {events : List Event} {s : DeviceStore} {entries : List Wal.Entry}
    (h : s.Backed entries) (hs : Sound events s) : InRange events s := by
  induction events generalizing s entries with
  | nil => trivial
  | cons e events ih =>
    refine ⟨Event.inRange_of_atomic h hs.1, fun s' hstep => ?_⟩
    obtain ⟨entries', h'⟩ := Event.step_backed h hstep
    exact ih h' (hs.2 s' hstep)

theorem good_empty : DeviceStore.Good {} [] := ⟨⟨rfl, rfl, rfl⟩, rfl⟩

/-- Replay is exact and atomic in exactly the runs in which no entry is accepted at a reserved
index. -/
theorem sound_iff_inRange (events : List Event) (hf : ∀ e ∈ events, e.Fits) :
    openDevice {} = .ok {} ∧ (Sound events {} ↔ InRange events {}) :=
  ⟨rfl, inRange_of_sound good_empty.1, sound_of_inRange hf good_empty⟩

/-- An entry, a crash in the middle of a second one, and a compaction. -/
theorem sound_torn_append :
    Sound [.call (.append 1 { term := 1 }), .crash (.append 2 { term := 1 }) 50,
      .call (.compactLog 1)] {} := by
  refine (sound_iff_inRange _ ?_).2.mpr ⟨fun _ _ => by decide, fun s hs => ?_⟩
  · intro e he
    simp only [List.mem_cons, List.not_mem_nil, or_false] at he
    rcases he with rfl | rfl | rfl
    · exact ⟨by decide, by decide⟩
    · exact ⟨by decide, by decide⟩
    · exact (by decide : 1 < 2 ^ 64)
  · exact ⟨fun _ _ => by decide, fun s' _ => ⟨trivial, fun s'' _ => trivial⟩⟩

/-- The store accepts an entry at the index of the reset fences, and cannot be opened again. -/
theorem append_at_resetIndex_breaks_replay :
    ∃ s₁ s₂, DeviceStore.call false (.resetBase (2 ^ 64 - 3) 1) {} = .ok () s₁ ∧
      DeviceStore.call false (.append (2 ^ 64 - 2) { term := 1 }) s₁ = .ok () s₂ ∧
      openDevice s₂.log.device = .error ⟨"raftwal: reset index regression 1"⟩ ∧
      ¬ Sound [.call (.resetBase (2 ^ 64 - 3) 1), .call (.append (2 ^ 64 - 2) { term := 1 })] {} := by
  have hstate : (DeviceStore.after (.resetBase (2 ^ 64 - 3) 1) {}).state =
      { base := 2 ^ 64 - 3, data := [{ term := 1 }] } := rfl
  have h₁ := good_empty.1.after_ok (c := .resetBase (2 ^ 64 - 3) 1) rfl rfl
  obtain ⟨st, hx, hlog⟩ : ∃ st, (Call.append (2 ^ 64 - 2) { term := 1 }).run
        { toState := (DeviceStore.after (.resetBase (2 ^ 64 - 3) 1) {}).state } = .ok () st ∧
      st.log = [entryRecord (2 ^ 64 - 2) { term := 1 }] := by
    rw [hstate]
    exact ⟨_, rfl, rfl⟩
  have h₂ := h₁.after_ok hx hlog
  obtain ⟨log', -, ho⟩ := h₂.openDevice
  have hreplay : replay _ = .error _ := (rfl : replay
    ([] ++ [Record.toEntry { index := resetIndex, term := 2 ^ 64 - 3, command := 1 }] ++
      [(entryRecord (2 ^ 64 - 2) { term := 1 }).toEntry] |>.map Record.ofEntry) = _)
  rw [hreplay] at ho
  refine ⟨_, _, DeviceStore.call_ok rfl, DeviceStore.call_ok hx, ho, fun hsound => ?_⟩
  obtain ⟨⟨s', ho', -⟩, -⟩ := (hsound.2 _ rfl).1.2.1
  cases ho.symm.trans ho'

end RaftWal

end Promtact.Storage
