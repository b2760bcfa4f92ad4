import Mathlib.Data.List.Induction
import Promtact.Lib.Bytes
import Promtact.Raft.Types

/-!
# The replicated state machine (`statemachine/machine.go`)

A map from keys to values, and for each client the last request that was executed with its result. A
request is executed if its number is above the client's last one; the last one is answered from the
record, and an older one is an error. The Go maps are `Std.ExtTreeMap`: `Snapshot` writes them in
the order of their keys.

* `restore_snapshot`: a snapshot brings the machine back.
* `exactly_once`: over any list of entries, with snapshots in between, each request is executed
  once.
-/

namespace Promtact

open Raft Bytes

namespace StateMachine

/-- `Result`: what an entry answers to its client. -/
structure Result where
  clientID : UInt64 := 0
  requestID : UInt64 := 0
  value : UInt64 := 0
  found : Bool := false
  deriving DecidableEq, Repr

/-- The last request of a client and what it answered. -/
structure ClientRecord where
  requestID : UInt64
  value : UInt64
  found : Bool
  deriving DecidableEq, Repr

/-- The errors of the machine. -/
inductive MachineError where
  | staleRequest
  | badSnapshot
  | unsupported
  deriving DecidableEq, Repr

/-- The text of the error. -/
def MachineError.message : MachineError → String
  | .staleRequest => "statemachine: stale request"
  | .badSnapshot => "statemachine: invalid snapshot"
  | .unsupported => "statemachine: unsupported operation"

/-- The keys and values; equal maps are equal. -/
abbrev Values := Std.ExtTreeMap UInt64 UInt64

/-- `Machine`: the values, and the last request of each client. -/
structure Machine where
  values : Values := ∅
  clients : Std.ExtTreeMap UInt64 ClientRecord := ∅

namespace Machine

variable (m : Machine)

/-- The end of `Apply`: the record of the client is replaced. -/
def finish (values : Values) (result : Result) : Machine × Except MachineError Result :=
  ({ values
     clients := m.clients.insert result.clientID ⟨result.requestID, result.value, result.found⟩ },
    .ok result)

/-- The `switch` of `Apply`. -/
def execute (entry : Entry) : Machine × Except MachineError Result :=
  match entry.operation with
  | .put => m.finish (m.values.insert entry.key entry.value)
      { clientID := entry.clientID, requestID := entry.requestID, value := entry.value, found := true }
  | .delete => m.finish (m.values.erase entry.key)
      { clientID := entry.clientID, requestID := entry.requestID
        value := (m.values[entry.key]?).getD 0, found := (m.values[entry.key]?).isSome }
  | _ => (m, .error .unsupported)

/-- `Apply`: a request runs once; a repetition gets the first answer. -/
def apply (entry : Entry) : Machine × Except MachineError Result :=
  if entry.operation = .legacy then (m, .ok {})
  else match m.clients[entry.clientID]? with
    | some previous =>
      if previous.requestID = entry.requestID then
        (m, .ok ⟨entry.clientID, previous.requestID, previous.value, previous.found⟩)
      else if entry.requestID < previous.requestID then (m, .error .staleRequest)
      else m.execute entry
    | none => m.execute entry

/-- `Get`. -/
def get (key : UInt64) : Option UInt64 := m.values[key]?

/-- `Cached`: `none` if the request was not executed. -/
def cached (clientID requestID : UInt64) : Except MachineError (Option Result) :=
  match m.clients[clientID]? with
  | none => .ok none
  | some record =>
    if record.requestID < requestID then .ok none
    else if requestID < record.requestID then .error .staleRequest
    else .ok (some ⟨clientID, requestID, record.value, record.found⟩)

/-! ## Snapshots -/

/-- `"HYSM"`. -/
def magic : List UInt8 := [0x48, 0x59, 0x53, 0x4D]

/-- A key and its value in a snapshot. -/
def valueBytes (kv : UInt64 × UInt64) : List UInt8 := pack [(8, kv.1.toNat), (8, kv.2.toNat)]

/-- A client and its record in a snapshot. -/
def clientBytes (c : UInt64 × ClientRecord) : List UInt8 :=
  pack [(8, c.1.toNat), (8, c.2.requestID.toNat), (8, c.2.value.toNat), (1, c.2.found.toNat), (7, 0)]

/-- Magic, version and the two counts. -/
def header : List UInt8 :=
  magic ++ pack [(2, 1), (2, 0), (4, m.values.toList.length), (4, m.clients.toList.length)]

/-- Everything but the checksum. -/
def body : List UInt8 :=
  m.header ++ (m.values.toList.flatMap valueBytes ++ m.clients.toList.flatMap clientBytes)

/-- `Snapshot`: the body and its checksum. -/
def snapshot : List UInt8 := m.body ++ le 4 (crc32c m.body).toNat

/-- The loop of `Restore` over the values. -/
def readValues (b : List UInt8) (count : Nat) : Values :=
  (List.range count).foldl (fun values i =>
    values.insert (u64 b (16 + 16 * i)) (u64 b (16 + 16 * i + 8))) ∅

/-- The client record at an offset. -/
def readClient (b : List UInt8) (offset : Nat) : ClientRecord :=
  ⟨u64 b (offset + 8), u64 b (offset + 16), slice b (offset + 24) 1 == [1]⟩

/-- The clients of a snapshot. -/
def readClients (b : List UInt8) (start count : Nat) : Std.ExtTreeMap UInt64 ClientRecord :=
  (List.range count).foldl (fun clients i =>
    clients.insert (u64 b (start + 32 * i)) (readClient b (start + 32 * i))) ∅

/-- `Restore`: format, checksum and length are checked before anything is read. -/
def restore (b : List UInt8) : Except MachineError Machine :=
  if b.length < 20 ∨ slice b 0 4 ≠ magic ∨ u16 b 4 ≠ 1 then .error .badSnapshot
  else if crc32c (b.take (b.length - 4)) ≠ u32 b (b.length - 4) then .error .badSnapshot
  else
    let keyCount := (u32 b 8).toNat
    let clientCount := (u32 b 12).toNat
    if 20 + keyCount * 16 + clientCount * 32 ≠ b.length then .error .badSnapshot
    else .ok { values := readValues b keyCount
               clients := readClients b (16 + 16 * keyCount) clientCount }

/-! ### A snapshot brings the machine back -/

section RoundTrip

variable {β : Type}

theorem ofList_toList (t : Std.ExtTreeMap UInt64 β) : Std.ExtTreeMap.ofList t.toList = t := by
  refine Std.ExtTreeMap.ext_getElem? fun k => ?_
  cases hk : t[k]? with
  | some v =>
    have hmem := Std.ExtTreeMap.mem_toList_iff_getElem?_eq_some.mpr hk
    exact Std.ExtTreeMap.getElem?_ofList_of_mem Std.ReflCmp.compare_self
      Std.ExtTreeMap.distinct_keys_toList hmem
  | none =>
    refine Std.ExtTreeMap.getElem?_ofList_of_contains_eq_false ?_
    rw [List.contains_eq_mem, decide_eq_false_iff_not, List.mem_map]
    rintro ⟨⟨k', v⟩, hmem, rfl⟩
    rw [Std.ExtTreeMap.mem_toList_iff_getElem?_eq_some.mp hmem] at hk
    cases hk

/-- A loop that reads the rows of a list builds its map. -/
theorem foldl_range_insert {l : List (UInt64 × β)} {key : Nat → UInt64} {value : Nat → β}
    (h : ∀ i (hi : i < l.length), (key i, value i) = l[i]) :
    (List.range l.length).foldl (fun t i => t.insert (key i) (value i)) ∅ =
      Std.ExtTreeMap.ofList l := by
  have hmap : (List.range l.length).map (fun i => (key i, value i)) = l := by
    refine List.ext_getElem (by simp) fun i hi _ => ?_
    rw [List.getElem_map, List.getElem_range]
    exact h i _
  rw [Std.ExtTreeMap.ofList_eq_foldl]
  conv_rhs => rw [← hmap, List.foldl_map]

end RoundTrip

theorem length_valueBytes (kv : UInt64 × UInt64) : (valueBytes kv).length = 16 := length_pack _

theorem length_clientBytes (c : UInt64 × ClientRecord) : (clientBytes c).length = 32 := length_pack _

theorem length_header : m.header.length = 16 := by
  rw [header, List.length_append, length_pack]; rfl

theorem length_snapshot : m.snapshot.length =
    20 + m.values.toList.length * 16 + m.clients.toList.length * 32 := by
  rw [snapshot, body, List.length_append, List.length_append, List.length_append, length_le,
    length_header, length_flatMap length_valueBytes, length_flatMap length_clientBytes]
  omega

variable {m}

theorem read_value {b : List UInt8} {o : Nat} {kv : UInt64 × UInt64}
    (h : slice b o 16 = valueBytes kv) : (u64 b o, u64 b (o + 8)) = kv := by
  have h0 := u64_slice (b := b) (o := o) (j := 0) (show 0 + 8 ≤ 16 by decide)
  have h1 := u64_slice (b := b) (o := o) (j := 8) (show 8 + 8 ≤ 16 by decide)
  rw [h] at h0 h1
  rw [Nat.add_zero] at h0
  rw [← h0, ← h1]
  exact Prod.ext (u64_field (i := 0) rfl) (u64_field (i := 1) rfl)

theorem read_client {b : List UInt8} {o : Nat} {c : UInt64 × ClientRecord}
    (h : slice b o 32 = clientBytes c) : (u64 b o, readClient b o) = c := by
  obtain ⟨client, requestID, value, found⟩ := c
  have h0 := u64_slice (b := b) (o := o) (j := 0) (show 0 + 8 ≤ 32 by decide)
  have h1 := u64_slice (b := b) (o := o) (j := 8) (show 8 + 8 ≤ 32 by decide)
  have h2 := u64_slice (b := b) (o := o) (j := 16) (show 16 + 8 ≤ 32 by decide)
  have h3 := slice_slice (b := b) (o := o) (j := 24) (n := 1) (show 24 + 1 ≤ 32 by decide)
  rw [h] at h0 h1 h2 h3
  rw [Nat.add_zero] at h0
  rw [readClient, ← h0, ← h1, ← h2, ← h3]
  have hid : u64 (clientBytes ⟨client, requestID, value, found⟩) 0 = client :=
    u64_field (i := 0) rfl
  have hrequest : u64 (clientBytes ⟨client, requestID, value, found⟩) 8 = requestID :=
    u64_field (i := 1) rfl
  have hvalue : u64 (clientBytes ⟨client, requestID, value, found⟩) 16 = value :=
    u64_field (i := 2) rfl
  have hfound : slice (clientBytes ⟨client, requestID, value, found⟩) 24 1 = le 1 found.toNat :=
    slice_field (i := 3) rfl
  rw [hid, hrequest, hvalue, hfound]
  cases found <;> rfl

/-- Where the parts of a snapshot are. -/
theorem slice_header : slice m.snapshot 0 16 = m.header := by
  rw [snapshot, body, List.append_assoc]
  exact slice_append (a := []) rfl (length_header m)

theorem slice_value {i : Nat} (hi : i < m.values.toList.length) :
    slice m.snapshot (16 + 16 * i) 16 = valueBytes m.values.toList[i] := by
  rw [snapshot, body, List.append_assoc, List.append_assoc, ← length_header m, slice_append_right,
    length_header]
  exact slice_flatMap length_valueBytes hi

theorem slice_client {i : Nat} (hi : i < m.clients.toList.length) :
    slice m.snapshot (16 + 16 * m.values.toList.length + 32 * i) 32 =
      clientBytes m.clients.toList[i] := by
  have hlen : (m.header ++ m.values.toList.flatMap valueBytes).length =
      16 + 16 * m.values.toList.length := by
    rw [List.length_append, length_header, length_flatMap length_valueBytes]
  rw [snapshot, body, ← List.append_assoc, List.append_assoc, ← hlen, slice_append_right]
  exact slice_flatMap length_clientBytes hi

theorem restore_snapshot (hv : m.values.toList.length < 2 ^ 32)
    (hc : m.clients.toList.length < 2 ^ 32) : restore m.snapshot = .ok m := by
  have hlen := length_snapshot m
  have hmagic : slice m.snapshot 0 4 = magic := by
    have := slice_slice (b := m.snapshot) (o := 0) (j := 0) (show 0 + 4 ≤ 16 by decide)
    rw [slice_header] at this
    exact this.symm
  have hheader : slice m.snapshot 0 16 = pack ([(1, 0x48), (1, 0x59), (1, 0x53), (1, 0x4D), (2, 1),
      (2, 0), (4, m.values.toList.length), (4, m.clients.toList.length)]) := slice_header
  have hversion : u16 m.snapshot 4 = 1 := by
    rw [show 4 = 0 + 4 from rfl, ← u16_slice (show 4 + 2 ≤ 16 by decide), hheader]
    exact u16_field (i := 4) rfl
  have hkeys : (u32 m.snapshot 8).toNat = m.values.toList.length := by
    rw [show 8 = 0 + 8 from rfl, ← u32_slice (show 8 + 4 ≤ 16 by decide), hheader]
    exact u32_field (i := 6) rfl hv
  have hclients : (u32 m.snapshot 12).toNat = m.clients.toList.length := by
    rw [show 12 = 0 + 12 from rfl, ← u32_slice (show 12 + 4 ≤ 16 by decide), hheader]
    exact u32_field (i := 7) rfl hc
  have hcrc : crc32c (m.snapshot.take (m.snapshot.length - 4)) =
      u32 m.snapshot (m.snapshot.length - 4) := by
    have hbody : m.snapshot.length - 4 = m.body.length := by
      rw [snapshot, List.length_append, length_le]; omega
    have hsum : slice m.snapshot m.body.length 4 = le 4 (crc32c m.body).toNat := by
      have := slice_append (c := []) (a := m.body) (b := le 4 (crc32c m.body).toNat) rfl (length_le _ _)
      rwa [List.append_nil] at this
    rw [hbody, u32, hsum, fromLE_le_of_lt (UInt32.toNat_lt _), UInt32.ofNat_toNat, snapshot,
      List.take_left]
  rw [restore, if_neg (by rw [hmagic, hversion]; simp; omega), if_neg (not_not.mpr hcrc)]
  dsimp only
  rw [hkeys, hclients, if_neg (by omega), readValues, readClients,
    foldl_range_insert fun i hi => read_value (slice_value hi),
    foldl_range_insert fun i hi => read_client (slice_client hi), ofList_toList, ofList_toList]

end Machine

/-! ## Each request is executed once -/

open Machine

/-- The operations that clients send, and the entries from before there were any. -/
def Supported (e : Entry) : Prop :=
  e.operation = .legacy ∨ e.operation = .put ∨ e.operation = .delete

/-- The entry is a request of the client. -/
def RequestOf (client : UInt64) (e : Entry) : Prop := e.operation ≠ .legacy ∧ e.clientID = client

/-- The entry is a request above every earlier one of its client. -/
def Fresh (earlier : List Entry) (e : Entry) : Prop :=
  e.operation ≠ .legacy ∧ ∀ e' ∈ earlier, RequestOf e.clientID e' → e'.requestID < e.requestID

instance (e : Entry) : Decidable (Supported e) := inferInstanceAs (Decidable (_ ∨ _ ∨ _))

instance (client : UInt64) (e : Entry) : Decidable (RequestOf client e) :=
  inferInstanceAs (Decidable (_ ∧ _))

instance (earlier : List Entry) (e : Entry) : Decidable (Fresh earlier e) :=
  inferInstanceAs (Decidable (_ ∧ _))

/-- The fresh requests of a list that comes after `earlier`. -/
def freshAfter (earlier : List Entry) : List Entry → List Entry
  | [] => []
  | e :: es => (if Fresh earlier e then [e] else []) ++ freshAfter (earlier ++ [e]) es

/-- What a request does to the values, without regard to its client. -/
def effect (values : Values) (e : Entry) : Values :=
  match e.operation with
  | .put => values.insert e.key e.value
  | .delete => values.erase e.key
  | _ => values

/-- An entry is applied, or the machine is written to a snapshot and restored from it. -/
inductive Action where
  | apply (entry : Entry)
  | reload

/-- The machine after an action. -/
def Action.run (m : Machine) : Action → Except MachineError Machine
  | .apply entry => .ok (m.apply entry).1
  | .reload => restore m.snapshot

/-- The actions one after the other on a new machine. -/
def run (actions : List Action) : Except MachineError Machine := actions.foldlM Action.run {}

/-- The entry an action applies. -/
def Action.entry? : Action → Option Entry
  | .apply entry => some entry
  | .reload => none

/-- The machine after some entries. -/
def applyAll (es : List Entry) : Machine := es.foldl (fun m e => (m.apply e).1) {}

theorem applyAll_snoc (es : List Entry) (e : Entry) :
    applyAll (es ++ [e]) = ((applyAll es).apply e).1 := by
  rw [applyAll, List.foldl_append]; rfl

theorem freshAfter_snoc (earlier es : List Entry) (e : Entry) :
    freshAfter earlier (es ++ [e]) =
      freshAfter earlier es ++ if Fresh (earlier ++ es) e then [e] else [] := by
  induction es generalizing earlier with
  | nil => simp [freshAfter]
  | cons x es ih =>
    show _ ++ freshAfter _ (es ++ [e]) = _
    rw [ih, List.append_assoc, List.singleton_append, ← List.append_assoc]; rfl

/-- A request that is executed becomes the record of its client. -/
theorem execute_eq {m : Machine} {e : Entry} (hs : Supported e) (hl : e.operation ≠ .legacy) :
    ∃ value found, m.execute e =
      m.finish (effect m.values e) ⟨e.clientID, e.requestID, value, found⟩ := by
  rcases hs with hs | hs | hs
  · exact absurd hs hl
  · refine ⟨e.value, true, ?_⟩
    rw [execute, effect, hs]
  · refine ⟨(m.values[e.key]?).getD 0, (m.values[e.key]?).isSome, ?_⟩
    rw [execute, effect, hs]

/-- The record of each client is its greatest request. -/
def HighWater (es : List Entry) (m : Machine) : Prop :=
  ∀ client, match m.clients[client]? with
    | none => ∀ e ∈ es, ¬ RequestOf client e
    | some r => (∃ e ∈ es, RequestOf client e ∧ e.requestID = r.requestID) ∧
        ∀ e ∈ es, RequestOf client e → e.requestID ≤ r.requestID

theorem HighWater.apply_fresh {es : List Entry} {m : Machine} {e : Entry} (h : HighWater es m)
    (hf : Fresh es e) : m.apply e = m.execute e := by
  have hc := h e.clientID
  rw [apply, if_neg hf.1]
  cases hr : m.clients[e.clientID]? with
  | none => rfl
  | some r =>
    rw [hr] at hc
    obtain ⟨⟨e', he', hreq, hid⟩, -⟩ := hc
    have hlt := hf.2 e' he' hreq
    rw [hid] at hlt
    dsimp only
    rw [if_neg (UInt64.ne_of_lt hlt), if_neg (UInt64.lt_asymm hlt)]

/-- Another request gets an answer from the record, or an error. -/
theorem HighWater.apply_stale {es : List Entry} {m : Machine} {e : Entry} (h : HighWater es m)
    (hl : e.operation ≠ .legacy) (hf : ¬ Fresh es e) : (m.apply e).1 = m := by
  have hc := h e.clientID
  rw [apply, if_neg hl]
  cases hr : m.clients[e.clientID]? with
  | none =>
    rw [hr] at hc
    exact absurd ⟨hl, fun e' he' hreq => absurd hreq (hc e' he')⟩ hf
  | some r =>
    rw [hr] at hc
    dsimp only
    split
    · rfl
    · rename_i hne
      rw [if_pos]
      by_contra hlt
      refine hf ⟨hl, fun e' he' hreq => ?_⟩
      have h1 := hc.2 e' he' hreq
      exact UInt64.lt_of_le_of_lt h1 (UInt64.lt_of_le_of_ne (UInt64.not_lt.mp hlt) hne)

theorem apply_legacy {m : Machine} {e : Entry} (hl : e.operation = .legacy) :
    (m.apply e).1 = m := by
  rw [apply, if_pos hl]

/-- An entry that is not above the record of its client. -/
theorem HighWater.keep {es : List Entry} {m : Machine} {e : Entry} (h : HighWater es m)
    (hf : ¬ Fresh es e) : HighWater (es ++ [e]) m := by
  intro client
  have hc := h client
  cases hr : m.clients[client]? with
  | none =>
    rw [hr] at hc
    intro e' he' hreq
    rcases List.mem_append.mp he' with he' | he'
    · exact hc e' he' hreq
    · rw [List.mem_singleton.mp he'] at hreq
      exact hf ⟨hreq.1, fun e'' he'' hreq' => absurd (hreq.2 ▸ hreq') (hc e'' he'')⟩
  | some r =>
    rw [hr] at hc
    obtain ⟨⟨e₀, he₀, hreq₀, hid₀⟩, hle⟩ := hc
    refine ⟨⟨e₀, List.mem_append_left _ he₀, hreq₀, hid₀⟩, fun e' he' hreq => ?_⟩
    rcases List.mem_append.mp he' with he' | he'
    · exact hle e' he' hreq
    · rw [List.mem_singleton.mp he'] at hreq ⊢
      refine UInt64.not_lt.mp fun hlt => hf ⟨hreq.1, fun e'' he'' hreq' => ?_⟩
      exact UInt64.lt_of_le_of_lt (hle e'' he'' (hreq.2 ▸ hreq')) hlt

theorem HighWater.step {es : List Entry} {m : Machine} {e : Entry} (h : HighWater es m)
    (hs : Supported e) : HighWater (es ++ [e]) (m.apply e).1 := by
  by_cases hf : Fresh es e
  · obtain ⟨value, found, hexec⟩ := execute_eq (m := m) hs hf.1
    rw [h.apply_fresh hf, hexec]
    intro client
    by_cases hc : client = e.clientID
    · subst hc
      simp only [finish, Std.ExtTreeMap.getElem?_insert_self]
      refine ⟨⟨e, List.mem_append_right _ (List.mem_singleton_self e), ⟨hf.1, rfl⟩, rfl⟩,
        fun e' he' hreq => ?_⟩
      rcases List.mem_append.mp he' with he' | he'
      · exact UInt64.le_of_lt (hf.2 e' he' hreq)
      · rw [List.mem_singleton.mp he']; exact UInt64.le_refl _
    · have hother : (m.finish (effect m.values e) ⟨e.clientID, e.requestID, value, found⟩).1.clients[
          client]? = m.clients[client]? := by
        simp [finish, Std.ExtTreeMap.getElem?_insert, Ne.symm hc]
      have hnot : ¬ RequestOf client e := fun hreq => hc hreq.2.symm
      have hk := h client
      rw [hother]
      cases hr : m.clients[client]? with
      | none =>
        rw [hr] at hk
        intro e' he'
        rcases List.mem_append.mp he' with he' | he'
        · exact hk e' he'
        · rw [List.mem_singleton.mp he']; exact hnot
      | some r =>
        rw [hr] at hk
        obtain ⟨⟨e₀, he₀, hreq₀⟩, hle⟩ := hk
        refine ⟨⟨e₀, List.mem_append_left _ he₀, hreq₀⟩, fun e' he' hreq => ?_⟩
        rcases List.mem_append.mp he' with he' | he'
        · exact hle e' he' hreq
        · rw [List.mem_singleton.mp he'] at hreq; exact absurd hreq hnot
  · have hsame : (m.apply e).1 = m := by
      by_cases hl : e.operation = .legacy
      · exact apply_legacy hl
      · exact h.apply_stale hl hf
    rw [hsame]
    exact h.keep hf

theorem highWater_applyAll {es : List Entry} (hs : ∀ e ∈ es, Supported e) :
    HighWater es (applyAll es) := by
  induction es using List.reverseRecOn with
  | nil =>
    intro client
    simp [applyAll]
  | append_singleton es e ih =>
    rw [applyAll_snoc]
    exact (ih fun e' he' => hs e' (List.mem_append_left _ he')).step
      (hs e (List.mem_append_right _ (List.mem_singleton_self e)))

/-- The values are those of the fresh requests. -/
theorem values_applyAll {es : List Entry} (hs : ∀ e ∈ es, Supported e) :
    (applyAll es).values = (freshAfter [] es).foldl effect ∅ := by
  induction es using List.reverseRecOn with
  | nil => rfl
  | append_singleton es e ih =>
    have hs' := fun e' he' => hs e' (List.mem_append_left [e] he')
    have hw := highWater_applyAll hs'
    have he := hs e (List.mem_append_right _ (List.mem_singleton_self e))
    rw [applyAll_snoc, freshAfter_snoc, List.foldl_append, ← ih hs', List.nil_append]
    split
    · rename_i hf
      obtain ⟨value, found, hexec⟩ := execute_eq (m := applyAll es) he hf.1
      rw [hw.apply_fresh hf, hexec]; rfl
    · rename_i hf
      by_cases hl : e.operation = .legacy
      · rw [apply_legacy hl]; rfl
      · rw [hw.apply_stale hl hf]; rfl

/-- The answer to a fresh request is kept until the client's next one. -/
theorem record_applyAll {earlier mid : List Entry} {e : Entry} {result : Result}
    (hs : ∀ e' ∈ earlier ++ e :: mid, Supported e') (hf : Fresh earlier e)
    (hr : ((applyAll earlier).apply e).2 = .ok result)
    (hmid : ∀ e' ∈ mid, RequestOf e.clientID e' → e'.requestID ≤ e.requestID) :
    (applyAll (earlier ++ e :: mid)).clients[e.clientID]? =
      some ⟨e.requestID, result.value, result.found⟩ := by
  induction mid using List.reverseRecOn with
  | nil =>
    have he := hs e (List.mem_append_right _ (List.mem_singleton_self e))
    have hw := highWater_applyAll fun e' he' => hs e' (List.mem_append_left _ he')
    obtain ⟨value, found, hexec⟩ := execute_eq (m := applyAll earlier) he hf.1
    rw [hw.apply_fresh hf, hexec] at hr
    cases hr
    rw [applyAll_snoc, hw.apply_fresh hf, hexec]
    exact Std.ExtTreeMap.getElem?_insert_self
  | append_singleton mid x ih =>
    rw [← List.cons_append, ← List.append_assoc] at hs ⊢
    have hs' := fun e' he' => hs e' (List.mem_append_left [x] he')
    have hmid' := fun e' he' => hmid e' (List.mem_append_left [x] he')
    have hx := hmid x (List.mem_append_right _ (List.mem_singleton_self x))
    have hw := highWater_applyAll hs'
    rw [applyAll_snoc]
    by_cases hl : x.operation = .legacy
    · rw [apply_legacy hl]; exact ih hs' hmid'
    by_cases hfx : Fresh (earlier ++ e :: mid) x
    · obtain ⟨value, found, hexec⟩ := execute_eq (m := applyAll (earlier ++ e :: mid))
        (hs x (List.mem_append_right _ (List.mem_singleton_self x))) hl
      have hc : x.clientID ≠ e.clientID := by
        intro hc
        have hlt := hfx.2 e (List.mem_append_right _ List.mem_cons_self) ⟨hf.1, hc.symm⟩
        exact UInt64.not_lt.mpr (hx ⟨hl, hc⟩) hlt
      rw [hw.apply_fresh hfx, hexec, ← ih hs' hmid']
      simp [finish, Std.ExtTreeMap.getElem?_insert, hc]
    · rw [hw.apply_stale hl hfx]; exact ih hs' hmid'

/-- The last request of a client is answered with the result of its execution. -/
theorem apply_repeated {earlier mid : List Entry} {e e' : Entry}
    (hs : ∀ x ∈ earlier ++ e :: mid, Supported x) (hf : Fresh earlier e)
    (hmid : ∀ x ∈ mid, RequestOf e.clientID x → x.requestID ≤ e.requestID)
    (hreq : RequestOf e.clientID e') (hid : e'.requestID = e.requestID) :
    ((applyAll (earlier ++ e :: mid)).apply e').2 = ((applyAll earlier).apply e).2 := by
  have he := hs e (List.mem_append_right _ List.mem_cons_self)
  have hw := highWater_applyAll fun x hx => hs x (List.mem_append_left _ hx)
  obtain ⟨value, found, hexec⟩ := execute_eq (m := applyAll earlier) he hf.1
  have hresult : ((applyAll earlier).apply e).2 =
      .ok ⟨e.clientID, e.requestID, value, found⟩ := by rw [hw.apply_fresh hf, hexec]; rfl
  have hrec := record_applyAll hs hf hresult hmid
  rw [apply, if_neg hreq.1, hreq.2, hrec]
  dsimp only
  rw [if_pos hid.symm, hresult]

/-! ### Snapshots in between -/

theorem size_apply_le (m : Machine) (e : Entry) :
    (m.apply e).1.values.size ≤ m.values.size + 1 ∧
      (m.apply e).1.clients.size ≤ m.clients.size + 1 := by
  have hexec : (m.execute e).1.values.size ≤ m.values.size + 1 ∧
      (m.execute e).1.clients.size ≤ m.clients.size + 1 := by
    unfold execute
    split
    · exact ⟨Std.ExtTreeMap.size_insert_le, Std.ExtTreeMap.size_insert_le⟩
    · exact ⟨Nat.le_succ_of_le Std.ExtTreeMap.size_erase_le, Std.ExtTreeMap.size_insert_le⟩
    · exact ⟨Nat.le_succ _, Nat.le_succ _⟩
  unfold apply
  split
  · exact ⟨Nat.le_succ _, Nat.le_succ _⟩
  · split
    · split
      · exact ⟨Nat.le_succ _, Nat.le_succ _⟩
      · split
        · exact ⟨Nat.le_succ _, Nat.le_succ _⟩
        · exact hexec
    · exact hexec

theorem size_applyAll_le (es : List Entry) :
    (applyAll es).values.size ≤ es.length ∧ (applyAll es).clients.size ≤ es.length := by
  induction es using List.reverseRecOn with
  | nil => exact ⟨Nat.le_refl _, Nat.le_refl _⟩
  | append_singleton es e ih =>
    have := size_apply_le (applyAll es) e
    rw [applyAll_snoc, List.length_append, List.length_singleton]
    omega

theorem run_snoc (actions : List Action) (a : Action) :
    run (actions ++ [a]) = run actions >>= fun m => a.run m := by
  rw [run, List.foldlM_append]
  refine congrArg _ (funext fun m => ?_)
  show (a.run m >>= pure) = _
  exact bind_pure _

theorem run_eq {actions : List Action} (hlen : (actions.filterMap Action.entry?).length < 2 ^ 32) :
    run actions = .ok (applyAll (actions.filterMap Action.entry?)) := by
  induction actions using List.reverseRecOn with
  | nil => rfl
  | append_singleton actions a ih =>
    rw [List.filterMap_append] at hlen ⊢
    rw [run_snoc, ih (by rw [List.length_append] at hlen; omega)]
    cases a with
    | apply e =>
      show Except.ok _ = _
      rw [← applyAll_snoc]; rfl
    | reload =>
      have hsize := size_applyAll_le (actions.filterMap Action.entry?)
      rw [List.length_append] at hlen
      show restore _ = .ok (applyAll (_ ++ []))
      rw [List.append_nil]
      refine restore_snapshot ?_ ?_
      · rw [Std.ExtTreeMap.length_toList]; omega
      · rw [Std.ExtTreeMap.length_toList]; omega

/-- Each request is executed once: the values are those of the fresh requests; any other request
changes nothing, and the last one of a client is answered as when it was executed. -/
theorem exactly_once (actions : List Action)
    (hlen : (actions.filterMap Action.entry?).length < 2 ^ 32)
    (hs : ∀ e ∈ actions.filterMap Action.entry?, Supported e) :
    (∃ m, run actions = .ok m ∧
      m.values = (freshAfter [] (actions.filterMap Action.entry?)).foldl effect ∅) ∧
    ∀ before e after, actions = before ++ .apply e :: after → e.operation ≠ .legacy →
      ∃ m, run before = .ok m ∧
        (¬ Fresh (before.filterMap Action.entry?) e →
          (m.apply e).1.values = m.values ∧ (m.apply e).1.clients = m.clients) ∧
        ∀ before₀ e₀ mid, before = before₀ ++ .apply e₀ :: mid →
          Fresh (before₀.filterMap Action.entry?) e₀ → RequestOf e.clientID e₀ →
          e₀.requestID = e.requestID →
          (∀ x ∈ mid.filterMap Action.entry?, RequestOf e.clientID x → x.requestID ≤ e.requestID) →
          ∃ m₀, run before₀ = .ok m₀ ∧ (m.apply e).2 = (m₀.apply e₀).2 := by
  refine ⟨⟨_, run_eq hlen, values_applyAll hs⟩, fun before e after hsplit hl => ?_⟩
  subst hsplit
  rw [List.filterMap_append] at hlen hs
  have hs' := fun x hx => hs x (List.mem_append_left _ hx)
  have hlen' : (before.filterMap Action.entry?).length < 2 ^ 32 := by
    rw [List.length_append] at hlen; omega
  refine ⟨_, run_eq hlen', fun hf => ?_, fun before₀ e₀ mid hsplit hf hreq hid hmid => ?_⟩
  · rw [(highWater_applyAll hs').apply_stale hl hf]
    exact ⟨rfl, rfl⟩
  · subst hsplit
    have heq : (before₀ ++ .apply e₀ :: mid).filterMap Action.entry? =
        before₀.filterMap Action.entry? ++ e₀ :: mid.filterMap Action.entry? := by
      rw [List.filterMap_append]; rfl
    rw [heq] at hs' hlen' ⊢
    refine ⟨_, run_eq (by rw [List.length_append] at hlen'; omega), ?_⟩
    rw [← hid] at hmid
    exact apply_repeated hs' hf (fun x hx hx' => hmid x hx (hreq.2 ▸ hx')) ⟨hl, hreq.2.symm⟩ hid.symm

/-- A put that is sent twice, with a snapshot in between, is executed once. -/
theorem exactly_once_put_twice :
    ∃ m, run [.apply { operation := .put, clientID := 7, requestID := 1, key := 5, value := 9 }, .reload,
        .apply { operation := .put, clientID := 7, requestID := 1, key := 5, value := 9 }] = .ok m ∧
      m.values =
        [{ operation := .put, clientID := 7, requestID := 1, key := 5, value := 9 }].foldl effect ∅ :=
  (exactly_once _ (by decide) (by decide)).1

end StateMachine

end Promtact
