import Promtact.Raft.Cluster

/-!
# What a method of a node does, one effect after the other

The methods of a node interleave calls of the store, changes of what is only in memory and
messages. `Effect op` is one such effect of the method `op`, with what the code has checked before
it. Every method is a sequence of effects (`Op.effects` in `Promtact.Raft.Effects.Methods`), so a
property of all the methods of a node on any store is proved with one case per effect.

* `Volatile`: the fields that are in memory only change. `Core` is what does not.
* `Persist`: the hard states that a node saves; `Extend`: the entries that it appends; `Save`: the
  snapshots. Each of them succeeds, or stops the node.
* `MaySend`: what the messages of a node have to do with its state when they are sent.

A method that panics is not described: nobody drains a node that has panicked.
-/

namespace Promtact.Raft

open Refine

variable {σ : Type}

/-! ## Changes in memory only -/

/-- What a node has besides its role, its peers and its voters. -/
structure Core (σ : Type) where
  id : Nat
  term : Nat
  votedFor : Nat
  log : List Entry
  baseIndex : Nat
  baseTerm : Nat
  commit : Nat
  applied : Nat
  outbound : List Message
  enqueued : List (Enqueued σ)
  store : σ
  faulted : Bool
  storageErr : Option StorageError
  readContext : UInt64
  readAckMask : Mask
  readIndex : Nat
  snapshot : Snapshot

/-- The part of a node that its durable and visible behaviour rests on. -/
def Node.core (n : Node σ) : Core σ :=
  { id := n.id, term := n.term, votedFor := n.votedFor, log := n.log, baseIndex := n.baseIndex
    baseTerm := n.baseTerm, commit := n.commit, applied := n.applied, outbound := n.outbound
    enqueued := n.enqueued, store := n.store, faulted := n.faulted, storageErr := n.storageErr
    readContext := n.readContext, readAckMask := n.readAckMask, readIndex := n.readIndex
    snapshot := n.snapshot }

/-- The core stays, the node does not take a new role except that of a follower, and no read
becomes ready. -/
structure Frame (n n' : Node σ) : Prop where
  core : n'.core = n.core
  state : n'.state = n.state ∨ n'.state = .follower
  ready : n'.readReady = n.readReady ∨ n'.readReady = false

namespace Frame

variable {n n' n'' : Node σ}

theorem refl (n : Node σ) : Frame n n := ⟨rfl, .inl rfl, .inl rfl⟩

theorem trans (h : Frame n n') (h' : Frame n' n'') : Frame n n'' where
  core := h'.core.trans h.core
  state := by
    rcases h'.state with hs | hs
    · rw [hs]; exact h.state
    · exact .inr hs
  ready := by
    rcases h'.ready with hr | hr
    · rw [hr]; exact h.ready
    · exact .inr hr

theorem id (h : Frame n n') : n'.id = n.id := congrArg Core.id h.core

theorem term (h : Frame n n') : n'.term = n.term := congrArg Core.term h.core

theorem votedFor (h : Frame n n') : n'.votedFor = n.votedFor := congrArg Core.votedFor h.core

theorem log (h : Frame n n') : n'.log = n.log := congrArg Core.log h.core

theorem baseIndex (h : Frame n n') : n'.baseIndex = n.baseIndex := congrArg Core.baseIndex h.core

theorem commit (h : Frame n n') : n'.commit = n.commit := congrArg Core.commit h.core

theorem applied (h : Frame n n') : n'.applied = n.applied := congrArg Core.applied h.core

theorem outbound (h : Frame n n') : n'.outbound = n.outbound := congrArg Core.outbound h.core

theorem faulted (h : Frame n n') : n'.faulted = n.faulted := congrArg Core.faulted h.core

theorem store (h : Frame n n') : n'.store = n.store := congrArg Core.store h.core

theorem lastIndex (h : Frame n n') : n'.lastIndex = n.lastIndex := by
  rw [Node.lastIndex, Node.lastIndex, h.baseIndex, h.log]

/-- The log and the store do not matter. -/
theorem withLog (h : Frame n n') (log : List Entry) (store : σ) :
    Frame { n with log, store } { n' with log, store } where
  core := by
    show { n'.core with log, store } = { n.core with log, store }
    rw [h.core]
  state := h.state
  ready := h.ready

theorem ensurePeer (n : Node σ) (mask : Mask) (id : Nat) : Frame n (n.ensurePeer mask id) := by
  unfold Node.ensurePeer
  split
  · exact refl n
  · split
    · exact refl n
    · exact ⟨rfl, .inl rfl, .inl rfl⟩

theorem ensurePeers (n : Node σ) (mask : Mask) : Frame n (n.ensurePeers mask) := by
  suffices ∀ (ids : List Nat) (n : Node σ), Frame n (ids.foldl (fun n id => n.ensurePeer mask id) n) from
    this _ n
  intro ids
  induction ids with
  | nil => exact refl
  | cons id ids ih => exact fun n => (ensurePeer n mask id).trans (ih _)

end Frame

/-- The peers and the voters stay. -/
def SameConfig (n n' : Node σ) : Prop :=
  n'.peers = n.peers ∧ n'.votersOld = n.votersOld ∧ n'.votersNew = n.votersNew

/-- A frame that keeps the membership, unless the log has a configuration. -/
structure Volatile (n n' : Node σ) : Prop extends Frame n n' where
  config : SameConfig n n' ∨ ∃ e ∈ n.log, e.isConfig = true

namespace Volatile

variable {n n' n'' : Node σ}

theorem refl (n : Node σ) : Volatile n n := ⟨.refl n, .inl ⟨rfl, rfl, rfl⟩⟩

theorem trans (h : Volatile n n') (h' : Volatile n' n'') : Volatile n n'' := by
  refine ⟨h.toFrame.trans h'.toFrame, ?_⟩
  rcases h.config with hc | hc
  · rcases h'.config with hc' | hc'
    · exact .inl ⟨hc'.1.trans hc.1, hc'.2.1.trans hc.2.1, hc'.2.2.trans hc.2.2⟩
    · exact .inr (h.log ▸ hc')
  · exact .inr hc

/-- The store does not matter, nor does the log if it grows. -/
theorem withLog (h : Volatile n n') {log : List Entry} (hl : ∀ e ∈ n.log, e ∈ log) (store : σ) :
    Volatile { n with log, store } { n' with log, store } := by
  refine ⟨h.toFrame.withLog log store, h.config.imp_right ?_⟩
  rintro ⟨e, he, hc⟩
  exact ⟨e, hl e he, hc⟩

theorem withStore (h : Volatile n n') (store : σ) : Volatile { n with store } { n' with store } := by
  refine ⟨⟨?_, h.state, h.ready⟩, h.config⟩
  show { n'.core with store } = { n.core with store }
  rw [h.core]

theorem ensurePeers (n : Node σ) (mask : Mask) {e : Entry} (he : e ∈ n.log)
    (hc : e.isConfig = true) : Volatile n (n.ensurePeers mask) :=
  ⟨.ensurePeers n mask, .inr ⟨e, he, hc⟩⟩

end Volatile

/-! ## Effects -/

section

variable [StableStore σ]

/-- The hard states that a node saves, and what it sets after that. -/
inductive Persist (op : Op) (n : Node σ) : HardState → Node σ → Prop
  | newTerm {m : Message} (hop : op = .step m) (ht : n.term < m.term) :
      Persist op n { term := m.term, commit := n.commit }
        { n with state := .follower, term := m.term, votedFor := 0, leader := 0, readReady := false }
  | campaign (bit : Mask) :
      Persist op n { term := n.term + 1, votedFor := n.id, commit := n.commit }
        { n with state := .candidate, term := n.term + 1, votedFor := n.id, elapsed := 0
                 voteMask := bit, preVoteMask := 0 }
  | vote {m : Message} (hop : op = .step m) (hv : n.votedFor = 0 ∨ n.votedFor = m.src)
      (hvoter : n.isVoter m.src = .ok true) :
      Persist op n { term := n.term, votedFor := m.src, commit := n.commit }
        { n with votedFor := m.src, elapsed := 0 }
  | commit {k : Nat} (hk : k ≤ n.lastIndex) (hc : n.commit < k ∨ k = n.lastIndex) :
      Persist op n (n.hardState k) { n with commit := k }

/-- The log is what it was at `n₀`, when the method began. -/
structure Since (n₀ n : Node σ) : Prop where
  term : n₀.term ≤ n.term
  log : n.log = n₀.log
  baseIndex : n.baseIndex = n₀.baseIndex
  commit : n.commit = n₀.commit
  applied : n.applied = n₀.applied

/-- The entry that a method appends: at the end of the log, or in place of an entry of another
term, which is cut off with what follows it. A method appends one entry at most. -/
inductive Extend (op : Op) (n₀ n : Node σ) : Nat → Entry → Prop
  | last (hn : Since n₀ n) (e : Entry) : Extend op n₀ n (n.lastIndex + 1) e
  | conflict {m : Message} {t : Nat} (hn : Since n₀ n) (hop : op = .step m)
      (htype : m.type = .append) (hm : m.hasEntry = true)
      (hprev : n.termAt m.logIndex = some m.logTerm) (hterm : ¬ m.term < n.term)
      (hat : n.termAt (m.logIndex + 1) = some t) (hne : t ≠ m.entry.term) :
      Extend op n₀ n (m.logIndex + 1) m.entry

/-- The log with an entry appended. -/
def Node.extend (n : Node σ) (k : Nat) (e : Entry) : List Entry := n.log.take (k - n.baseIndex) ++ [e]

/-- The snapshots that a node saves, and what it sets after that. -/
inductive Save (op : Op) (n₀ n : Node σ) : Snapshot → Node σ → Prop
  | own {index term : Nat} {state : List UInt8} (hn : Since n₀ n) (hop : op = .compact index state)
      (hb : n.baseIndex < index) (ha : index ≤ n.applied) (ht : n.termAt index = some term) :
      Save op n₀ n (n.ownSnapshot index term state)
        (n.withSnapshot (n.ownSnapshot index term state) (n.log.drop (index - n.baseIndex)))
  | install {m : Message} (hn : Since n₀ n) (hop : op = .step m) (htype : m.type = .installSnapshot)
      (hm : n.rejectsSnapshot m = false) (hb : n.baseIndex < m.snapshotIndex) :
      Save op n₀ n m.toSnapshot (n.install m.toSnapshot)

/-- The node installs the snapshot of the message, if its store takes it. -/
def Node.TakesSnapshot (n : Node σ) (m : Message) : Prop :=
  m.type = .installSnapshot ∧ n.term ≤ m.term ∧ n.baseIndex < m.snapshotIndex ∧ m.snapshotOld ≠ 0

instance (n : Node σ) (m : Message) : Decidable (n.TakesSnapshot m) :=
  inferInstanceAs (Decidable (_ ∧ _ ∧ _ ∧ _))

/-- Whom a method writes to: a peer, the sender of the message that it handles, or the node that is
to take over. -/
def Node.Addresses (op : Op) (n : Node σ) (p : Nat) : Prop :=
  p ∈ n.peers ∨ (∃ q, op = .step q ∧ q.src = p) ∨ op = .transferLeadership p ∧ p ≠ n.id

/-- What the message says about the node that sends it. -/
structure Node.MaySend (op : Op) (n : Node σ) (m : Message) : Prop where
  running : n.faulted = false
  src : m.src = n.id
  term : m.type.isPreVote = false → m.term = n.term
  requestVote : m.type = .requestVote → n.votedFor = n.id
  granted : m.type = .requestVoteResponse → m.reject = false → m.dst = n.votedFor ∧ m.dst ≠ 0
  context : m.type = .append → m.context = 0 ∨ op = .startReadIndex m.context
  /-- A follower acknowledges what it has, to the leader that sent it. -/
  stored : m.type = .appendResponse → m.reject = false → m.matchIndex ≤ n.lastIndex ∧
    ∃ q, op = .step q ∧ q.type = .append ∧ q.src = m.dst ∧ q.term = m.term ∧ q.context = m.context
  installed : m.type = .installSnapshotResponse → m.reject = false → m.matchIndex = n.baseIndex
  dst : n.Addresses op m.dst
  entry : m.hasEntry = true → m.entry ∈ n.log

/-- One effect of the method `op`, which began at `n₀`. -/
inductive Effect (op : Op) (n₀ : Node σ) : Node σ → Node σ → Prop
  | volatile {n n' : Node σ} (h : Frame n n')
      (hc : SameConfig n n' ∨ (∃ e ∈ n.log, e.isConfig = true) ∨ ∃ voters, op = .proposeJoint voters) :
      Effect op n₀ n n'
  | lead {n : Node σ} (h : n.state = .candidate) :
      Effect op n₀ n { n with state := .leader, leader := n.id, elapsed := 0 }
  | send {n : Node σ} {m : Message} (h : n.MaySend op m) :
      Effect op n₀ n (n.enqueue m)
  | persist {n n' : Node σ} {h : HardState} {s : σ} (hr : n.faulted = false) (hp : Persist op n h n')
      (hs : StableStore.saveHardState h n.store = .ok () s) : Effect op n₀ n { n' with store := s }
  | persistError {n n' : Node σ} {h : HardState} {e : StorageError} {s : σ} (hp : Persist op n h n')
      (hs : StableStore.saveHardState h n.store = .error e s) :
      Effect op n₀ n ({ n with store := s }.fail (some e))
  | append {n : Node σ} {k : Nat} {e : Entry} {s : σ} (hr : n.faulted = false) (he : Extend op n₀ n k e)
      (hs : StableStore.append k e n.store = .ok () s) :
      Effect op n₀ n { n with store := s, log := n.extend k e }
  | appendError {n n' : Node σ} {k : Nat} {e : Entry} {err : StorageError} {s : σ}
      (he : Extend op n₀ n k e) (hs : StableStore.append k e n.store = .error err s)
      (hn : Volatile { n with store := s, log := n.log.take (k - n.baseIndex) } n') :
      Effect op n₀ n (n'.fail (some err))
  | save {n n' : Node σ} {snapshot : Snapshot} {s s' : σ} (hp : Save op n₀ n snapshot n')
      (hs : StableStore.saveSnapshot snapshot n.store = .ok () s)
      (hs' : StableStore.compactLog snapshot.lastIndex s = .ok () s') :
      Effect op n₀ n { n' with store := s' }
  | saveError {n n' : Node σ} {snapshot : Snapshot} {e : StorageError} {s : σ}
      (hp : Save op n₀ n snapshot n') (hs : StableStore.saveSnapshot snapshot n.store = .error e s) :
      Effect op n₀ n ({ n with store := s }.fail (some e))
  | compactError {n n' : Node σ} {snapshot : Snapshot} {e : StorageError} {s s' : σ}
      (hp : Save op n₀ n snapshot n') (hs : StableStore.saveSnapshot snapshot n.store = .ok () s)
      (hs' : StableStore.compactLog snapshot.lastIndex s = .error e s') :
      Effect op n₀ n ({ n with store := s' }.fail (some e))
  | noSnapshotStore {n n' : Node σ} {snapshot : Snapshot} (hp : Save op n₀ n snapshot n')
      (hs : StableStore.isSnapshotStore σ = false) : Effect op n₀ n (n.fail none)
  | read {n : Node σ} {context : UInt64} {bit : Mask} {ready : Bool}
      (hop : op = .startReadIndex context) (hl : n.state = .leader) (hf : n.faulted = false)
      (hc : context ≠ 0) (hbit : nodeBit n.id = .ok bit) (hq : n.quorumMask bit = .ok ready)
      (ht : n.termAt n.commit = some n.term ∨ ready = true) :
      Effect op n₀ n { n with
        readContext := context, readAckMask := bit, readReady := ready
        readIndex := if ready then n.commit else n.readIndex }
  | readAck {n : Node σ} {m : Message} {bit : Mask} (hop : op = .step m) (hl : n.state = .leader)
      (ht : m.type = .appendResponse ∧ m.term = n.term ∧ m.reject = false)
      (hc : m.context ≠ 0 ∧ m.context = n.readContext)
      (hvoter : n.isVoter m.src = .ok true) (hbit : nodeBit m.src = .ok bit) :
      Effect op n₀ n { n with readAckMask := n.readAckMask ||| bit }
  | readReady {n : Node σ} {m : Message} (hop : op = .step m) (hl : n.state = .leader)
      (ht : m.type = .appendResponse ∧ m.term = n.term ∧ m.reject = false)
      (hc : m.context ≠ 0 ∧ m.context = n.readContext)
      (hq : n.quorumMask n.readAckMask = .ok true) :
      Effect op n₀ n { n with readIndex := n.commit, readReady := true }
  | apply {n : Node σ} (hop : op = .applyEntries) (ha : n.applied < n.commit) :
      Effect op n₀ n { n with applied := n.applied + 1 }

theorem Effect.of_volatile {op : Op} {n₀ n n' : Node σ} (h : Volatile n n') : Effect op n₀ n n' :=
  .volatile h.toFrame (h.config.imp_right .inl)

/-! ## Rules -/

variable {op : Op} {n₀ n : Node σ} {α β : Type}

/-- A run of `x` from `n` is a sequence of effects of `op`. -/
abbrev Eff (op : Op) (n₀ : Node σ) (x : NodeM σ α) (n : Node σ) (Q : α → Node σ → Prop) : Prop :=
  Sim (Effect op n₀) (fun _ _ => True) n x n fun a w n' => w = n' ∧ Q a n'

/-- Messages are sent, and the next indexes move. -/
def Casting (n n' : Node σ) : Prop :=
  ∃ next out enq, n' = { n with next := next, outbound := out, enqueued := enq }

omit [StableStore σ] in
theorem Casting.refl (n : Node σ) : Casting n n := ⟨_, _, _, rfl⟩

omit [StableStore σ] in
theorem Casting.trans {n n' n'' : Node σ} (h : Casting n n') (h' : Casting n' n'') : Casting n n'' := by
  obtain ⟨next, out, enq, rfl⟩ := h
  obtain ⟨next', out', enq', rfl⟩ := h'
  exact ⟨next', out', enq', rfl⟩

omit [StableStore σ] in
theorem Since.refl (n : Node σ) : Since n n := ⟨Nat.le_refl _, rfl, rfl, rfl, rfl⟩

omit [StableStore σ] in
theorem Since.lastIndex (h : Since n₀ n) : n.lastIndex = n₀.lastIndex := by
  rw [Node.lastIndex, Node.lastIndex, h.log, h.baseIndex]

omit [StableStore σ] in
theorem Since.takesSnapshot {m : Message} (h : Since n₀ n) (htype : m.type = .installSnapshot)
    (hm : n.rejectsSnapshot m = false) (hb : n.baseIndex < m.snapshotIndex) :
    n₀.TakesSnapshot m := by
  simp only [Node.rejectsSnapshot, Bool.or_eq_false_iff, decide_eq_false_iff_not, Nat.not_lt,
    beq_eq_false_iff_ne] at hm
  exact ⟨htype, h.term.trans hm.1.1.1, h.baseIndex ▸ hb, hm.1.2⟩

omit [StableStore σ] in
theorem Since.termAt (h : Since n₀ n) (k : Nat) : n.termAt k = n₀.termAt k := by
  rw [Node.termAt, Node.termAt, Node.entryAt?, Node.entryAt?, Node.offset, Node.offset, h.lastIndex,
    h.baseIndex, h.log]

omit [StableStore σ] in
/-- A snapshot that a node accepts in the middle of a method was acceptable from the start. -/
theorem Since.rejectsSnapshot {m : Message} (h : Since n₀ n)
    (hm : n.rejectsSnapshot m = false) (hb : n.baseIndex < m.snapshotIndex) :
    n₀.rejectsSnapshot m = false := by
  have ht := h.term
  have hbase := h.baseIndex
  simp only [Node.rejectsSnapshot, Bool.or_eq_false_iff, decide_eq_false_iff_not,
    Bool.and_eq_false_iff, beq_eq_false_iff_ne] at hm ⊢
  obtain ⟨⟨⟨h₁, h₂⟩, h₃⟩, -⟩ := hm
  exact ⟨⟨⟨by omega, by omega⟩, h₃⟩, .inl (by omega)⟩

omit [StableStore σ] in
theorem Frame.since {n n' : Node σ} (h : Frame n n') (hs : Since n₀ n) : Since n₀ n' :=
  ⟨hs.term.trans (Nat.le_of_eq h.term.symm), h.log.trans hs.log, h.baseIndex.trans hs.baseIndex,
    h.commit.trans hs.commit, h.applied.trans hs.applied⟩

omit [StableStore σ] in
theorem Casting.since {n n' : Node σ} (h : Casting n n') (hs : Since n₀ n) : Since n₀ n' := by
  obtain ⟨next, out, enq, rfl⟩ := h
  exact ⟨hs.term, hs.log, hs.baseIndex, hs.commit, hs.applied⟩

/-! ## What effects keep -/

omit [StableStore σ] in
theorem Node.termAt_range {k t : Nat} (h : n.termAt k = some t) : n.baseIndex ≤ k ∧ k ≤ n.lastIndex := by
  rw [Node.termAt, Node.entryAt?, Node.offset] at h
  split at h
  · cases h
  · omega

omit [StableStore σ] in
/-- The log above a snapshot is not empty. -/
theorem Node.logAbove_ne_nil (snapshot : Snapshot) : n.logAbove snapshot ≠ [] := by
  unfold Node.logAbove
  split
  · rename_i ht
    obtain ⟨hb, hl⟩ := Node.termAt_range ht
    intro hnil
    have := List.drop_eq_nil_iff.mp hnil
    rw [Node.termAt, Node.entryAt?, Node.offset, if_neg (by omega), Option.bind_some,
      List.getElem?_eq_none this] at ht
    cases ht
  · exact List.cons_ne_nil _ _

/-- A node that has not lost its base, and does not lead after it stopped. -/
structure Sane (n : Node σ) : Prop where
  log : n.log ≠ []
  stopped : n.faulted = true → n.state = .follower

omit [StableStore σ] in
theorem Extend.range {k : Nat} {e : Entry} (he : Extend op n₀ n k e) (hlog : n.log ≠ []) :
    n.baseIndex < k ∧ k ≤ n.lastIndex + 1 := by
  have hpos := List.length_pos_of_ne_nil hlog
  cases he with
  | last => exact ⟨by unfold Node.lastIndex; omega, Nat.le_refl _⟩
  | conflict _ _ _ _ hprev _ hat _ =>
    have := (Node.termAt_range hprev).1
    have := (Node.termAt_range hat).2
    omega

omit [StableStore σ] in
theorem Save.log_ne_nil {n' : Node σ} {snapshot : Snapshot} (hp : Save op n₀ n snapshot n') :
    n'.log ≠ [] := by
  cases hp with
  | own _ _ _ _ ht =>
    intro hnil
    have := List.drop_eq_nil_iff.mp hnil
    obtain ⟨hb, hl⟩ := Node.termAt_range ht
    rw [Node.termAt, Node.entryAt?, Node.offset, if_neg (by omega), Option.bind_some,
      List.getElem?_eq_none this] at ht
    cases ht
  | install => exact Node.logAbove_ne_nil _

theorem Sane.effect {n' : Node σ} (h : Sane n) (he : Effect op n₀ n n') : Sane n' := by
  cases he with
  | volatile hv _ =>
    refine ⟨by rw [hv.log]; exact h.log, fun hf => ?_⟩
    rcases hv.state with hs | hs
    · exact hs.trans (h.stopped (hv.faulted ▸ hf))
    · exact hs
  | lead hc => exact ⟨h.log, fun hf => by cases (h.stopped hf).symm.trans hc⟩
  | send hm => exact ⟨h.log, h.stopped⟩
  | persist hr hp hs =>
    have hf : n.faulted = true → False := fun hf => by cases hr.symm.trans hf
    cases hp with
    | newTerm => exact ⟨h.log, fun _ => rfl⟩
    | campaign => exact ⟨h.log, fun hf' => (hf hf').elim⟩
    | vote => exact ⟨h.log, h.stopped⟩
    | commit => exact ⟨h.log, h.stopped⟩
  | append hr he hs =>
    exact ⟨List.append_ne_nil_of_right_ne_nil _ (List.cons_ne_nil _ _), h.stopped⟩
  | appendError he hs hn =>
    obtain ⟨hb, -⟩ := he.range h.log
    have hpos := List.length_pos_of_ne_nil h.log
    refine ⟨fun hnil => ?_, fun _ => rfl⟩
    have hlen : (n.log.take _).length = 0 := congrArg List.length (hn.log.symm.trans hnil)
    rw [List.length_take] at hlen
    omega
  | save hp hs hs' =>
    refine ⟨hp.log_ne_nil, ?_⟩
    cases hp with
    | own => exact h.stopped
    | install => exact h.stopped
  | persistError | saveError | compactError | noSnapshotStore => exact ⟨h.log, fun _ => rfl⟩
  | read | readAck | readReady | apply => exact ⟨h.log, h.stopped⟩

end

end Promtact.Raft
