import Promtact.Raft.Changes.Config

/-!
# What a method of a node does, field by field

`Change op` refines `Effect op`: one change of the method `op` with everything that the code has
checked before it, and with the node that it leaves. The methods are sequences of changes
(`Op.changes` in `Promtact.Raft.Changes.Methods`), so an invariant of a node that depends on its
peers, its progress, its pending configuration or its pre-votes is proved with one case per change.

`Acts P` is the triple for that. A check that fails is a panic, and `P` holds then: with `P :=
False` a method does not panic. `Left` is what a panic leaves in the store. `Fit P` is what the
checks need, and every change keeps it; `Room P k` says that `k` more messages fit into the outbound
buffer.
-/

namespace Promtact.Raft

open Refine

variable {σ : Type}

/-- Every peer starts behind the whole log. -/
def Node.track (n : Node σ) : Node σ :=
  n.peers.foldl (fun m p => (m.setNext p (n.lastIndex + 1)).setMatch p 0) n

/-- The log before an entry of another term at `index`, or the whole log if it ends there. -/
def Node.trim (n : Node σ) (index : Nat) : Node σ := if index ≤ n.lastIndex then n.cut index else n

/-- The entry is at the end of the log. -/
def Node.stored (n : Node σ) (index : Nat) (entry : Entry) (store : σ) : Node σ :=
  { n with store, log := n.log ++ [entry] }.note index entry

/-- The methods in which a node can become the leader. -/
def Op.Elects : Op → Prop
  | .tick => True
  | .step m => m.type = .preVoteResponse ∨ m.type = .requestVoteResponse ∨ m.type = .timeoutNow
  | _ => False

section

variable [StableStore σ]

/-- Why a node starts an election. -/
inductive Campaigns (op : Op) (n : Node σ) : Prop
  | timeoutNow {m : Message} (hop : op = .step m) (htype : m.type = .timeoutNow)
      (hstate : n.state = .follower) (hterm : m.term = n.term) (hsrc : m.src = n.leader) :
      Campaigns op n
  | preVoted (hop : op = .tick ∨ ∃ m, op = .step m ∧ m.type = .preVoteResponse)
      (hterm : n.preVoteTerm = n.term + 1) (hq : n.quorumMask n.preVoteMask = .ok true)
      (hl : n.state ≠ .leader) : Campaigns op n

/-- The command that a method proposes. -/
def Op.Commands (term : Nat) (e : Entry) : Op → Prop
  | .propose command => e = { term, command }
  | .proposeRequest operation clientID requestID key value =>
    e = { term, operation, clientID, requestID, key, value }
  | _ => False

theorem Op.Commands.kind {op : Op} {term : Nat} {e : Entry} (h : op.Commands term e) :
    e.kind = .normal := by
  cases op with
  | propose | proposeRequest =>
    cases h
    rfl
  | _ => exact h.elim

/-- What a leader appends. -/
inductive Proposes (op : Op) (n : Node σ) : Entry → Prop
  | noop : Proposes op n { term := n.term, kind := .noop }
  | command {e : Entry} (h : op.Commands n.term e) : Proposes op n e
  | joint {voters : List Nat} {mask : Mask} (hop : op = .proposeJoint voters)
      (hmask : voterMask voters = .ok (some mask)) (hnew : n.votersNew = 0) (hp : n.pendingConfig = 0)
      (hpeers : ∀ id, Mem id mask → id = n.id ∨ id ∈ n.peers) :
      Proposes op n { term := n.term, kind := .jointConfig, oldVoters := n.votersOld, newVoters := mask }
  | final (hop : op = .proposeFinal) (hnew : n.votersNew ≠ 0) (hp : n.pendingConfig = 0) :
      Proposes op n { term := n.term, kind := .finalConfig, oldVoters := n.votersNew }

/-- The configuration that the method proposes is committed by the node alone. -/
inductive Alone (op : Op) (n₀ : Node σ) : Prop
  | intro {n : Node σ} {e : Entry} {s : σ} (hl : n₀.state = .leader) (hn : Since n₀ n) (hid : n.id = n₀.id)
      (hold : n.votersOld = n₀.votersOld) (hnew : n.votersNew = n₀.votersNew)
      (hp : n.pendingConfig = n₀.pendingConfig) (he : Proposes op n e) (hc : e.isConfig = true)
      (hq : Node.quorumMask { n with store := s, log := n.log ++ [e] } (bit n.id) = .ok true) :
      Alone op n₀

/-- How a leader follows the progress of its peers. -/
inductive Tracks (op : Op) (n : Node σ) : Node σ → Prop
  | start : Tracks op n n.track
  | clamp {p : Nat} (h : n.lastIndex + 1 < n.next p) : Tracks op n (n.setNext p (n.lastIndex + 1))
  | back {m : Message} (hop : op = .step m) (htype : m.type = .appendResponse)
      (hl : n.state = .leader) (hterm : m.term = n.term) (hreject : m.reject = true)
      (h : 1 < n.next m.src) : Tracks op n (n.setNext m.src (n.next m.src - 1))
  | ack {m : Message} (hop : op = .step m) (htype : m.type = .appendResponse)
      (hl : n.state = .leader) (hterm : m.term = n.term) (hreject : m.reject = false)
      (h : m.matchIndex ≤ n.lastIndex) :
      Tracks op n ((n.setMatch m.src m.matchIndex).setNext m.src (m.matchIndex + 1))
  | snapshotAck {m : Message} (hop : op = .step m) (htype : m.type = .installSnapshotResponse)
      (hl : n.state = .leader) (hterm : m.term = n.term) (hreject : m.reject = false)
      (hvoter : n.isVoter m.src = .ok true) (h : n.matchIdx m.src < m.matchIndex) :
      Tracks op n ((n.setMatch m.src m.matchIndex).setNext m.src (m.matchIndex + 1))

/-- The append that a follower has accepted, up to its entry. -/
structure Accepts (op : Op) (n₀ n : Node σ) (m : Message) : Prop where
  since : Since n₀ n
  op : op = .step m
  type : m.type = .append
  entry : m.hasEntry = true
  prev : n.termAt m.logIndex = some m.logTerm
  term : ¬ m.term < n.term
  state : n.state = .follower
  /-- The entry is the next one, or it replaces one of another term. -/
  place : m.logIndex = n.lastIndex ∧ n.validNewEntry m.entry = true ∨
    ∃ t, n.termAt (m.logIndex + 1) = some t ∧ t ≠ m.entry.term

/-- One change of the method `op`, which began at `n₀`. -/
inductive Change (op : Op) (n₀ : Node σ) : Node σ → Node σ → Prop
  | wait {n : Node σ} (elapsed : Nat) : Change op n₀ n { n with elapsed := elapsed }
  | follow {n : Node σ} {m : Message} (hop : op = .step m)
      (htype : m.type = .append ∨ m.type = .installSnapshot ∧ m.snapshotOld ≠ 0)
      (hterm : m.term = n.term) :
      Change op n₀ n { n with state := .follower, leader := m.src, elapsed := 0 }
  | preVote {n : Node σ} {bit : Mask} (hop : op = .tick) (hl : n.state ≠ .leader)
      (hbit : nodeBit n.id = .ok bit) :
      Change op n₀ n { n with
        elapsed := 0, preVoteTerm := n.term + 1, leader := 0, preVoteMask := bit }
  | preVoteAck {n : Node σ} {m : Message} {bit : Mask} (hop : op = .step m)
      (htype : m.type = .preVoteResponse) (hl : n.state ≠ .leader)
      (hvoter : n.isVoter m.src = .ok true) (hterm : m.term = n.term + 1)
      (hpre : m.term = n.preVoteTerm) (hreject : m.reject = false) (hbit : nodeBit m.src = .ok bit) :
      Change op n₀ n { n with preVoteMask := n.preVoteMask ||| bit }
  | voteAck {n : Node σ} {m : Message} {bit : Mask} (hop : op = .step m)
      (htype : m.type = .requestVoteResponse) (hc : n.state = .candidate)
      (hvoter : n.isVoter m.src = .ok true) (hterm : m.term = n.term) (hreject : m.reject = false)
      (hbit : nodeBit m.src = .ok bit) : Change op n₀ n { n with voteMask := n.voteMask ||| bit }
  | lead {n : Node σ} (hop : op.Elects) (hc : n.state = .candidate)
      (hq : n.quorumMask n.voteMask = .ok true) :
      Change op n₀ n { n with state := .leader, leader := n.id, elapsed := 0 }
  | track {n n' : Node σ} (h : Tracks op n n') : Change op n₀ n n'
  | send {n : Node σ} {m : Message} (h : n.MaySend op m) : Change op n₀ n (n.enqueue m)
  | ensure {n : Node σ} {voters : List Nat} (hop : op = .proposeJoint voters) (mask : Mask) :
      Change op n₀ n (n.ensurePeers mask)
  | newTerm {n : Node σ} {m : Message} {s : σ} (hr : n.faulted = false) (hop : op = .step m)
      (htype : m.type.isPreVote = false) (ht : n.term < m.term)
      (hs : StableStore.saveHardState { term := m.term, commit := n.commit } n.store = .ok () s) :
      Change op n₀ n { n with
        state := .follower, term := m.term, votedFor := 0, leader := 0, readReady := false, store := s }
  | campaign {n : Node σ} {bit : Mask} {s : σ} (hr : n.faulted = false) (hwhy : Campaigns op n)
      (hbit : nodeBit n.id = .ok bit)
      (hs : StableStore.saveHardState { term := n.term + 1, votedFor := n.id, commit := n.commit }
        n.store = .ok () s) :
      Change op n₀ n { n with
        state := .candidate, term := n.term + 1, votedFor := n.id, elapsed := 0
        voteMask := bit, preVoteMask := 0, store := s }
  | vote {n : Node σ} {m : Message} {s : σ} (hr : n.faulted = false) (hop : op = .step m)
      (htype : m.type = .requestVote) (hterm : m.term = n.term)
      (hv : n.votedFor = 0 ∨ n.votedFor = m.src) (hvoter : n.isVoter m.src = .ok true)
      (hs : StableStore.saveHardState { term := n.term, votedFor := m.src, commit := n.commit }
        n.store = .ok () s) :
      Change op n₀ n { n with votedFor := m.src, elapsed := 0, store := s }
  | commit {n : Node σ} {k : Nat} {s : σ} (hr : n.faulted = false) (hk : k ≤ n.lastIndex)
      (hc : n.commit < k ∨ k = n.lastIndex)
      (hs : StableStore.saveHardState (n.hardState k) n.store = .ok () s) :
      Change op n₀ n ({ n with commit := k, store := s }.settle (n.commit + 1) k)
  | persistError {n n' : Node σ} {h : HardState} {e : StorageError} {s : σ} (hp : Persist op n h n')
      (hs : StableStore.saveHardState h n.store = .error e s) :
      Change op n₀ n ({ n with store := s }.fail (some e))
  | append {n : Node σ} {e : Entry} {s : σ} (hr : n.faulted = false) (hl : n.state = .leader)
      (hn : Since n₀ n) (he : Proposes op n e)
      (halone : e.isConfig = true → Alone op n₀)
      (hs : StableStore.append (n.lastIndex + 1) e n.store = .ok () s) :
      Change op n₀ n { n with store := s, log := n.log ++ [e] }
  | propose {n : Node σ} {e : Entry} {s : σ} (hr : n.faulted = false) (hl : n.state = .leader)
      (hn : Since n₀ n) (he : Proposes op n e) (hc : e.isConfig = true)
      (hs : StableStore.append (n.lastIndex + 1) e n.store = .ok () s) :
      Change op n₀ n { n with store := s, log := n.log ++ [e], pendingConfig := n.lastIndex + 1 }
  | appendError {n : Node σ} {e : Entry} {err : StorageError} {s : σ} (hn : Since n₀ n)
      (hs : StableStore.append (n.lastIndex + 1) e n.store = .error err s) :
      Change op n₀ n ({ n with store := s }.fail (some err))
  /-- A single voter has committed its own proposal, and then notes it as pending. -/
  | pending {n : Node σ} (h : Alone op n₀) :
      Change op n₀ n { n with pendingConfig := n.lastIndex }
  | store {n : Node σ} {m : Message} {s : σ} (hr : n.faulted = false) (hm : Accepts op n₀ n m)
      (hs : StableStore.append (m.logIndex + 1) m.entry n.store = .ok () s) :
      Change op n₀ n ((n.trim (m.logIndex + 1)).stored (m.logIndex + 1) m.entry s)
  | storeError {n : Node σ} {m : Message} {err : StorageError} {s : σ} (hm : Accepts op n₀ n m)
      (hs : StableStore.append (m.logIndex + 1) m.entry n.store = .error err s) :
      Change op n₀ n ({ n.trim (m.logIndex + 1) with store := s }.fail (some err))
  | save {n n' : Node σ} {snapshot : Snapshot} {s s' : σ} (hp : Save op n₀ n snapshot n')
      (hs : StableStore.saveSnapshot snapshot n.store = .ok () s)
      (hs' : StableStore.compactLog snapshot.lastIndex s = .ok () s') :
      Change op n₀ n { n' with store := s' }
  | saveError {n n' : Node σ} {snapshot : Snapshot} {e : StorageError} {s : σ}
      (hp : Save op n₀ n snapshot n') (hs : StableStore.saveSnapshot snapshot n.store = .error e s) :
      Change op n₀ n ({ n with store := s }.fail (some e))
  | compactError {n n' : Node σ} {snapshot : Snapshot} {e : StorageError} {s s' : σ}
      (hp : Save op n₀ n snapshot n') (hs : StableStore.saveSnapshot snapshot n.store = .ok () s)
      (hs' : StableStore.compactLog snapshot.lastIndex s = .error e s') :
      Change op n₀ n ({ n with store := s' }.fail (some e))
  | noSnapshotStore {n n' : Node σ} {snapshot : Snapshot} (hp : Save op n₀ n snapshot n')
      (hs : StableStore.isSnapshotStore σ = false) : Change op n₀ n (n.fail none)
  | read {n : Node σ} {context : UInt64} {bit : Mask} {ready : Bool}
      (hop : op = .startReadIndex context) (hl : n.state = .leader) (hf : n.faulted = false)
      (hc : context ≠ 0) (hbit : nodeBit n.id = .ok bit) (hq : n.quorumMask bit = .ok ready)
      (ht : n.termAt n.commit = some n.term ∨ ready = true) :
      Change op n₀ n { n with
        readContext := context, readAckMask := bit, readReady := ready
        readIndex := if ready then n.commit else n.readIndex }
  | readAck {n : Node σ} {m : Message} {bit : Mask} (hop : op = .step m) (hl : n.state = .leader)
      (ht : m.type = .appendResponse ∧ m.term = n.term ∧ m.reject = false)
      (hc : m.context ≠ 0 ∧ m.context = n.readContext)
      (hvoter : n.isVoter m.src = .ok true) (hbit : nodeBit m.src = .ok bit) (hn : n = n₀) :
      Change op n₀ n { n with readAckMask := n.readAckMask ||| bit }
  | readReady {n : Node σ} {m : Message} (hop : op = .step m) (hl : n.state = .leader)
      (ht : m.type = .appendResponse ∧ m.term = n.term ∧ m.reject = false)
      (hc : m.context ≠ 0 ∧ m.context = n.readContext)
      (hq : n.quorumMask n.readAckMask = .ok true)
      (hn : n = { n₀ with readAckMask := n.readAckMask }) :
      Change op n₀ n { n with readIndex := n.commit, readReady := true }
  | apply {n : Node σ} (hop : op = .applyEntries) (ha : n.applied < n.commit) :
      Change op n₀ n { n with applied := n.applied + 1 }

/-! ## Changes are effects -/

variable {op : Op} {n₀ n n' : Node σ}

omit [StableStore σ] in
theorem Node.extend_last (hlog : n.log ≠ []) (e : Entry) :
    n.extend (n.lastIndex + 1) e = n.log ++ [e] := by
  have := List.length_pos_of_ne_nil hlog
  rw [Node.extend, List.take_of_length_le (by unfold Node.lastIndex; omega)]

omit [StableStore σ] in
theorem Node.take_last (hlog : n.log ≠ []) : n.log.take (n.lastIndex + 1 - n.baseIndex) = n.log := by
  have := List.length_pos_of_ne_nil hlog
  exact List.take_of_length_le (by unfold Node.lastIndex; omega)

omit [StableStore σ] in
theorem Node.track_eq (n : Node σ) :
    ∃ next mtch, n.track = { n with next := next, matchIdx := mtch } := by
  suffices ∀ (ps : List Nat) (m : Node σ), ∃ next mtch,
      ps.foldl (fun m p => (m.setNext p (n.lastIndex + 1)).setMatch p 0) m =
        { m with next := next, matchIdx := mtch } from this _ n
  intro ps
  induction ps with
  | nil => exact fun m => ⟨_, _, rfl⟩
  | cons p ps ih =>
    intro m
    obtain ⟨next, mtch, heq⟩ := ih ((m.setNext p (n.lastIndex + 1)).setMatch p 0)
    exact ⟨next, mtch, heq⟩

omit [StableStore σ] in
theorem Volatile.track (n : Node σ) : Volatile n n.track := by
  obtain ⟨next, mtch, heq⟩ := n.track_eq
  rw [heq]
  exact ⟨⟨rfl, .inl rfl, .inl rfl⟩, .inl ⟨rfl, rfl, rfl⟩⟩

omit [StableStore σ] in
theorem Tracks.volatile (h : Tracks op n n') : Volatile n n' := by
  cases h with
  | start => exact .track n
  | clamp | back | ack | snapshotAck => exact ⟨⟨rfl, .inl rfl, .inl rfl⟩, .inl ⟨rfl, rfl, rfl⟩⟩

omit [StableStore σ] in
theorem Accepts.extend {m : Message} (h : Accepts op n₀ n m) :
    Extend op n₀ n (m.logIndex + 1) m.entry := by
  rcases h.place with ⟨hlast, -⟩ | ⟨t, hat, hne⟩
  · rw [hlast]
    exact .last h.since _
  · exact .conflict h.since h.op h.type h.entry h.prev h.term hat hne

omit [StableStore σ] in
/-- What is cut off is in memory only. -/
theorem Accepts.trim {m : Message} (h : Accepts op n₀ n m) (hlog : n.log ≠ []) :
    Volatile { n with log := n.log.take (m.logIndex + 1 - n.baseIndex) } (n.trim (m.logIndex + 1)) := by
  unfold Node.trim
  split
  · exact .rebuild _
  · rename_i hlast
    have heq : m.logIndex = n.lastIndex := by
      have := (Node.termAt_range h.prev).2
      omega
    rw [heq, Node.take_last hlog]
    exact .refl n

omit [StableStore σ] in
theorem Accepts.stored {m : Message} (h : Accepts op n₀ n m) (hlog : n.log ≠ []) (s : σ) :
    Volatile { n with store := s, log := n.extend (m.logIndex + 1) m.entry }
      ((n.trim (m.logIndex + 1)).stored (m.logIndex + 1) m.entry s) := by
  have hv := h.trim hlog
  have hv' : Volatile { n with store := s, log := n.extend (m.logIndex + 1) m.entry }
      { n.trim (m.logIndex + 1) with
        store := s, log := (n.trim (m.logIndex + 1)).log ++ [m.entry] } := by
    rw [Node.extend, hv.log]
    exact hv.withLog (fun e he => List.mem_append_left _ he) s
  exact hv'.trans (.note (List.mem_append_right _ List.mem_cons_self) _)

/-- A change is an effect, or an effect and what follows it in memory. -/
theorem Change.effects (h : Change op n₀ n n') (hlog : n.log ≠ []) :
    Relation.ReflTransGen (Effect op n₀) n n' := by
  have hvol : ∀ {n₁ n₂ : Node σ}, Volatile n₁ n₂ → Relation.ReflTransGen (Effect op n₀) n₁ n₂ :=
    fun h => .single (.of_volatile h)
  have hsame : ∀ {n₁ n₂ : Node σ}, Frame n₁ n₂ → SameConfig n₁ n₂ →
      Relation.ReflTransGen (Effect op n₀) n₁ n₂ := fun h hc => hvol ⟨h, .inl hc⟩
  cases h with
  | wait => exact hsame ⟨rfl, .inl rfl, .inl rfl⟩ ⟨rfl, rfl, rfl⟩
  | follow => exact hsame ⟨rfl, .inr rfl, .inl rfl⟩ ⟨rfl, rfl, rfl⟩
  | preVote => exact hsame ⟨rfl, .inl rfl, .inl rfl⟩ ⟨rfl, rfl, rfl⟩
  | preVoteAck => exact hsame ⟨rfl, .inl rfl, .inl rfl⟩ ⟨rfl, rfl, rfl⟩
  | voteAck => exact hsame ⟨rfl, .inl rfl, .inl rfl⟩ ⟨rfl, rfl, rfl⟩
  | pending => exact hsame ⟨rfl, .inl rfl, .inl rfl⟩ ⟨rfl, rfl, rfl⟩
  | lead hop hc hq => exact .single (.lead hc)
  | track h => exact hvol h.volatile
  | send h => exact .single (.send h)
  | ensure hop mask => exact .single (.volatile (.ensurePeers n mask) (.inr (.inr ⟨_, hop⟩)))
  | newTerm hr hop htype ht hs => exact .single (.persist hr (.newTerm hop ht) hs)
  | campaign hr hwhy hbit hs => exact .single (.persist hr (.campaign _) hs)
  | vote hr hop htype hterm hv hvoter hs => exact .single (.persist hr (.vote hop hv hvoter) hs)
  | commit hr hk hc hs =>
    exact .head (.persist hr (.commit hk hc) hs) (hvol (.settle _ _ _))
  | persistError hp hs => exact .single (.persistError hp hs)
  | append hr hl hn he halone hs =>
    have happ : Effect op n₀ n _ := .append hr (.last hn _) hs
    rw [Node.extend_last hlog] at happ
    exact .single happ
  | propose hr hl hn he hc hs =>
    have happ : Effect op n₀ n _ := .append hr (.last hn _) hs
    rw [Node.extend_last hlog] at happ
    exact .head happ (hsame ⟨rfl, .inl rfl, .inl rfl⟩ ⟨rfl, rfl, rfl⟩)
  | appendError hn hs =>
    refine .single (.appendError (.last hn _) hs ?_)
    rw [Node.take_last hlog]
    exact .refl _
  | store hr hm hs => exact .head (.append hr hm.extend hs) (hvol (hm.stored hlog _))
  | storeError hm hs =>
    refine .single (.appendError hm.extend hs ?_)
    exact (hm.trim hlog).withStore _
  | save hp hs hs' => exact .single (.save hp hs hs')
  | saveError hp hs => exact .single (.saveError hp hs)
  | compactError hp hs hs' => exact .single (.compactError hp hs hs')
  | noSnapshotStore hp hs => exact .single (.noSnapshotStore hp hs)
  | read hop hl hf hc hbit hq ht => exact .single (.read hop hl hf hc hbit hq ht)
  | readAck hop hl ht hc hvoter hbit hn => exact .single (.readAck hop hl ht hc hvoter hbit)
  | readReady hop hl ht hc hq hn => exact .single (.readReady hop hl ht hc hq)
  | apply hop ha => exact .single (.apply hop ha)

/-! ## Rules -/

variable {P : Prop} {α β : Type}

/-- What the checks of the methods need of a node: its log has a base, and, unless `P`, the
identifiers are valid. -/
structure Fit (P : Prop) (n : Node σ) : Prop where
  log : n.log ≠ []
  ids : P ∨ n.ValidIds

omit [StableStore σ] in
theorem Fit.id (h : Fit P n) : P ∨ Valid n.id := h.ids.imp_right (·.id)

omit [StableStore σ] in
theorem Fit.withLog (h : Fit P n) (hlog : n'.log ≠ []) (hid : n'.id = n.id)
    (hpeers : n'.peers = n.peers) : Fit P n' :=
  ⟨hlog, h.ids.imp_right fun hv => ⟨hid ▸ hv.id, hpeers ▸ hv.peers, hpeers ▸ hv.nodup⟩⟩

omit [StableStore σ] in
theorem Fit.of_same (h : Fit P n) (hlog : n'.log = n.log) (hid : n'.id = n.id)
    (hpeers : n'.peers = n.peers) : Fit P n' := h.withLog (hlog ▸ h.log) hid hpeers

omit [StableStore σ] in
theorem Enlists.fit (h : Enlists n n') (hf : Fit P n) (hlog : n'.log ≠ []) : Fit P n' :=
  ⟨hlog, hf.ids.imp_right h.validIds⟩

omit [StableStore σ] in
theorem Enlists.trim (n : Node σ) {index : Nat} (hb : n.baseIndex < index) :
    Enlists { n with log := n.log.take (index - n.baseIndex) } (n.trim index) := by
  unfold Node.trim
  split
  · exact .rebuild _
  · rename_i hlast
    refine .of_same rfl ?_ rfl rfl rfl
    unfold Node.lastIndex at hlast ⊢
    dsimp only
    rw [List.length_take]
    omega

omit [StableStore σ] in
theorem Fit.trim (h : Fit P n) {index : Nat} (hb : n.baseIndex < index) : Fit P (n.trim index) := by
  have hne : n.log.take (index - n.baseIndex) ≠ [] := by
    have := List.length_pos_of_ne_nil h.log
    rw [← List.length_pos_iff, List.length_take]
    omega
  have hcut : Fit P { n with log := n.log.take (index - n.baseIndex) } := h.withLog hne rfl rfl
  unfold Node.trim
  split
  · exact (Enlists.rebuild _).fit hcut (by rw [(Volatile.rebuild _).log]; exact hne)
  · exact h

omit [StableStore σ] in
theorem Fit.stored (h : Fit P n) (index : Nat) (e : Entry) (s : σ) : Fit P (n.stored index e s) := by
  have hne : n.log ++ [e] ≠ [] := List.append_ne_nil_of_right_ne_nil _ (List.cons_ne_nil _ _)
  refine (Enlists.note _ index e).fit (h.withLog hne rfl rfl) ?_
  rw [(Volatile.note (List.mem_append_right _ List.mem_cons_self) index).log]
  exact hne

theorem Fit.change (h : Fit P n) (hc : Change op n₀ n n') : Fit P n' := by
  cases hc with
  | track ht =>
    cases ht with
    | start =>
      obtain ⟨next, mtch, heq⟩ := n.track_eq
      rw [heq]
      exact h.of_same rfl rfl rfl
    | clamp | back | ack | snapshotAck => exact h.of_same rfl rfl rfl
  | ensure hop mask =>
    exact (Enlists.ensurePeers n mask).fit h (by rw [(Frame.ensurePeers n mask).log]; exact h.log)
  | commit hr hk hc hs =>
    refine (Enlists.settle _ _ _).fit (h.of_same rfl rfl rfl) ?_
    rw [(Volatile.settle _ _ _).log]
    exact h.log
  | append | propose =>
    exact h.withLog (List.append_ne_nil_of_right_ne_nil _ (List.cons_ne_nil _ _)) rfl rfl
  | store hr hm hs =>
    exact (h.trim (by have := (Node.termAt_range hm.prev).1; omega)).stored _ _ _
  | storeError hm hs =>
    exact (h.trim (by have := (Node.termAt_range hm.prev).1; omega)).of_same rfl rfl rfl
  | save hp hs hs' =>
    have hlog := hp.log_ne_nil
    cases hp with
    | own => exact h.withLog hlog rfl rfl
    | install => exact h.withLog hlog rfl rfl
  | wait | follow | preVote | preVoteAck | voteAck | lead | send | newTerm | campaign | vote
  | persistError | appendError | pending | saveError | compactError | noSnapshotStore | read | readAck
  | readReady | apply => exact h.of_same rfl rfl rfl

theorem Change.running (h : Change op n₀ n n') (hf : n'.faulted = false) : n.faulted = false := by
  cases h with
  | track ht => exact ht.volatile.faulted ▸ hf
  | ensure hop mask => exact (Frame.ensurePeers n mask).faulted ▸ hf
  | commit hr | append hr | propose hr | store hr => exact hr
  | save hp =>
    cases hp with
    | own => exact hf
    | install => exact hf
  | persistError | appendError | storeError | saveError | compactError | noSnapshotStore => cases hf
  | wait | follow | preVote | preVoteAck | voteAck | lead | send | newTerm | campaign | vote | pending
  | read | readAck | readReady | apply => exact hf

/-- Peers are only added. -/
theorem Change.peers (h : Change op n₀ n n') : n'.id = n.id ∧ ∀ p ∈ n.peers, p ∈ n'.peers := by
  cases h with
  | track ht =>
    cases ht with
    | start =>
      obtain ⟨next, mtch, heq⟩ := n.track_eq
      rw [heq]
      exact ⟨rfl, fun _ hp => hp⟩
    | clamp | back | ack | snapshotAck => exact ⟨rfl, fun _ hp => hp⟩
  | ensure hop mask =>
    have he := Enlists.ensurePeers n mask
    exact ⟨he.id, he.kept⟩
  | @commit k s =>
    have he := Enlists.settle { n with commit := k, store := s } (n.commit + 1) k
    exact ⟨he.id, he.kept⟩
  | @store m s hr hm hs =>
    have htrim := Enlists.trim n (show n.baseIndex < m.logIndex + 1 from
      Nat.lt_succ_of_le (Node.termAt_range hm.prev).1)
    have hnote := Enlists.note { n.trim (m.logIndex + 1) with
      store := s, log := (n.trim (m.logIndex + 1)).log ++ [m.entry] } (m.logIndex + 1) m.entry
    exact ⟨hnote.id.trans htrim.id, fun p hp => hnote.kept p (htrim.kept p hp)⟩
  | @storeError m err s hm hs =>
    have htrim := Enlists.trim n (show n.baseIndex < m.logIndex + 1 from
      Nat.lt_succ_of_le (Node.termAt_range hm.prev).1)
    exact ⟨htrim.id, htrim.kept⟩
  | save hp =>
    cases hp with
    | own => exact ⟨rfl, fun _ hp => hp⟩
    | install => exact ⟨rfl, fun _ hp => hp⟩
  | _ => exact ⟨rfl, fun _ hp => hp⟩

/-- The store where a method panics after some changes: as they left it, or after a call of the
store whose change is not complete. -/
inductive Left (op : Op) (n : Node σ) : σ → Prop
  | same : Left op n n.store
  | saved {h : HardState} {s : σ} (hs : StableStore.saveHardState h n.store = .ok () s) : Left op n s
  | appended {index : Nat} {e : Entry} {s : σ} (he : Proposes op n e)
      (hs : StableStore.append index e n.store = .ok () s) : Left op n s

/-- A panic after the changes to `w`: `P` holds then. -/
def Panics (P : Prop) (op : Op) (w n : Node σ) : Prop := P ∧ Left op w n.store

/-- A run of `x` from `n` is a sequence of changes of `op`. If it panics, then `P`. -/
abbrev Acts (P : Prop) (op : Op) (n₀ : Node σ) (x : NodeM σ α) (n : Node σ) (Q : α → Node σ → Prop) :
    Prop :=
  Sim (Change op n₀) (Panics P op) n x n fun a w n' => w = n' ∧ Q a n'

namespace Acts

variable {x : NodeM σ α} {f : α → NodeM σ β} {Q : α → Node σ → Prop} {R : β → Node σ → Prop}

theorem ret {a : α} (h : Q a n) : Acts P op n₀ (pure a) n Q := Sim.ret ⟨rfl, h⟩

theorem seq (h : Acts P op n₀ x n Q) (hf : ∀ a n', Q a n' → Acts P op n₀ (f a) n' R) :
    Acts P op n₀ (x >>= f) n R := by
  refine Sim.seq h ?_
  rintro a _ n' - ⟨rfl, hq⟩
  exact hf a _ hq

theorem mono {Q' : α → Node σ → Prop} (h : Acts P op n₀ x n Q) (hq : ∀ a n', Q a n' → Q' a n') :
    Acts P op n₀ x n Q' :=
  Sim.mono h fun a _ n' _ hw => ⟨hw.1, hq a n' hw.2⟩

theorem get {g : Node σ → NodeM σ α} (h : Acts P op n₀ (g n) n Q) :
    Acts P op n₀ (MonadState.get >>= g) n Q :=
  Sim.seq_get h

/-- A check that passes, unless `P`. -/
theorem check {c : Except Panic β} {g : β → NodeM σ α} (hc : P ∨ ∃ b, c = .ok b)
    (h : ∀ b, c = .ok b → Acts P op n₀ (g b) n Q) : Acts P op n₀ (liftM c >>= g) n Q := by
  cases hx : c with
  | ok b => exact Sim.seq_check rfl (h b hx)
  | error e =>
    refine hc.elim (fun hp => ⟨n, .refl, hp, .same⟩) ?_
    rintro ⟨b, hb⟩
    cases hb.symm.trans hx

theorem update {g : Node σ → Node σ} {k : Unit → NodeM σ α} (h : Change op n₀ n (g n))
    (hk : Acts P op n₀ (k ()) (g n) Q) : Acts P op n₀ (modify g >>= k) n Q :=
  Sim.seq_update (Sim.step h hk)

/-- A message is sent if the buffer has room for it, unless `P`. -/
theorem send {m : Message} (h : n.MaySend op m) (hr : P ∨ n.outbound.length + 1 ≤ outboundCapacity) :
    Acts P op n₀ (Raft.send m) n fun _ n' => n' = n.enqueue m := by
  unfold Raft.send
  refine Acts.get (Sim.ite (fun hfull => ?_) fun _ => Sim.step (.send h) (Sim.update ⟨rfl, rfl⟩))
  exact Sim.fail ⟨hr.resolve_right (by omega), .same⟩

/-- A call of the store: it succeeds, or it stops the node. -/
theorem call {y : EStateM StorageError σ Unit} {g : Bool → NodeM σ α} {w : Node σ}
    (hok : ∀ s, y n.store = .ok () s →
      Sim (Change op n₀) (Panics P op) w (g true) { n with store := s } fun a w n' => w = n' ∧ Q a n')
    (herr : ∀ e s, y n.store = .error e s →
      Sim (Change op n₀) (Panics P op) w (g false) ({ n with store := s }.fail (some e))
        fun a w n' => w = n' ∧ Q a n') :
    Sim (Change op n₀) (Panics P op) w (callStoreOrFail y >>= g) n fun a w n' => w = n' ∧ Q a n' := by
  refine Sim.seq (Q := fun ok w' n' => w' = w ∧ if ok then
      ∃ s, y n.store = .ok () s ∧ n' = { n with store := s }
    else ∃ e s, y n.store = .error e s ∧ n' = { n with store := s }.fail (some e))
    (callStoreOrFail_sim ?_ ?_) ?_
  · exact fun s hs => ⟨w, .refl, rfl, s, hs, rfl⟩
  · exact fun e s hs => ⟨rfl, e, s, hs, rfl⟩
  · rintro ok w' n' - ⟨rfl, h⟩
    cases ok with
    | true =>
      obtain ⟨s, hs, rfl⟩ := h
      exact hok s hs
    | false =>
      obtain ⟨e, s, hs, rfl⟩ := h
      exact herr e s hs

/-- A hard state is saved. After that the node sets its fields. -/
theorem persist {h : HardState} {n₁ : Node σ} {g : Bool → NodeM σ α} (hp : Persist op n h n₁)
    (hok : ∀ s, StableStore.saveHardState h n.store = .ok () s →
      Sim (Change op n₀) (Panics P op) n (g true) { n with store := s } fun a w n' => w = n' ∧ Q a n')
    (herr : ∀ n', n'.state = .follower → Acts P op n₀ (g false) n' Q) :
    Acts P op n₀ (persistHardState h >>= g) n Q :=
  call hok fun _ _ hs => Sim.step (.persistError hp hs) (herr _ rfl)

end Acts

end

end Promtact.Raft
