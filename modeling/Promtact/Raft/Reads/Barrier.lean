import Promtact.Raft.Sanity

/-!
# Read barriers on one node (`StartReadIndex`, `ReadIndex`)

A leader starts a read with a context, sends the context with its appends, and counts the followers
that send it back. The read is ready when they are a quorum.

* `Echoes`: which messages may carry a context. An append carries the context of a read that its
  sender has started, and an answer that of the append it answers (`Echoes.send`).
* `Barrier.Stage`: how far one read has come on its node. `Barrier.Stage.change` is the case analysis
  over what a method does: the node counts the answers of its own term only, and a node that loses
  the leadership of that term does not take the read up again.
* `Apart`: nobody writes to itself, so a leader gets no append of its own term.
-/

namespace Promtact.Raft

open Refine Network

variable {σ : Type} {n n' n₀ : Node σ} {op : Op}

/-! ## What messages carry -/

/-- The appends of node `id` that carry the context were sent in a term with `A`, and the answers to
it in a term and by a node with `R`. -/
structure Echoes (id : Nat) (context : UInt64) (A : Nat → Prop) (R : Nat → Nat → Prop) (m : Message) :
    Prop where
  append : m.type = .append → m.src = id → m.context = context → A m.term
  answer : m.type = .appendResponse → m.dst = id → m.reject = false → m.context = context →
    R m.term m.src

section

variable {id : Nat} {context : UInt64} {A : Nat → Prop} {R : Nat → Nat → Prop}

theorem Echoes.mono {A' : Nat → Prop} {R' : Nat → Nat → Prop} {m : Message}
    (h : Echoes id context A R m) (hA : ∀ t, A t → A' t) (hR : ∀ t v, R t v → R' t v) :
    Echoes id context A' R' m :=
  ⟨fun h1 h2 h3 => hA _ (h.append h1 h2 h3), fun h1 h2 h3 h4 => hR _ _ (h.answer h1 h2 h3 h4)⟩

theorem Echoes.send [StableStore σ] {m : Message} (hm : n.MaySend op m) (hc : context ≠ 0)
    (hop : n.id = id → op = .startReadIndex context → A n.term)
    (hq : ∀ q, op = .step q → Echoes id context A R q) (hR : A n.term → R n.term n.id) :
    Echoes id context A R m where
  append htype hsrc hctx := by
    have hterm : m.term = n.term := hm.term (by rw [htype]; rfl)
    rcases hm.context htype with h0 | h0
    · exact absurd (hctx.symm.trans h0) hc
    · rw [hterm]
      exact hop (hm.src.symm.trans hsrc) (hctx ▸ h0)
  answer htype hdst hreject hctx := by
    obtain ⟨-, q, hstep, hqtype, hqsrc, hqterm, hqctx⟩ := hm.stored htype hreject
    have hA := (hq q hstep).append hqtype (hqsrc.trans hdst) (hqctx.trans hctx)
    have hterm : m.term = n.term := hm.term (by rw [htype]; rfl)
    rw [hqterm, hterm] at hA
    rw [hterm, hm.src]
    exact hR hA

/-- What a method leaves to send, it has found there or sends now. -/
theorem Change.sends [StableStore σ] (h : Change op n₀ n n') (hlog : n.log ≠ []) {m : Message}
    (hm : m ∈ n'.outbound) : m ∈ n.outbound ∨ n.MaySend op m := by
  cases h with
  | send h =>
    rcases List.mem_append.mp hm with hm | hm
    · exact .inl hm
    · rw [List.mem_singleton.mp hm]
      exact .inr h
  | track ht => exact .inl (ht.volatile.outbound ▸ hm)
  | ensure hop mask => exact .inl ((Frame.ensurePeers n mask).outbound ▸ hm)
  | commit hr hk hc hs => exact .inl (by rw [(Volatile.settle _ _ _).outbound] at hm; exact hm)
  | store hr ha hs => exact .inl (by rw [(ha.stored hlog _).outbound] at hm; exact hm)
  | save hp =>
    cases hp with
    | own => exact .inl hm
    | install => exact .inl hm
  | persistError | appendError | storeError | saveError | compactError | noSnapshotStore => cases hm
  | wait | follow | preVote | preVoteAck | voteAck | lead | newTerm | campaign | vote | pending
  | append | propose | read | readAck | readReady | apply => exact .inl hm

end

/-! ## Terms and roles -/

/-- The role stays with the read, or the node follows and its read is not ready. -/
def Yields (n n' : Node σ) : Prop :=
  n'.state = n.state ∧ n'.readReady = n.readReady ∨ n'.state = .follower ∧ n'.readReady = false

namespace Yields

theorem refl (n : Node σ) : Yields n n := .inl ⟨rfl, rfl⟩

theorem trans {n'' : Node σ} (h : Yields n n') (h' : Yields n' n'') : Yields n n'' := by
  rcases h' with ⟨hs, hr⟩ | h'
  · exact h.imp (fun h => ⟨hs.trans h.1, hr.trans h.2⟩) fun h => ⟨hs.trans h.1, hr.trans h.2⟩
  · exact .inr h'

theorem ensurePeers (n : Node σ) (mask : Mask) : Yields n (n.ensurePeers mask) := by
  obtain ⟨peers, next, mtch, heq⟩ := n.ensurePeers_same mask
  rw [heq]
  exact refl n

theorem retire (n : Node σ) : Yields n n.retire := by
  unfold Node.retire
  split
  · exact refl n
  · exact .inr ⟨rfl, rfl⟩

theorem configure (n : Node σ) (e : Entry) : Yields n (n.configure e) := by
  unfold Node.configure
  cases e.kind with
  | jointConfig =>
    have hset : Yields n { n with votersOld := e.oldVoters, votersNew := e.newVoters } :=
      .inl ⟨rfl, rfl⟩
    exact hset.trans (ensurePeers _ _)
  | finalConfig =>
    have hset : Yields n { n with votersOld := e.oldVoters, votersNew := 0 } := .inl ⟨rfl, rfl⟩
    exact hset.trans (retire _)
  | _ => exact refl n

theorem clearPending (n : Node σ) (index : Nat) : Yields n (n.clearPending index) := by
  unfold Node.clearPending
  split
  · exact .inl ⟨rfl, rfl⟩
  · exact refl n

theorem settleAt (n : Node σ) (index : Nat) : Yields n (n.settleAt index) := by
  unfold Node.settleAt
  split
  · exact (configure n _).trans (clearPending _ _)
  · exact refl n

theorem settle (n : Node σ) (first last : Nat) : Yields n (n.settle first last) := by
  suffices ∀ (ks : List Nat) (m : Node σ), Yields m (ks.foldl Node.settleAt m) from this _ n
  intro ks
  induction ks with
  | nil => exact refl
  | cons k ks ih => exact fun m => (settleAt m k).trans (ih _)

end Yields

theorem Frame.yields (h : Frame n n') (hs : n.state = .follower) : Yields n n' := by
  have hs' : n'.state = .follower := h.state.elim (·.trans hs) fun h => h
  exact h.ready.imp (fun hr => ⟨hs'.trans hs.symm, hr⟩) fun hr => ⟨hs', hr⟩

theorem Tracks.yields [StableStore σ] (h : Tracks op n n') : Yields n n' := by
  cases h with
  | start =>
    obtain ⟨next, mtch, heq⟩ := n.track_eq
    rw [heq]
    exact .refl n
  | clamp | back | ack | snapshotAck => exact .refl n

theorem Change.term_le [StableStore σ] (h : Change op n₀ n n') (hlog : n.log ≠ []) :
    n.term ≤ n'.term := by
  cases h with
  | track ht => exact ht.volatile.term.ge
  | ensure hop mask => exact (Frame.ensurePeers n mask).term.ge
  | newTerm _ _ _ ht => exact ht.le
  | campaign => exact Nat.le_succ _
  | @commit k s => exact (Volatile.settle { n with commit := k, store := s } _ k).term.ge
  | store hr ha hs => exact (ha.stored hlog _).term.ge
  | storeError ha => exact (ha.trim hlog).term.ge
  | save hp =>
    cases hp with
    | own => exact Nat.le_refl _
    | install => exact Nat.le_refl _
  | wait | follow | preVote | preVoteAck | voteAck | lead | send | vote | persistError | append
  | propose | appendError | pending | saveError | compactError | noSnapshotStore | read | readAck
  | readReady | apply => exact Nat.le_refl _

/-! ## One read -/

/-- The read that the leader `id` of `term` started when its commit index was `index`, the nodes
that may answer it, and whether it can still get ready. -/
structure Barrier where
  id : Nat
  context : UInt64
  term : Nat
  index : Nat
  voters : Mask
  Early : Nat → Prop
  Open : Prop

/-- How far the read has come on its node. -/
inductive Barrier.Stage (b : Barrier) (n : Node σ) : Prop
  /-- The node reads with another context. -/
  | other (h : n.readContext ≠ b.context)
  | stopped (h : n.faulted = true)
  /-- The node does not lead the term any more, and the read is not ready. -/
  | lost (hr : n.readReady = false) (ht : b.term < n.term ∨ b.term = n.term ∧ n.state = .follower)
  /-- The node leads the term, and only early nodes have answered. -/
  | waiting (ho : b.Open) (hl : n.state = .leader) (ht : n.term = b.term)
      (hm : ∀ v, Mem v n.readAckMask → b.Early v)
      (hr : n.readReady = true → b.index ≤ n.readIndex ∧ HasMajority b.voters b.Early)

namespace Barrier

variable {b : Barrier}

/-- What the messages that carry the context of the read say about it. -/
abbrev Echo (b : Barrier) (m : Message) : Prop :=
  Echoes b.id b.context (· = b.term) (fun t v => t = b.term ∧ b.Early v) m

/-- The methods that its node may use during the read. -/
structure Allows (b : Barrier) (n₀ : Node σ) (op : Op) : Prop where
  fresh : op ≠ .startReadIndex b.context
  dst : ∀ m, op = .step m → m.dst = b.id
  echo : ∀ m, op = .step m → b.Echo m
  /-- Nobody else leads the term. -/
  alone : b.Open → ∀ m, op = .step m →
    m.type = .append ∨ m.type = .installSnapshot ∧ m.snapshotOld ≠ 0 → m.term ≠ b.term
  index : b.Open → n₀.state = .leader → n₀.term = b.term → b.index ≤ n₀.commit
  quorum : b.Open → n₀.state = .leader → ∀ mask, n₀.quorumMask mask = .ok true →
    HasMajority b.voters fun v => Mem v mask

namespace Stage

theorem keep (h : b.Stage n) (hf : n'.faulted = n.faulted) (ht : n'.term = n.term)
    (hctx : n'.readContext = n.readContext) (hmask : n'.readAckMask = n.readAckMask)
    (hidx : n'.readIndex = n.readIndex) (hy : Yields n n') : b.Stage n' := by
  cases h with
  | other h => exact .other (hctx ▸ h)
  | stopped h => exact .stopped (hf.trans h)
  | lost hr hover =>
    rcases hy with ⟨hs, hr'⟩ | ⟨hs, hr'⟩
    · exact .lost (hr'.trans hr) (by rw [ht, hs]; exact hover)
    · exact .lost hr' (by rw [ht]; exact hover.imp_right fun h => ⟨h.1, hs⟩)
  | waiting ho hl hterm hm hr =>
    rcases hy with ⟨hs, hr'⟩ | ⟨hs, hr'⟩
    · refine .waiting ho (hs.trans hl) (ht.trans hterm) (hmask ▸ hm) fun hready => ?_
      rw [hidx]
      exact hr (hr' ▸ hready)
    · exact .lost hr' (.inr ⟨hterm.symm.trans ht.symm, hs⟩)

theorem frame (h : b.Stage n) (hv : Frame n n') (hy : Yields n n') : b.Stage n' :=
  h.keep hv.faulted hv.term (congrArg Core.readContext hv.core) (congrArg Core.readAckMask hv.core)
    (congrArg Core.readIndex hv.core) hy

/-- A change that the read does not see. -/
theorem same (h : b.Stage n) (hf : n'.faulted = n.faulted) (ht : n'.term = n.term)
    (hctx : n'.readContext = n.readContext) (hmask : n'.readAckMask = n.readAckMask)
    (hidx : n'.readIndex = n.readIndex) (hs : n'.state = n.state) (hr : n'.readReady = n.readReady) :
    b.Stage n' := h.keep hf ht hctx hmask hidx (.inl ⟨hs, hr⟩)

/-- The node counts an answer of its own term, so the read is still open. -/
theorem ack [StableStore σ] {m : Message} {bit : Mask} (h : b.Stage n) (ha : b.Allows n₀ op)
    (hop : op = .step m) (ht : m.type = .appendResponse ∧ m.term = n.term ∧ m.reject = false)
    (hctx : m.context = n.readContext) (hbit : nodeBit m.src = .ok bit) :
    b.Stage { n with readAckMask := n.readAckMask ||| bit } := by
  cases h with
  | other h => exact .other h
  | stopped h => exact .stopped h
  | lost hr hover => exact .lost hr hover
  | waiting ho hl hterm hm hr =>
    by_cases hc : n.readContext = b.context
    · have hecho := (ha.echo m hop).answer ht.1 (ha.dst m hop) ht.2.2 (hctx.trans hc)
      obtain ⟨rfl, h0, h64⟩ := nodeBit_ok hbit
      refine .waiting ho hl hterm (fun v hv => ?_) hr
      rcases mem_or.mp hv with hv | hv
      · exact hm v hv
      · rw [(mem_bit h0 h64).mp hv]
        exact hecho.2
    · exact .other hc

/-- The read is ready when a quorum of early nodes has answered. -/
theorem ready [StableStore σ] {m : Message} (h : b.Stage n) (hs : Sane n) (ha : b.Allows n₀ op)
    (hop : op = .step m) (hl : n.state = .leader)
    (ht : m.type = .appendResponse ∧ m.term = n.term ∧ m.reject = false)
    (hctx : m.context = n.readContext) (hq : n.quorumMask n.readAckMask = .ok true)
    (hn : n = { n₀ with readAckMask := n.readAckMask }) :
    b.Stage { n with readIndex := n.commit, readReady := true } := by
  by_cases hc : n.readContext = b.context
  · have hecho := (ha.echo m hop).answer ht.1 (ha.dst m hop) ht.2.2 (hctx.trans hc)
    have hterm : n.term = b.term := ht.2.1.symm.trans hecho.1
    cases h with
    | other h => exact absurd hc h
    | stopped h => cases h.symm.trans (hs.leads hl)
    | lost hr hover =>
      rcases hover with hlt | ⟨-, hs'⟩
      · omega
      · cases hs'.symm.trans hl
    | waiting ho _ _ hm hr =>
      have hl₀ : n₀.state = .leader := by rw [hn] at hl; exact hl
      refine .waiting ho hl hterm hm fun _ => ⟨?_, ?_⟩
      · have hindex := ha.index ho hl₀ (by rw [hn] at hterm; exact hterm)
        rw [hn]
        exact hindex
      · have hq₀ : n₀.quorumMask n.readAckMask = .ok true := by
          rw [hn] at hq
          exact hq
        obtain ⟨mask, hmaj, hmem⟩ := ha.quorum ho hl₀ _ hq₀
        exact ⟨mask, hmaj, fun v hv => hm v (hmem v hv)⟩
  · exact .other hc

/-- A method keeps the stage of the read, or it ends the read. -/
theorem change [StableStore σ] (h : b.Stage n) (hs : Sane n) (ha : b.Allows n₀ op)
    (hc : Change op n₀ n n') : b.Stage n' := by
  -- a node that loses its role in the middle of the read
  have hquit : ∀ {n'' : Node σ}, n''.faulted = n.faulted → n''.readContext = n.readContext →
      n''.readReady = n.readReady → n.term < n''.term → n.state ≠ .leader → b.Stage n'' := by
    intro n'' hf hctx hr hlt hl
    cases h with
    | other h => exact .other (hctx ▸ h)
    | stopped h => exact .stopped (hf.trans h)
    | lost hready hover => exact .lost (hr.trans hready) (.inl (by omega))
    | waiting _ hl' => exact absurd hl' hl
  have hlose : n.state ≠ .leader → ∀ {n'' : Node σ}, n''.faulted = n.faulted →
      n''.term = n.term → n''.readContext = n.readContext → n''.readReady = n.readReady →
      n''.state = .follower → b.Stage n'' := by
    intro hl n'' hf ht hctx hr hs'
    cases h with
    | other h => exact .other (hctx ▸ h)
    | stopped h => exact .stopped (hf.trans h)
    | lost hready hover =>
      refine .lost (hr.trans hready) ?_
      rw [ht]
      exact hover.imp_right fun h => ⟨h.1, hs'⟩
    | waiting _ hl' => exact absurd hl' hl
  cases hc with
  | follow hop htype hterm =>
    by_cases hl : n.state = .leader
    · -- a leader would have got an append of its own term
      cases h with
      | other h => exact .other h
      | stopped h => exact .stopped h
      | lost hr hover =>
        refine .lost hr (hover.imp_right fun h => ?_)
        exact ⟨h.1, rfl⟩
      | waiting ho _ ht => exact absurd (hterm.trans ht) (ha.alone ho _ hop htype)
    · exact hlose hl rfl rfl rfl rfl rfl
  | lead hop hcand =>
    cases h with
    | other h => exact .other h
    | stopped h => cases (hs.stopped h).symm.trans hcand
    | lost hr hover =>
      refine .lost hr (.inl (hover.resolve_right fun h => ?_))
      cases h.2.symm.trans hcand
    | waiting _ hl => cases hl.symm.trans hcand
  | newTerm hr hop htype ht hstore =>
    cases h with
    | other h => exact .other h
    | stopped h => exact .stopped h
    | lost _ hover => exact .lost rfl (.inl (Nat.lt_of_le_of_lt (by omega : b.term ≤ n.term) ht))
    | waiting _ _ hterm => exact .lost rfl (.inl (hterm ▸ ht))
  | campaign hr hwhy =>
    refine hquit rfl rfl rfl (Nat.lt_succ_self _) ?_
    cases hwhy with
    | timeoutNow _ _ hstate => rw [hstate]; decide
    | preVoted _ _ _ hl => exact hl
  | @commit k s =>
    have hset : b.Stage { n with commit := k, store := s } := h.same rfl rfl rfl rfl rfl rfl rfl
    exact hset.frame (Volatile.settle _ _ _).toFrame (.settle _ _ _)
  | @store m s hr hm hstore =>
    have hv := (hm.stored hs.log s).toFrame
    have hset : b.Stage { n with store := s, log := n.extend (m.logIndex + 1) m.entry } :=
      h.same rfl rfl rfl rfl rfl rfl rfl
    exact hset.frame hv (hv.yields hm.state)
  | track ht => exact h.frame ht.volatile.toFrame ht.yields
  | ensure hop mask => exact h.frame (.ensurePeers n mask) (.ensurePeers n mask)
  | save hp =>
    cases hp with
    | own => exact h.same rfl rfl rfl rfl rfl rfl rfl
    | install => exact h.same rfl rfl rfl rfl rfl rfl rfl
  | read hop => exact .other fun hctx => ha.fresh (hctx ▸ hop)
  | readAck hop hl ht hctx hvoter hbit hn => exact h.ack ha hop ht hctx.2 hbit
  | readReady hop hl ht hctx hq hn => exact h.ready hs ha hop hl ht hctx.2 hq hn
  | persistError | appendError | storeError | saveError | compactError | noSnapshotStore =>
    exact .stopped rfl
  | wait | preVote | preVoteAck | voteAck | send | vote | append | propose | pending | apply =>
    exact h.same rfl rfl rfl rfl rfl rfl rfl

end Stage

end Barrier

/-! ## Nobody writes to itself -/

/-- The peers that a change adds are other nodes. -/
theorem Change.strangers [StableStore σ] (h : Change op n₀ n n') :
    ∀ p ∈ n'.peers, p ∈ n.peers ∨ p ≠ n.id := by
  have henlist : ∀ {m m' : Node σ}, Enlists m m' → ∀ p ∈ m'.peers, p ∈ m.peers ∨ p ≠ m.id :=
    fun he p hp => (he.peer p hp).imp (·.1) (·.2.1)
  cases h with
  | track ht =>
    cases ht with
    | start =>
      obtain ⟨next, mtch, heq⟩ := n.track_eq
      rw [heq]
      exact fun _ => .inl
    | clamp | back | ack | snapshotAck => exact fun _ => .inl
  | ensure hop mask => exact henlist (.ensurePeers n mask)
  | @commit k s =>
    have hpeers := henlist (Enlists.settle { n with commit := k, store := s } (n.commit + 1) k)
    exact hpeers
  | @store m s hr hm hs =>
    have hb : n.baseIndex < m.logIndex + 1 := Nat.lt_succ_of_le (Node.termAt_range hm.prev).1
    have htrim := Enlists.trim n hb
    intro p hp
    rcases henlist (Enlists.note { n.trim (m.logIndex + 1) with
      store := s, log := (n.trim (m.logIndex + 1)).log ++ [m.entry] } _ m.entry) p hp with hp | hp
    · exact henlist htrim p hp
    · exact .inr (htrim.id ▸ hp)
  | @storeError m err s hm hs =>
    have hpeers := henlist (Enlists.trim n (Nat.lt_succ_of_le (Node.termAt_range hm.prev).1))
    exact hpeers
  | save hp =>
    cases hp with
    | own => exact fun _ => .inl
    | install => exact fun _ => .inl
  | wait | follow | preVote | preVoteAck | voteAck | lead | send | newTerm | campaign | vote
  | persistError | append | propose | appendError | pending | saveError | compactError
  | noSnapshotStore | read | readAck | readReady | apply => exact fun _ => .inl

/-- The node at address `i` is not its own peer, and writes to others only. -/
structure Apart (i : Nat) (n : Node σ) : Prop where
  id : n.id = i
  peers : i ∉ n.peers
  outbound : ∀ m ∈ n.outbound, m.src = i ∧ m.dst ≠ i

/-- A message is delivered to its addressee. -/
def Event.Arrives (i : Nat) (e : Event) : Prop := ∀ m, e = .call (.step m) → m.dst = i

namespace Apart

variable {i timeout : Nat} {peers : List Nat} {store : σ}

theorem enlists (h : Apart i n) (he : Enlists n n') (hout : n'.outbound = n.outbound ∨ n'.outbound = []) :
    Apart i n' := by
  refine ⟨he.id.trans h.id, fun hi => ?_, fun m hm => ?_⟩
  · rcases he.peer i hi with hp | hp
    · exact h.peers hp.1
    · exact hp.2.1 h.id.symm
  · rcases hout with hout | hout
    · exact h.outbound m (hout ▸ hm)
    · rw [hout] at hm
      cases hm

theorem checkRecovered (h : Apart i n) : Apart i n.checkRecovered := by
  refine h.enlists (.checkRecovered n) ?_
  obtain ⟨n', hv, heq⟩ := Frame.checkRecovered n
  rcases heq with heq | heq <;> rw [heq]
  · exact .inl hv.outbound
  · exact .inr rfl

theorem new (h : newNodeWithStore i peers timeout store = .ok n) : Apart i n := by
  obtain ⟨-, -, hpeers, -⟩ := newNodeWithStore_ids h
  obtain ⟨-, -, heq⟩ := newNodeWithStore_ok h
  rw [heq]
  exact ⟨rfl, fun hi => (hpeers i hi).2 rfl, fun _ hm => absurd hm List.not_mem_nil⟩

theorem recover {d : Recovery} (h : Raft.recover i peers timeout store d = .ok n) : Apart i n := by
  obtain ⟨n₀, hn₀, h⟩ := recover_cases h
  have h₀ := Apart.new hn₀
  have hat : Apart i (n₀.atSnapshot d) := ⟨h₀.id, h₀.peers, h₀.outbound⟩
  rcases h with rfl | rfl | rfl
  · refine checkRecovered ?_
    exact ⟨h₀.id, h₀.peers, h₀.outbound⟩
  · exact ⟨h₀.id, h₀.peers, fun _ hm => absurd hm List.not_mem_nil⟩
  · have hm := hat.enlists (.ensurePeers _ (d.snapshot.oldVoters ||| d.snapshot.newVoters))
      (.inl (Frame.ensurePeers _ _).outbound)
    generalize (n₀.atSnapshot d).ensurePeers _ = m at hm ⊢
    refine checkRecovered ?_
    exact ⟨hm.id, hm.peers, hm.outbound⟩

theorem change [StableStore σ] (h : Apart i n) (hlog : n.log ≠ [])
    (hop : ∀ m, op = .step m → m.src ≠ i) (hc : Change op n₀ n n') : Apart i n' := by
  refine ⟨hc.peers.1.trans h.id, fun hi => ?_, fun m hm => ?_⟩
  · exact (hc.strangers i hi).elim h.peers fun hne => hne h.id.symm
  · rcases hc.sends hlog hm with hm | hm
    · exact h.outbound m hm
    · refine ⟨hm.src.trans h.id, ?_⟩
      rcases hm.dst with hp | ⟨q, hq, hp⟩ | ⟨-, hne⟩
      · exact fun heq => h.peers (heq ▸ hp)
      · exact hp ▸ hop q hq
      · exact fun heq => hne (heq.trans h.id.symm)

end Apart

/-- In every run, no message is for its sender. -/
theorem Setup.keepsApart [DurableStore σ] [LawfulStore σ] (S : Setup σ) :
    S.Keeps (fun i e _ => e.Arrives i) Apart fun m => m.src ≠ m.dst where
  new h := .new h
  recovered h := .recover h
  call {i op n n'} hs h ha hm hx := by
    refine (op.keepsChanges (I := Apart i) hs h hx fun hs₁ h₁ hc => h₁.change hs₁.log ?_ hc).2
    intro m hop
    have hdst : m.dst = i := ha m (by rw [hop])
    exact hdst ▸ hm m hop
  drain h := ⟨⟨h.id, h.peers, fun _ hm => absurd hm List.not_mem_nil⟩, fun m hm => by
    obtain ⟨hsrc, hdst⟩ := h.outbound m hm
    exact fun heq => hdst (heq.symm.trans hsrc)⟩

/-- A message that is delivered was sent, and arrives. -/
theorem Setup.delivered [DurableStore σ] [LawfulStore σ] {S : Setup σ} {i : Nat} {m : Message}
    {p : Proc σ} {sent : List Message} (h : (S.act i (.call (.step m)) p sent).isSome) :
    m ∈ sent ∧ m.dst = i := by
  cases p with
  | down store => cases h
  | up n =>
    unfold Setup.act at h
    dsimp only at h
    split at h
    · assumption
    · cases h

theorem Setup.arrives [DurableStore σ] [LawfulStore σ] {S : Setup σ} {A : Nat → Event → Proc σ → Prop}
    {c c' : Cluster σ} (hr : Net.Runs S.act A c c') :
    Net.Runs S.act (fun i e p => A i e p ∧ e.Arrives i) c c' := by
  refine hr.strengthen fun {c₁ i e p} _ _ ha hact => ⟨ha, fun m he => ?_⟩
  subst he
  exact (Setup.delivered hact).2

end Promtact.Raft
