import Promtact.Raft.Reads.Start

/-!
# Reads see what was committed before them (`StartReadIndex`, `ReadIndex`)

A caller asks a leader to start a read, and later asks it for the index of the read.
`read_index_linearizable` says that this index covers what any node had committed at any time before
the caller asked for the read, and `read_barrier_covers_commits` that it covers what they have
committed at that moment, for every context. They hold in every run with a fixed membership in which
a node does not start two reads with the same context, whatever the network does and whenever nodes
crash.

* `Barrier.Watches`: what a node and the messages say about one read; every method keeps it
  (`Barrier.Watches.call`).
* `Reading`: the cluster with the contexts that its nodes have used.
* `Setup.unread`: before a context is used, nothing carries it.
* `Setup.watched`: after that, `Barrier.Watches` holds until the context would be used again.
-/

namespace Promtact.Raft

open Refine Consensus Network

/-! ## A node during a read -/

/-- The answer of `StartReadIndex`. -/
def accepted {σ : Type} : EStateM.Result Panic (Node σ) Bool → Bool
  | .ok true _ => true
  | _ => false

section

variable {σ : Type} [StableStore σ] {n n' : Node σ} {op : Op} {b : Barrier} {A : Nat → Prop}
  {R : Nat → Nat → Prop} {i : Nat}

/-- What a call of a method of node `i` during the read is like. -/
structure Barrier.Calls (b : Barrier) (A : Nat → Prop) (R : Nat → Nat → Prop) (i : Nat) (n : Node σ)
    (op : Op) : Prop where
  fresh : i = b.id → op = .startReadIndex b.context → accepted (startReadIndex b.context n) = false
  /-- A node that gets to a term of the read answers it with right. -/
  relay : ∀ t, n.term ≤ t → A t → R t i
  dst : ∀ m, op = .step m → m.dst = i
  alone : i = b.id → b.Open → ∀ m, op = .step m →
    m.type = .append ∨ m.type = .installSnapshot ∧ m.snapshotOld ≠ 0 → m.term ≠ b.term
  index : i = b.id → b.Open → n.state = .leader → n.term = b.term → b.index ≤ n.commit
  quorum : i = b.id → b.Open → n.state = .leader → ∀ mask, n.quorumMask mask = .ok true →
    HasMajority b.voters fun v => Mem v mask

/-- What node `i` says about the read. -/
structure Barrier.Watches (b : Barrier) (A : Nat → Prop) (R : Nat → Nat → Prop) (i : Nat)
    (n : Node σ) : Prop where
  id : n.id = i
  outbound : ∀ m ∈ n.outbound, Echoes b.id b.context A R m
  stage : i = b.id → b.Stage n

/-- A method that does not start the read keeps it. -/
theorem Barrier.Watches.call (h : b.Watches A R i n) (hs : Sane n) (hc : b.Calls A R i n op)
    (hctx : b.context ≠ 0) (hA : ∀ t, A t → t = b.term)
    (hR : ∀ t v, R t v → t = b.term ∧ b.Early v)
    (hm : ∀ m, op = .step m → Echoes b.id b.context A R m) (hx : op.run n = .ok () n') :
    b.Watches A R i n' := by
  by_cases hstart : i = b.id ∧ op = .startReadIndex b.context
  · -- the method refuses, and changes nothing
    obtain ⟨hi, rfl⟩ := hstart
    have hno := hc.fresh hi rfl
    suffices n' = n from this ▸ h
    obtain ⟨ok, hrun⟩ := startReadIndex_of_run hx
    cases ok with
    | true => rw [hrun] at hno; cases hno
    | false => exact (startReadIndex_false hs.log hrun).1
  · refine (op.keepsChanges (I := fun n₁ => b.Watches A R i n₁ ∧ n.term ≤ n₁.term) hs
      ⟨h, Nat.le_refl _⟩ hx fun {n₁ n₂} hs₁ h₁ hch => ?_).2.1
    obtain ⟨hw, hle⟩ := h₁
    refine ⟨⟨hch.peers.1.trans hw.id, fun m hmem => ?_, fun hi => ?_⟩, hle.trans (hch.term_le hs₁.log)⟩
    · rcases hch.sends hs₁.log hmem with hmem | hsend
      · exact hw.outbound m hmem
      · refine Echoes.send hsend hctx (fun hid hop => ?_) hm fun ha => ?_
        · exact absurd ⟨hw.id.symm.trans hid, hop⟩ hstart
        · exact hw.id ▸ hc.relay _ hle ha
    · have hallows : Barrier.Allows _ n op :=
        { fresh := fun hop => hstart ⟨hi, hop⟩
          dst := fun m hop => (hc.dst m hop).trans hi
          echo := fun m hop => (hm m hop).mono hA hR
          alone := hc.alone hi
          index := hc.index hi
          quorum := hc.quorum hi }
      exact (hw.stage hi).change hs₁ hallows hch

end

/-! ## The cluster during a read -/

/-- The node has nothing to send and waits for no read. -/
structure Node.Idle {σ : Type} (i : Nat) (n : Node σ) : Prop where
  id : n.id = i
  outbound : n.outbound = []
  context : n.readContext = 0
  ready : n.readReady = false

namespace Node.Idle

variable {σ : Type} {i timeout : Nat} {n n' : Node σ} {peers : List Nat} {store : σ} {d : Recovery}

theorem frame (h : n.Idle i) (hv : Frame n n') : n'.Idle i where
  id := hv.id.trans h.id
  outbound := hv.outbound.trans h.outbound
  context := (congrArg Core.readContext hv.core).trans h.context
  ready := hv.ready.elim (fun hr => hr.trans h.ready) fun hr => hr

theorem checkRecovered (h : n.Idle i) : n.checkRecovered.Idle i := by
  obtain ⟨n', hv, heq⟩ := Frame.checkRecovered n
  have h' := h.frame hv
  rcases heq with heq | heq <;> rw [heq]
  · exact h'
  · exact ⟨h'.id, rfl, h'.context, h'.ready⟩

theorem new (h : newNodeWithStore i peers timeout store = .ok n) : n.Idle i := by
  obtain ⟨-, -, heq⟩ := newNodeWithStore_ok h
  rw [heq]
  exact ⟨rfl, rfl, rfl, rfl⟩

theorem recover (h : recover i peers timeout store d = .ok n) : n.Idle i := by
  obtain ⟨n₀, hn₀, h⟩ := recover_cases h
  have h₀ := new hn₀
  have hat : (n₀.atSnapshot d).Idle i := ⟨h₀.id, h₀.outbound, h₀.context, h₀.ready⟩
  rcases h with rfl | rfl | rfl
  · exact checkRecovered ⟨h₀.id, h₀.outbound, h₀.context, h₀.ready⟩
  · exact ⟨h₀.id, rfl, h₀.context, h₀.ready⟩
  · have h₁ := hat.frame (Frame.ensurePeers _ (d.snapshot.oldVoters ||| d.snapshot.newVoters))
    generalize (n₀.atSnapshot d).ensurePeers _ = m at h₁ ⊢
    exact checkRecovered ⟨h₁.id, h₁.outbound, h₁.context, h₁.ready⟩

end Node.Idle

theorem Barrier.Watches.idle {σ : Type} {n : Node σ} {b : Barrier} {A : Nat → Prop}
    {R : Nat → Nat → Prop} {i : Nat} (h : n.Idle i) (hc : b.context ≠ 0) : b.Watches A R i n :=
  ⟨h.id, fun _ hm => absurd (h.outbound ▸ hm) List.not_mem_nil, fun _ => .other (h.context ▸ hc.symm)⟩

/-- A read that is ready has a context. -/
def Node.ReadsNamed {σ : Type} (n : Node σ) : Prop := n.readReady = true → n.readContext ≠ 0

theorem Node.ReadsNamed.frame {σ : Type} {n n' : Node σ} (h : n.ReadsNamed) (hv : Frame n n') :
    n'.ReadsNamed := by
  intro hr
  have hctx : n'.readContext = n.readContext := congrArg Core.readContext hv.core
  rcases hv.ready with heq | heq
  · exact hctx ▸ h (heq ▸ hr)
  · cases heq.symm.trans hr

theorem Node.ReadsNamed.effect {σ : Type} [StableStore σ] {n n' n₀ : Node σ} {op : Op}
    (h : n.ReadsNamed) (he : Effect op n₀ n n') : n'.ReadsNamed := by
  cases he with
  | volatile hv => exact h.frame hv
  | persist _ hp =>
    cases hp with
    | newTerm => exact fun hr => by cases hr
    | campaign | vote | commit => exact h
  | save hp =>
    cases hp with
    | own | install => exact h
  | @appendError n₁ k _ _ s _ _ hv =>
    have hcut : Node.ReadsNamed { n with store := s, log := n.log.take (k - n.baseIndex) } := h
    exact (hcut.frame hv.toFrame : n₁.ReadsNamed)
  | read _ _ _ hc => exact fun _ => hc
  | readReady _ _ _ hc => exact fun _ => hc.2 ▸ hc.1
  | lead | send | persistError | append | saveError | compactError | noSnapshotStore | readAck
  | apply => exact h

section

variable {σ : Type} [DurableStore σ] [LawfulStore σ]

theorem Setup.keepsReads (S : Setup σ) :
    S.Keeps (fun _ _ _ => True) (fun _ n => n.ReadsNamed) fun _ => True where
  new h := fun hr => by cases (Node.Idle.new h).ready.symm.trans hr
  recovered h := fun hr => by cases (Node.Idle.recover h).ready.symm.trans hr
  call hs h _ _ hx := (Op.keeps hs h hx fun _ => Node.ReadsNamed.effect).2
  drain h := ⟨h, fun _ _ => trivial⟩

/-- The event is a call that the read allows, or no call. -/
def Barrier.Admits (b : Barrier) (A : Nat → Prop) (R : Nat → Nat → Prop) (i : Nat) (e : Event)
    (p : Proc σ) : Prop := ∀ op n, e = .call op → p = .up n → b.Calls A R i n op

theorem Setup.keepsWatch (S : Setup σ) {b : Barrier} {A : Nat → Prop} {R : Nat → Nat → Prop}
    (hc : b.context ≠ 0) (hA : ∀ t, A t → t = b.term)
    (hR : ∀ t v, R t v → t = b.term ∧ b.Early v) :
    S.Keeps (b.Admits A R) (b.Watches A R) (Echoes b.id b.context A R) where
  new h := .idle (.new h) hc
  recovered h := .idle (.recover h) hc
  call hs h ha hm hx := h.call hs (ha _ _ rfl rfl) hc hA hR hm hx
  drain h := ⟨⟨h.id, fun _ hm => absurd hm List.not_mem_nil, fun hi =>
    (h.stage hi).same rfl rfl rfl rfl rfl rfl rfl⟩, h.outbound⟩

end

/-! ## Contexts that are used once -/

/-- The context of the read that the event starts. -/
def Event.read : Event → Proc Disk → Option UInt64
  | .call (.startReadIndex context), .up n =>
    if accepted (startReadIndex context n) then some context else none
  | _, _ => none

theorem Event.read_some {e : Event} {p : Proc Disk} {context : UInt64} (h : e.read p = some context) :
    ∃ n n', e = .call (.startReadIndex context) ∧ p = .up n ∧
      startReadIndex context n = .ok true n' := by
  unfold Event.read at h
  split at h
  · rename_i c n
    split at h
    · rename_i hacc
      cases h
      cases hx : startReadIndex context n with
      | error e n' => rw [hx] at hacc; cases hacc
      | ok ok n' =>
        rw [hx] at hacc
        cases ok with
        | true => exact ⟨n, n', rfl, rfl, hx⟩
        | false => cases hacc
    · cases h
  · cases h

/-- A cluster, and the contexts with which its nodes have started reads. -/
structure Reading where
  cluster : Cluster Disk
  used : List (Nat × UInt64) := []

namespace Reading

variable {S : Setup Disk} {x y : Reading} {i : Nat} {e : Event} {r : Nat × UInt64}

/-- One event. It changes no membership, and it does not start a read with a context that the node
has used. -/
def next (S : Setup Disk) (x : Reading) (i : Nat) (e : Event) : Option Reading :=
  (x.cluster.procs i).bind fun p =>
    let reads := ((e.read p).map (i, ·)).toList
    if e.fixedMembership ∧ ∀ r ∈ reads, r ∉ x.used then
      (x.cluster.next S.act i e).map fun c => ⟨c, reads ++ x.used⟩
    else none

/-- Any number of events. -/
def Runs (S : Setup Disk) : Reading → Reading → Prop :=
  Relation.ReflTransGen fun x y => ∃ i e, x.next S i e = some y

/-- The event changes no membership, and does not start the read `r`. -/
def Spares (r : Nat × UInt64) (i : Nat) (e : Event) (p : Proc Disk) : Prop :=
  FixedMembership i e p ∧ ∀ context, e.read p = some context → (i, context) ≠ r

theorem next_some (h : x.next S i e = some y) : ∃ p, x.cluster.procs i = some p ∧
    FixedMembership i e p ∧ x.cluster.next S.act i e = some y.cluster ∧
    (∀ context, e.read p = some context → (i, context) ∉ x.used) ∧
    ∀ r, r ∈ y.used ↔ r ∈ x.used ∨ ∃ context, e.read p = some context ∧ r = (i, context) := by
  obtain ⟨p, hp, h⟩ := Option.bind_eq_some_iff.mp h
  dsimp only at h
  split at h
  · rename_i hok
    obtain ⟨c, hc, rfl⟩ := Option.map_eq_some_iff.mp h
    refine ⟨p, hp, hok.1, hc, fun context hread => ?_, fun r => ?_⟩
    · exact hok.2 (i, context) (by rw [hread]; exact List.mem_singleton.mpr rfl)
    · cases hread : e.read p with
      | none => simp
      | some context => simp [or_comm]
  · cases h

theorem next_fixed (h : x.next S i e = some y) :
    Net.Step S.act FixedMembership x.cluster y.cluster := by
  obtain ⟨p, hp, hf, hn, -⟩ := next_some h
  exact ⟨i, e, p, hp, hf, hn⟩

theorem Runs.fixed (h : Runs S x y) : Net.Runs S.act FixedMembership x.cluster y.cluster := by
  induction h with
  | refl => exact .refl
  | tail _ hs ih =>
    obtain ⟨i, e, hs⟩ := hs
    exact ih.tail (next_fixed hs)

theorem next_used (h : x.next S i e = some y) (hr : r ∈ x.used) : r ∈ y.used := by
  obtain ⟨_, _, _, _, _, hiff⟩ := next_some h
  exact (hiff r).mpr (.inl hr)

theorem Runs.used (h : Runs S x y) (hr : r ∈ x.used) : r ∈ y.used := by
  induction h with
  | refl => exact hr
  | tail _ hs ih =>
    obtain ⟨i, e, hs⟩ := hs
    exact next_used hs ih

/-- Plays a script. -/
def play (S : Setup Disk) : Reading → List (Move Disk) → Option Reading
  | x, [] => some x
  | x, choose :: script =>
    (choose x.cluster).bind fun (i, e) => (x.next S i e).bind fun y => play S y script

theorem Runs.of_play {script : List (Move Disk)} (h : x.play S script = some y) : Runs S x y := by
  induction script generalizing x with
  | nil => cases h; exact .refl
  | cons choose script ih =>
    obtain ⟨⟨i, e⟩, -, h⟩ := Option.bind_eq_some_iff.mp h
    obtain ⟨z, hz, h⟩ := Option.bind_eq_some_iff.mp h
    exact .head ⟨i, e, hz⟩ (ih h)

/-- An event before or after the one that starts the read. -/
theorem next_quiet (h : x.next S i e = some y) (hr : r ∈ x.used ∨ r ∉ y.used) :
    Net.Step S.act (Spares r) x.cluster y.cluster := by
  obtain ⟨p, hp, hf, hn, hfresh, hiff⟩ := next_some h
  refine ⟨i, e, p, hp, ⟨hf, fun context hread => ?_⟩, hn⟩
  rintro rfl
  rcases hr with hr | hr
  · exact hfresh context hread hr
  · exact hr ((hiff _).mpr (.inr ⟨context, hread, rfl⟩))

theorem Runs.spares (h : Runs S x y) (hr : r ∈ x.used ∨ r ∉ y.used) :
    Net.Runs S.act (Spares r) x.cluster y.cluster := by
  induction h with
  | refl => exact .refl
  | tail hrun hs ih =>
    obtain ⟨i, e, hs⟩ := hs
    rcases hr with hr | hr
    · exact (ih (.inl hr)).tail (next_quiet hs (.inl (Runs.used hrun hr)))
    · exact (ih (.inr fun hu => hr (next_used hs hu))).tail (next_quiet hs (.inr hr))

/-- The event that starts the read. -/
structure Starts (S : Setup Disk) (r : Nat × UInt64) (x y : Reading) : Prop where
  unused : r ∉ x.used
  used : r ∈ y.used
  step : Net.Step S.act FixedMembership x.cluster y.cluster
  node : ∃ n n', x.cluster.procs r.1 = some (.up n) ∧ startReadIndex r.2 n = .ok true n' ∧
    y.cluster = ⟨Function.update x.cluster.procs r.1 (some (.up n')), x.cluster.sent⟩

theorem Runs.starts (h : Runs S x y) (hx : r ∉ x.used) (hy : r ∈ y.used) :
    ∃ u v, Runs S x u ∧ Starts S r u v ∧ Runs S v y := by
  induction h with
  | refl => exact absurd hy hx
  | @tail u v hrun hs ih =>
    by_cases hu : r ∈ u.used
    · obtain ⟨u', v', h₁, h₂, h₃⟩ := ih hu
      exact ⟨u', v', h₁, h₂, h₃.tail hs⟩
    · obtain ⟨i, e, hs⟩ := hs
      refine ⟨u, v, hrun, ⟨hu, hy, next_fixed hs, ?_⟩, .refl⟩
      obtain ⟨p, hp, -, hn, -, hiff⟩ := next_some hs
      obtain ⟨context, hread, rfl⟩ := ((hiff r).mp hy).resolve_left hu
      obtain ⟨n, n', rfl, rfl, hstart⟩ := Event.read_some hread
      obtain ⟨p', out, hact, hv⟩ := Net.next_some hp hn
      change (if True then some (Proc.after ((Op.startReadIndex context).run n), []) else none) =
        some (p', out) at hact
      rw [if_pos trivial, startReadIndex_run hstart] at hact
      cases hact
      refine ⟨n, n', hp, hstart, ?_⟩
      rw [hv, List.append_nil]
      rfl

theorem Spares.fresh {op : Op} {n : Node Disk} (h : Spares r i (.call op) (.up n)) (hi : i = r.1)
    (hop : op = .startReadIndex r.2) : accepted (startReadIndex r.2 n) = false := by
  subst hop
  refine eq_false_of_ne_true fun hacc => h.2 r.2 ?_ (by rw [hi])
  show (if accepted (startReadIndex r.2 n) then some r.2 else none) = some r.2
  rw [if_pos hacc]

end Reading

/-! ## The read in a run -/

namespace Setup

open Reading

variable {S : Setup Disk} {c c' u : Cluster Disk} {w w' : World Nat Entry} {n n' : Node Disk}
  {r : Nat × UInt64}

/-- The nodes and the messages of the cluster agree with the read. -/
def Watched (b : Barrier) (A : Nat → Prop) (R : Nat → Nat → Prop) (c : Cluster Disk) : Prop :=
  (∀ i p, c.procs i = some p → Keeps.Holds (b.Watches A R) i p) ∧
    ∀ m ∈ c.sent, Echoes b.id b.context A R m

/-- A read that nobody has started. -/
def blank (r : Nat × UInt64) : Barrier where
  id := r.1
  context := r.2
  term := 0
  index := 0
  voters := 0
  Early _ := False
  Open := False

/-- No message carries the context, and no read with it is ready. -/
abbrev Unread (r : Nat × UInt64) (c : Cluster Disk) : Prop :=
  Watched (blank r) (fun _ => False) (fun _ _ => False) c

/-- Before a context is used, nothing carries it. -/
theorem unread (hc : r.2 ≠ 0) (hr : Net.Runs S.act (Spares r) S.start c) : Unread r c := by
  have hkeeps := S.keepsWatch (b := blank r) (A := fun _ => False) (R := fun _ _ => False) hc
    (fun _ => False.elim) fun _ _ => False.elim
  have hadmit : Net.Runs S.act ((blank r).Admits (fun _ => False) fun _ _ => False) S.start c := by
    refine (Setup.arrives hr).mono fun i e p ⟨hq, harr⟩ op n he hp => ?_
    subst he hp
    exact
      { fresh := hq.fresh
        relay := fun _ _ => False.elim
        dst := fun m hop => harr m (by rw [hop])
        alone := fun _ => False.elim
        index := fun _ => False.elim
        quorum := fun _ => False.elim }
  exact hadmit.keeps hkeeps.act (fun _ _ hp => hkeeps.start hp) fun _ hm => absurd hm List.not_mem_nil

/-- The cluster agrees with the read that `n` has started in the world `w`. -/
abbrev Follows (S : Setup Disk) (r : Nat × UInt64) (w : World Nat Entry) (n : Node Disk) (o : Prop)
    (c : Cluster Disk) : Prop :=
  Watched (n.barrier r.2 S.voters w o) (· = n.term) (fun t v => t = n.term ∧ w.term v ≤ n.term) c

/-- During the read, the calls of the nodes are such as it allows. -/
theorem admits {i : Nat} {e : Event} {p : Proc Disk} {o : Prop}
    (hk : S.Known compacting w' c) (hx : w.Ext w') (hrise : w.Rises w')
    (hripe : (n.barrier r.2 S.voters w o).Ripe w) (hcommit : w.commit n.id = n.commit)
    (hid : n.id = r.1) (hsent : ∀ m ∈ c.sent, m.src ≠ m.dst) (hp : c.procs i = some p)
    (hq : Spares r i e p) (hact : (S.act i e p c.sent).isSome) :
    (n.barrier r.2 S.voters w o).Admits (· = n.term) (fun t v => t = n.term ∧ w.term v ≤ n.term)
      i e p := by
  intro op m he hup
  subst he hup
  have hrep : Rep compacting S.voters w' i m := (hk.joined.procs i _ hp).2
  have hinv := hk.joined.inv
  have hlive : m.state = .leader → Live compacting S.voters w' i m m.commit := fun hl =>
    (hrep.ready_of_state (by rw [hl]; decide)).live
  refine
    { fresh := fun hi => hq.fresh (hi.trans hid)
      relay := fun t hle ht => ⟨ht, ?_⟩
      dst := fun q hop => ?_
      alone := fun hi _ q hop htype hterm => ?_
      index := fun hi _ hl _ => ?_
      quorum := fun _ _ hl mask hmask => ?_ }
  · calc w.term i ≤ w'.term i := hrise.term i
      _ = m.term := hrep.term_eq
      _ ≤ n.term := ht ▸ hle
  · subst hop
    exact (Setup.delivered hact).2
  · -- the sender of the message would be the leader of the term, that is the node itself
    subst hop
    obtain ⟨hmem, hdst⟩ := Setup.delivered hact
    have hvalid := hk.joined.sent q hmem
    obtain ⟨r₁, hr₁, hl₁⟩ := (hripe.ext hx).lead
    have hlead : ∃ r₂, w'.lead q.term = some r₂ ∧ r₂.leader = q.src := by
      unfold ValidMsg at hvalid
      rcases htype with htype | ⟨htype, hold⟩ <;> rw [htype] at hvalid
      · obtain ⟨r₂, hr₂, hl₂, -⟩ := hvalid
        exact ⟨r₂, hr₂, hl₂⟩
      · obtain ⟨r₂, hr₂, hl₂, -⟩ := hvalid hold
        exact ⟨r₂, hr₂, hl₂⟩
    obtain ⟨r₂, hr₂, hl₂⟩ := hlead
    rw [hterm, hr₁] at hr₂
    cases hr₂
    exact hsent q hmem (hl₂.symm.trans (hl₁.trans (hi.symm.trans hdst.symm)))
  · exact hrep.commit_rises hl hrise (by rw [hi]; exact hcommit)
  · rw [(hlive hl).quorumMask_fixed hinv rfl] at hmask
    exact ⟨mask, Except.ok.inj hmask, fun _ => id⟩

theorem Known.fixed (h : S.Known compacting w c) (hr : Net.Runs S.act FixedMembership c c') :
    ∃ w', w.Ext w' ∧ w.Rises w' ∧ S.Known compacting w' c' :=
  h.run (fun _ _ => trivial) (hr.mono fun _ _ _ => FixedMembership.permitted)

theorem apart (hr : Net.Runs S.act FixedMembership S.start c) : ∀ m ∈ c.sent, m.src ≠ m.dst :=
  (S.keepsApart.run ((Setup.arrives hr).mono fun _ _ _ h => h.2)).2

/-- A read that was started, in the cluster `u` that is the world `w`. -/
structure Started (S : Setup Disk) (r : Nat × UInt64) (w : World Nat Entry) (u : Cluster Disk)
    (n n' : Node Disk) : Prop where
  run : Net.Runs S.act FixedMembership S.start u
  known : S.Known compacting w u
  node : u.procs r.1 = some (.up n)
  sane : Sane n
  start : startReadIndex r.2 n = .ok true n'

namespace Started

variable {o : Prop} (h : Started S r w u n n')
include h

theorem rep : Rep compacting S.voters w r.1 n := (h.known.joined.procs _ _ h.node).2

theorem begins : ∃ m ready, Begins r.2 m ready n n' := startReadIndex_true h.sane.log h.start

theorem ready : Ready compacting S.voters True True w r.1 n n.commit := by
  obtain ⟨m, ready, hb⟩ := h.begins
  exact h.rep.ready_of_state (by rw [hb.leader]; decide)

theorem commit_eq : w.commit n.id = n.commit := by
  rw [h.ready.id]
  exact h.ready.live.1.commit_eq

theorem ripe : (n.barrier r.2 S.voters w o).Ripe w := by
  obtain ⟨m, ready, hb⟩ := h.begins
  exact hb.ripe_record h.rep h.known.joined.inv rfl o

/-- The read is followed as long as nobody uses its context again. -/
theorem follow (hu : Net.Runs S.act FixedMembership u c) (hf : S.Follows r w n o c)
    (hr : Net.Runs S.act (Spares r) c c') : S.Follows r w n o c' := by
  obtain ⟨m, ready, hb⟩ := h.begins
  have hkeeps := S.keepsWatch (b := n.barrier r.2 S.voters w o) (A := (· = n.term))
    (R := fun t v => t = n.term ∧ w.term v ≤ n.term) hb.nonzero (fun _ => id) fun _ _ => id
  have hadmit : Net.Runs S.act ((n.barrier r.2 S.voters w o).Admits (· = n.term)
      fun t v => t = n.term ∧ w.term v ≤ n.term) c c' := by
    refine hr.strengthen fun {c₁ i e p} hr₁ hp hq hact => ?_
    have hu₁ : Net.Runs S.act FixedMembership u c₁ := hu.trans (hr₁.mono fun _ _ _ hq => hq.1)
    obtain ⟨w', hx, hrise, hk⟩ := h.known.fixed hu₁
    exact admits hk hx hrise h.ripe h.commit_eq h.ready.id (apart (h.run.trans hu₁)) hp hq hact
  exact hadmit.keeps hkeeps.act hf.1 hf.2

/-- The messages that the method sends carry the term. -/
theorem outbound (hold : ∀ m ∈ n.outbound, Echoes r.1 r.2 (fun _ => False) (fun _ _ => False) m) :
    ∀ m ∈ n'.outbound, Echoes r.1 r.2 (· = n.term) (fun t v => t = n.term ∧ w.term v ≤ n.term) m := by
  obtain ⟨b, ready, hb⟩ := h.begins
  have hrun : (Op.startReadIndex r.2).run n = .ok () n' := startReadIndex_run h.start
  have hterm : n'.term = n.term := by
    obtain ⟨next, out, enq, heq⟩ := hb.after
    rw [heq]
  refine (Op.keepsChanges (I := fun n₁ => n.term ≤ n₁.term ∧ (n₁.term = n.term → ∀ m ∈ n₁.outbound,
    Echoes r.1 r.2 (· = n.term) (fun t v => t = n.term ∧ w.term v ≤ n.term) m)) h.sane
    ⟨Nat.le_refl _, fun _ m hm => ?_⟩ hrun fun {n₁ n₂} hs₁ h₁ hch => ?_).2.2 hterm
  · exact (hold m hm).mono (fun _ => False.elim) fun _ _ => False.elim
  · have hle := hch.term_le hs₁.log
    refine ⟨h₁.1.trans hle, fun heq m hm => ?_⟩
    have heq₁ : n₁.term = n.term := Nat.le_antisymm (heq ▸ hle) h₁.1
    rcases hch.sends hs₁.log hm with hm | hsend
    · exact h₁.2 heq₁ m hm
    · constructor
      · exact fun htype _ _ => (hsend.term (by rw [htype]; rfl)).trans heq₁
      · -- the method answers nobody
        intro htype _ hreject _
        obtain ⟨-, q, hop, -⟩ := hsend.stored htype hreject
        cases hop

/-- The method starts the read. -/
theorem stage : (n.barrier r.2 S.voters w True).Stage n' := by
  obtain ⟨b, ready, hb⟩ := h.begins
  have hearly : ∀ v, Mem v b → w.term v ≤ n.term := by
    intro v hv
    obtain ⟨rfl, h0, h64⟩ := nodeBit_ok hb.bit
    rw [(mem_bit h0 h64).mp hv, h.ready.id, h.rep.term_eq]
  obtain ⟨next, out, enq, rfl⟩ := hb.after
  refine .waiting trivial hb.leader rfl hearly fun hready => ?_
  have htrue : ready = true := hready
  have hq := hb.quorum
  rw [h.ready.live.quorumMask_fixed h.known.joined.inv rfl, htrue] at hq
  refine ⟨?_, b, Except.ok.inj hq, hearly⟩
  show n.commit ≤ if ready then n.commit else n.readIndex
  rw [if_pos htrue]

theorem follows (hold : Unread r u) :
    S.Follows r w n True ⟨Function.update u.procs r.1 (some (.up n')), u.sent⟩ := by
  have hid := h.ready.id
  refine ⟨fun j p hp => ?_, fun m hm => ?_⟩
  · dsimp only at hp
    by_cases hj : j = r.1
    · subst hj
      rw [Function.update_self] at hp
      cases hp
      obtain ⟨b, ready, hb⟩ := h.begins
      refine ⟨((Op.startReadIndex r.2).keepsChanges (I := fun _ => True) h.sane trivial
        (startReadIndex_run h.start) fun _ _ _ => trivial).1, ?_, fun m hm => ?_, fun _ => h.stage⟩
      · obtain ⟨next, out, enq, heq⟩ := hb.after
        rw [heq]
        exact hid
      · have := h.outbound (hold.1 _ _ h.node).2.outbound m hm
        rw [← hid] at this
        exact this
    · rw [Function.update_of_ne hj] at hp
      have hw := hold.1 j p hp
      cases p with
      | down store => trivial
      | up m =>
        refine ⟨hw.1, hw.2.id, fun q hq => ?_, fun hj' => absurd (hj'.trans hid) hj⟩
        show Echoes n.id r.2 _ _ q
        rw [hid]
        exact (hw.2.outbound q hq).mono (fun _ => False.elim) fun _ _ => False.elim
  · show Echoes n.id r.2 _ _ m
    rw [hid]
    exact (hold.2 m hm).mono (fun _ => False.elim) fun _ _ => False.elim

/-- If a majority was not in a later term when the read started, it covers what was committed. -/
theorem covers {i : Nat} {a : Node Disk} {w₀ : World Nat Entry} {c₀ : Cluster Disk}
    (hk : S.Known compacting w₀ c₀) (hx : w₀.Ext w) (ha : nodeAt c₀ i = some a)
    (hq : HasMajority S.voters fun v => w.term v ≤ n.term) : a.commit ≤ n.commit := by
  have hinv := h.known.joined.inv
  obtain ⟨-, hback⟩ := hk.joined.inv.backed_ext hx ((hk.joined.rep ha).backed hk.joined.inv)
  rcases hback with h0 | ⟨k, hcommit, -, hle, -⟩
  · omega
  · exact hle.trans ((h.ripe (o := True)).covers hinv h.known.owned rfl rfl h.commit_eq hq hcommit)

end Started

end Setup

/-! ## The result -/

/-- A read that is ready is open, and an early majority has answered. -/
theorem Barrier.Stage.answer {σ : Type} {b : Barrier} {n : Node σ} {index : Nat} (h : b.Stage n)
    (hs : Sane n) (hread : n.readIndex? b.context = some index) :
    b.Open ∧ b.index ≤ index ∧ HasMajority b.voters b.Early := by
  unfold Node.readIndex? at hread
  split at hread
  · cases hread
  · rename_i hno
    simp only [not_or, not_not, ne_eq, Bool.not_eq_false] at hno
    obtain ⟨hl, hctx, hready⟩ := hno
    cases hread
    cases h with
    | other h => exact absurd hctx.symm h
    | stopped h => cases (hs.stopped h).symm.trans hl
    | lost hr => cases hr.symm.trans hready
    | waiting ho _ _ _ hr => exact ⟨ho, hr hready⟩

/-- A cluster in which the node does not wait for the read follows it as one that is over. -/
theorem Setup.Follows.close {S : Setup Disk} {r : Nat × UInt64} {w : World Nat Entry} {n : Node Disk}
    {c : Cluster Disk} (h : S.Follows r w n True c) (hid : n.id = r.1)
    (hover : ∀ a, c.procs r.1 = some (.up a) → (n.barrier r.2 S.voters w False).Stage a) :
    S.Follows r w n False c := by
  refine ⟨fun j p hp => ?_, h.2⟩
  have hw := h.1 j p hp
  cases p with
  | down store => trivial
  | up a =>
    refine ⟨hw.1, hw.2.id, hw.2.outbound, fun hj => hover a ?_⟩
    rw [← hid, ← show j = n.id from hj]
    exact hp

namespace Reading

open Setup

variable {S : Setup Disk} {x₀ x y : Reading} {r : Nat × UInt64} {w₀ : World Nat Entry}

/-- The event that started a read, and what the cluster says about the read after it. -/
theorem Runs.follows (hc : r.2 ≠ 0) (h : Runs S ⟨S.start, []⟩ x) (hk : S.Known compacting w₀ x.cluster)
    (hrun : Runs S x y) (hx : r ∉ x.used) (hy : r ∈ y.used) : ∃ w u n n', w₀.Ext w ∧
      Started S r w u n n' ∧ Net.Runs S.act FixedMembership u y.cluster ∧
      S.Follows r w n True y.cluster := by
  obtain ⟨u, v, hu, hstart, hv⟩ := hrun.starts hx hy
  obtain ⟨w, hext, -, hkw⟩ := hk.fixed hu.fixed
  obtain ⟨n, n', hn, hstarted, hcl⟩ := hstart.node
  have hold : Unread r u.cluster := unread hc (Runs.spares (h.trans hu) (.inr hstart.unused))
  have hs : Started S r w u.cluster n n' :=
    ⟨Runs.fixed (h.trans hu), hkw, hn, (hold.1 _ _ hn).1, hstarted⟩
  have huv : Net.Runs S.act FixedMembership u.cluster v.cluster := .single hstart.step
  refine ⟨w, u.cluster, n, n', hext, hs, huv.trans hv.fixed, ?_⟩
  exact hs.follow huv (hcl ▸ hs.follows hold) (hv.spares (.inl hstart.used))

/-- A context that was used does not start a read again: the leader that waits for the read would
start it, and after that it is over. -/
theorem used_twice {i : Nat} {context : UInt64} {x₁ : Reading} {w : World Nat Entry}
    {u : Cluster Disk} {n n' : Node Disk} (hs : Started S (i, context) w u n n')
    (hu : Net.Runs S.act FixedMembership u x.cluster) (hf : S.Follows (i, context) w n True x.cluster)
    (hused : (i, context) ∈ x.used)
    (hcall : x.next S i (.call (.startReadIndex context)) = some x₁) :
    S.Follows (i, context) w n False x₁.cluster := by
  have hid : n.id = i := hs.ready.id
  have hspares : Net.Runs S.act (Spares (i, context)) x.cluster x₁.cluster :=
    .single (next_quiet hcall (.inl hused))
  obtain ⟨p, hp, -, hnext, hfresh, -⟩ := next_some hcall
  obtain ⟨p', out, hact, hcl⟩ := Net.next_some hp hnext
  cases p with
  | down store => cases hact
  | up a =>
    have hw := hf.1 _ _ hp
    have hover : ∀ {b : Node Disk}, (n.barrier context S.voters w False).Stage a →
        x.cluster.procs i = some (.up b) → (n.barrier context S.voters w False).Stage b := by
      intro b h hb
      rw [hp] at hb
      cases hb
      exact h
    cases hw.2.stage hid.symm with
    | other h => exact hs.follow hu (hf.close hid fun b => hover (.other h)) hspares
    | stopped h => exact hs.follow hu (hf.close hid fun b => hover (.stopped h)) hspares
    | lost hr h => exact hs.follow hu (hf.close hid fun b => hover (.lost hr h)) hspares
    | waiting _ hl ht =>
      obtain ⟨m, ready, hb⟩ := hs.begins
      cases hx : startReadIndex context a with
      | error err a' =>
        -- the node is down
        refine (hs.follow hu hf hspares).close hid fun b hb => ?_
        change (if True then some (Proc.after ((Op.startReadIndex context).run a), []) else none) =
          some (p', out) at hact
        rw [if_pos trivial, startReadIndex_panic hx] at hact
        cases hact
        rw [hcl] at hb
        dsimp only at hb
        rw [Function.update_self] at hb
        cases hb
      | ok ok a' =>
        cases ok with
        | true =>
          refine absurd hused (hfresh context ?_)
          show (if accepted (startReadIndex context a) then some context else none) = some context
          rw [hx]
          rfl
        | false =>
          obtain ⟨w', hext, hrise, hk⟩ := hs.known.fixed hu
          have hrep : Rep compacting S.voters w' i a := (hk.joined.procs _ _ hp).2
          rw [← hid] at hrep
          refine absurd (startReadIndex_false hw.1.log hx).2 ?_
          refine ((hs.ripe (o := True)).ext hext).not_declines hrep hk.joined.inv rfl hb.nonzero hl ht ?_
          exact hrep.commit_rises hl hrise hs.commit_eq

end Reading

theorem Reading.Runs.covers {S : Setup Disk} {x x₀ x₁ x₂ : Reading} {i j : Nat} {context : UInt64}
    (h : Reading.Runs S ⟨S.start, []⟩ x) (h₀ : Reading.Runs S x x₀)
    (hcall : x₀.next S i (.call (.startReadIndex context)) = some x₁) (h₂ : Reading.Runs S x₁ x₂)
    (hc : context ≠ 0) {n a : Node Disk} {index : Nat} (ha : nodeAt x.cluster j = some a)
    (hn : nodeAt x₂.cluster i = some n) (hread : n.readIndex? context = some index) :
    a.commit ≤ index := by
  have hstart : Reading.Runs S ⟨S.start, []⟩ x₀ := h.trans h₀
  have hrun : Reading.Runs S x₀ x₂ := .head ⟨i, _, hcall⟩ h₂
  have hn := procs_of_nodeAt hn
  obtain ⟨w, -, -, hk⟩ := Setup.Known.start.fixed h.fixed
  obtain ⟨w₀, hx₀, -, hk₀⟩ := hk.fixed h₀.fixed
  by_cases hused : (i, context) ∈ x₀.used
  · -- the context was used before, and the read is over
    obtain ⟨w₁, u, m, m', -, hs, hu, hf⟩ := Reading.Runs.follows (r := (i, context)) hc .refl
      Setup.Known.start hstart List.not_mem_nil hused
    have hf₁ := Reading.used_twice hs hu hf hused hcall
    have hu₁ := Relation.ReflTransGen.tail hu (Reading.next_fixed hcall)
    have hf₂ := hs.follow hu₁ hf₁ (h₂.spares (.inl (Reading.next_used hcall hused)))
    have hholds := hf₂.1 _ _ hn
    exact absurd ((hholds.2.stage hs.ready.id.symm).answer hholds.1 hread).1 id
  · -- the read is started after the caller asked for it
    have hlater : (i, context) ∈ x₂.used := by
      by_contra hno
      have hunread := Setup.unread (r := (i, context)) hc
        (Reading.Runs.spares (hstart.trans hrun) (.inr hno))
      have hholds := hunread.1 _ _ hn
      exact ((hholds.2.stage rfl).answer hholds.1 hread).1
    obtain ⟨w₁, u, m, m', hx₁, hs, -, hf⟩ := Reading.Runs.follows (r := (i, context)) hc hstart hk₀
      hrun hused hlater
    have hholds := hf.1 _ _ hn
    obtain ⟨-, hle, hq⟩ := (hholds.2.stage hs.ready.id.symm).answer hholds.1 hread
    exact (hs.covers hk (hx₀.trans hx₁) ha hq).trans hle

/-- The index of a read covers what any node had committed before the read was asked for. -/
theorem read_index_linearizable (S : Setup Disk) {x x₀ x₁ x₂ : Reading} {i j : Nat} {context : UInt64}
    (h : Reading.Runs S ⟨S.start, []⟩ x) (h₀ : Reading.Runs S x x₀)
    (hcall : x₀.next S i (.call (.startReadIndex context)) = some x₁) (h₂ : Reading.Runs S x₁ x₂)
    (hc : context ≠ 0) {n a : Node Disk} {index : Nat} (ha : nodeAt x.cluster j = some a)
    (hn : nodeAt x₂.cluster i = some n) (hread : n.readIndex? context = some index) :
    a.commit ≤ index := h.covers h₀ hcall h₂ hc ha hn hread

/-- The index of a read covers what the nodes have committed when the read is asked for. The context
may be anything, as a read without one is never ready. -/
theorem read_barrier_covers_commits (S : Setup Disk) {x₀ x₁ x₂ : Reading} {i j : Nat}
    {context : UInt64} (h : Reading.Runs S ⟨S.start, []⟩ x₀)
    (hcall : x₀.next S i (.call (.startReadIndex context)) = some x₁) (h₂ : Reading.Runs S x₁ x₂)
    {n a : Node Disk} {index : Nat} (ha : nodeAt x₀.cluster j = some a)
    (hn : nodeAt x₂.cluster i = some n) (hread : n.readIndex? context = some index) :
    a.commit ≤ index := by
  refine h.covers .refl hcall h₂ ?_ ha hn hread
  have hrun : Reading.Runs S ⟨S.start, []⟩ x₂ := h.trans (.head ⟨i, _, hcall⟩ h₂)
  have hnamed := (S.keepsReads.run (hrun.fixed.mono fun _ _ _ _ => trivial)).1 i n hn
  unfold Node.readIndex? at hread
  split at hread
  · cases hread
  · rename_i hno
    simp only [not_or, not_not, ne_eq, Bool.not_eq_false] at hno
    rw [hno.2.1]
    exact hnamed.2 hno.2.2

/-- Node 1 leads and has committed a command with node 2. -/
def committedScript : List (Move Disk) :=
  elected ++ Move.calls 1 (.propose 7) ++ Move.deliverAll [14, 16]

/-- Node 2 answers the read of node 1. -/
def answeredScript : List (Move Disk) := [Move.drain 1] ++ Move.deliverAll [19, 21]

theorem read_index_linearizable_trio : ∃ x₀ x₁ x₂ n a,
    Reading.Runs trio ⟨trio.start, []⟩ x₀ ∧
      x₀.next trio 1 (.call (.startReadIndex 9)) = some x₁ ∧ Reading.Runs trio x₁ x₂ ∧
      nodeAt x₂.cluster 1 = some n ∧ n.readIndex? 9 = some 2 ∧ nodeAt x₀.cluster 1 = some a ∧
      a.commit = 2 ∧ a.commit ≤ 2 := by
  have h : ((Reading.mk trio.start []).play trio committedScript).any (fun x₀ =>
      (nodeAt x₀.cluster 1).any fun a => (x₀.next trio 1 (.call (.startReadIndex 9))).any fun x₁ =>
        (x₁.play trio answeredScript).any fun x₂ => (nodeAt x₂.cluster 1).any fun n =>
          decide (n.readIndex? 9 = some 2 ∧ a.commit = 2)) = true := by
    decide +kernel
  simp only [Option.any_eq_true, decide_eq_true_eq] at h
  obtain ⟨x₀, h₀, a, ha, x₁, h₁, x₂, h₂, n, hn, hread, hcommit⟩ := h
  have hr₀ := Reading.Runs.of_play h₀
  have hr₂ := Reading.Runs.of_play h₂
  exact ⟨x₀, x₁, x₂, n, a, hr₀, h₁, hr₂, hn, hread, ha, hcommit,
    read_index_linearizable trio hr₀ .refl h₁ hr₂ (by decide) ha hn hread⟩

/-- Node 2 has committed the first entry when node 1 is asked for a read. -/
theorem read_barrier_covers_commits_follower : ∃ x₀ x₁ x₂ n a,
    Reading.Runs trio ⟨trio.start, []⟩ x₀ ∧
      x₀.next trio 1 (.call (.startReadIndex 9)) = some x₁ ∧ Reading.Runs trio x₁ x₂ ∧
      nodeAt x₂.cluster 1 = some n ∧ n.readIndex? 9 = some 2 ∧ nodeAt x₀.cluster 2 = some a ∧
      a.commit = 1 ∧ a.commit ≤ 2 := by
  have h : ((Reading.mk trio.start []).play trio committedScript).any (fun x₀ =>
      (nodeAt x₀.cluster 2).any fun a => (x₀.next trio 1 (.call (.startReadIndex 9))).any fun x₁ =>
        (x₁.play trio answeredScript).any fun x₂ => (nodeAt x₂.cluster 1).any fun n =>
          decide (n.readIndex? 9 = some 2 ∧ a.commit = 1)) = true := by
    decide +kernel
  simp only [Option.any_eq_true, decide_eq_true_eq] at h
  obtain ⟨x₀, h₀, a, ha, x₁, h₁, x₂, h₂, n, hn, hread, hcommit⟩ := h
  have hr₀ := Reading.Runs.of_play h₀
  have hr₂ := Reading.Runs.of_play h₂
  exact ⟨x₀, x₁, x₂, n, a, hr₀, h₁, hr₂, hn, hread, ha, hcommit,
    read_barrier_covers_commits trio hr₀ h₁ hr₂ ha hn hread⟩

end Promtact.Raft
