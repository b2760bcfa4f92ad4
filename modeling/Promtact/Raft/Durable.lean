import Promtact.Raft.Effects.Methods
import Promtact.Raft.Mirror
import Promtact.Raft.Wrap.Recover
import Mathlib.Data.List.Induction

/-!
# Nothing is sent that is not durable

A node on a store that may fail in any way: `Logged` remembers the calls that returned nil. A run of
the node (with 64-bit numbers) is a list of calls of its methods and of `Drain`, and of restarts
from what the store has accepted. `Node.enqueued` has every message with the store as it was when
the message was enqueued, so with the calls that were accepted before it.

* `Backed`: the store has accepted what the message promises.
* `StaysInRange`: no number of the node wraps around in the run.
* `sent_after_stored`: in every run that stays in range, every message was backed when it was enqueued.
* `zero_term_is_not_stored`: at term 0, before anything was saved, a node does answer; and a node whose
  term has wrapped around to 0 votes in a term again, for another candidate.
-/

namespace Promtact.Raft

open Refine

/-- A call of the stable store, with its arguments. -/
inductive StoreCall where
  | saveHardState (h : HardState)
  | append (index : Nat) (entry : Entry)
  | saveSnapshot (snapshot : Snapshot)
  | compactLog (index : Nat)
  deriving DecidableEq, Repr

/-- A store, and the calls that it accepted. -/
structure Logged (σ : Type) where
  store : σ
  calls : List StoreCall := []

variable {σ : Type}

/-- A call that succeeds is recorded. -/
def Logged.call (c : StoreCall) (x : EStateM StorageError σ Unit) :
    EStateM StorageError (Logged σ) Unit := fun s =>
  match x s.store with
  | .ok _ store => .ok () { store, calls := s.calls ++ [c] }
  | .error e store => .error e { s with store }

instance [StableStore σ] : StableStore (Logged σ) where
  saveHardState h := Logged.call (.saveHardState h) (StableStore.saveHardState h)
  append index entry := Logged.call (.append index entry) (StableStore.append index entry)
  isSnapshotStore := StableStore.isSnapshotStore σ
  saveSnapshot snapshot := Logged.call (.saveSnapshot snapshot) (StableStore.saveSnapshot snapshot)
  compactLog index := Logged.call (.compactLog index) (StableStore.compactLog index)

theorem Logged.call_ok {c : StoreCall} {x : EStateM StorageError σ Unit} {s s' : Logged σ}
    (h : Logged.call c x s = .ok () s') : s'.calls = s.calls ++ [c] := by
  unfold Logged.call at h
  split at h
  · cases h; rfl
  · cases h

theorem Logged.call_error {c : StoreCall} {x : EStateM StorageError σ Unit} {s s' : Logged σ}
    {e : StorageError} (h : Logged.call c x s = .error e s') : s'.calls = s.calls := by
  unfold Logged.call at h
  split at h
  · cases h
  · cases h; rfl

/-! ## What the calls leave -/

/-- What is durable after a call. -/
def Recovery.after (d : Recovery) : StoreCall → Recovery
  | .saveHardState hard => { d with hard }
  | .append index entry => d.append index entry
  | .saveSnapshot snapshot => d.install snapshot
  | .compactLog _ => d

/-- What a list of calls leaves in an empty store. -/
def durable (cs : List StoreCall) : Recovery := cs.foldl Recovery.after {}

theorem durable_append (cs : List StoreCall) (c : StoreCall) :
    durable (cs ++ [c]) = (durable cs).after c := by
  rw [durable, List.foldl_append]
  rfl

/-! ## Runs of one node -/

/-- The store when it is opened again. A log that was not released below the last snapshot is
released (`raftstore.Open`). -/
def Logged.reopen (s : Logged σ) : Logged σ :=
  match s.calls.getLast? with
  | some (.saveSnapshot snapshot) =>
    { s with calls := s.calls ++ [.compactLog snapshot.lastIndex] }
  | _ => s

/-- What happens to one node: a method, a drained queue, or a restart from the store. -/
inductive Act where
  | call (op : Op)
  | drain
  | restart (peers : List Nat) (electionTimeout : Nat)
  deriving DecidableEq, Repr

/-- The node after the acts, and what was drained. A method that panics ends the run. -/
def runActs [StableStore σ] :
    List Act → Node (Logged σ) → List Message → Option (Node (Logged σ) × List Message)
  | [], n, out => some (n, out)
  | .call op :: acts, n, out =>
    match Wrap.run op n with
    | .ok _ n => runActs acts n out
    | .error _ _ => none
  | .drain :: acts, n, out =>
    match drain n with
    | .ok ms n => runActs acts n (out ++ ms)
    | .error _ _ => none
  | .restart peers electionTimeout :: acts, n, out =>
    match Wrap.recover n.id peers electionTimeout n.store.reopen (durable n.store.calls) with
    | .ok n' => runActs acts { n' with enqueued := n.enqueued } out
    | .error _ => none

/-- No number of the node wraps around in the run: every call is in range, and so is the last index
of what a restart finds. -/
def StaysInRange [StableStore σ] : List Act → Node (Logged σ) → Bool
  | [], _ => true
  | .call op :: acts, n =>
    decide (Wrap.InRange n op) &&
      match Wrap.run op n with
      | .ok _ n => StaysInRange acts n
      | .error _ _ => true
  | .drain :: acts, n => StaysInRange acts { n with outbound := [] }
  | .restart peers electionTimeout :: acts, n =>
    decide ((durable n.store.calls).lastIndex + 1 < 2 ^ 64) &&
      match Wrap.recover n.id peers electionTimeout n.store.reopen (durable n.store.calls) with
      | .ok n' => StaysInRange acts { n' with enqueued := n.enqueued }
      | .error _ => true

/-! ## What a message promises -/

/-- The hard state of term `t` with the vote for `id` was saved, and no other vote of this term
after it. -/
def Voted (before after : List StoreCall) (t id : Nat) : Prop :=
  ∃ a b commit, before = a ++ .saveHardState { term := t, votedFor := id, commit } :: b ∧
    ∀ h, .saveHardState h ∈ b ++ after → h.term = t → h.votedFor = id

/-- A snapshot was saved and the log below it released. -/
def Compacted (before : List StoreCall) (index : Nat) : Prop :=
  ∃ a b snapshot, before = a ++ .saveSnapshot snapshot :: .compactLog index :: b ∧
    snapshot.lastIndex = index

/-- The entry at `k` was appended and is durable, or a snapshot that covers it was saved. -/
def Kept (before : List StoreCall) (k : Nat) : Prop :=
  (∃ snapshot, .saveSnapshot snapshot ∈ before ∧ k ≤ snapshot.lastIndex) ∨
  ∃ e, (durable before).suffix[k - (durable before).base - 1]? = some e ∧ .append k e ∈ before

/-- The commit index is that of the last hard state, or a snapshot that covers it was saved. -/
def CommitKept (before : List StoreCall) (commit : Nat) : Prop :=
  (durable before).hard.commit = commit ∨
    ∃ snapshot, .saveSnapshot snapshot ∈ before ∧ commit ≤ snapshot.lastIndex

/-- What the store has accepted before the message `m` was enqueued, and after. -/
structure Backed (before after : List StoreCall) (m : Message) (commit : Nat) : Prop where
  term : m.type.isPreVote = false → m.term ≠ 0 → ∃ h, .saveHardState h ∈ before ∧ h.term = m.term
  granted : m.type = .requestVoteResponse → m.reject = false → Voted before after m.term m.dst
  requested : m.type = .requestVote → Voted before after m.term m.src
  stored : m.type = .appendResponse → m.reject = false →
    (∀ k, 0 < k → k ≤ m.matchIndex → Kept before k) ∧ CommitKept before commit
  installed : m.type = .installSnapshotResponse → m.reject = false → m.matchIndex ≠ 0 →
    Compacted before m.matchIndex

/-! ## The hard states of a run -/

/-- The last hard state that was saved, if any was. -/
theorem durable_hard (cs : List StoreCall) :
    ((durable cs).hard = {} ∧ ∀ h, .saveHardState h ∉ cs) ∨
      ∃ a b, cs = a ++ .saveHardState (durable cs).hard :: b ∧ ∀ h, .saveHardState h ∉ b := by
  induction cs using List.reverseRecOn with
  | nil => exact .inl ⟨rfl, fun _ => List.not_mem_nil⟩
  | append_singleton cs c ih =>
    rw [durable_append]
    have not_mem : ∀ {b : List StoreCall}, (∀ h, c ≠ .saveHardState h) → (∀ h, .saveHardState h ∉ b) →
        ∀ h, .saveHardState h ∉ b ++ [c] := by
      intro b hc hb h hmem
      rcases List.mem_append.mp hmem with hmem | hmem
      · exact hb h hmem
      · exact hc h (List.mem_singleton.mp hmem).symm
    have other : (∀ h, c ≠ .saveHardState h) → ((durable cs).after c).hard = (durable cs).hard →
        (((durable cs).after c).hard = {} ∧ ∀ h, .saveHardState h ∉ cs ++ [c]) ∨ ∃ a b, cs ++ [c] =
          a ++ .saveHardState ((durable cs).after c).hard :: b ∧ ∀ h, .saveHardState h ∉ b := by
      intro hc heq
      rw [heq]
      refine ih.imp (fun h => ⟨h.1, not_mem hc h.2⟩) ?_
      rintro ⟨a, b, hcs, hb⟩
      exact ⟨a, b ++ [c], by rw [← List.cons_append, ← List.append_assoc, ← hcs], not_mem hc hb⟩
    cases c with
    | saveHardState h => exact .inr ⟨cs, [], rfl, fun _ => List.not_mem_nil⟩
    | append k e => exact other nofun rfl
    | saveSnapshot snapshot => exact other nofun rfl
    | compactLog k => exact other nofun rfl

theorem durable_hard_mem (cs : List StoreCall) :
    (durable cs).hard = {} ∨ .saveHardState (durable cs).hard ∈ cs := by
  refine (durable_hard cs).imp And.left ?_
  rintro ⟨a, b, hcs, -⟩
  have hmem : .saveHardState (durable cs).hard ∈ a ++ .saveHardState (durable cs).hard :: b :=
    List.mem_append_right _ List.mem_cons_self
  rwa [← hcs] at hmem

/-- No hard state takes back a term or a vote. -/
def Steady (cs : List StoreCall) : Prop :=
  cs.Pairwise fun c c' => ∀ h h', c = .saveHardState h → c' = .saveHardState h' → h.KeptBy h'

theorem Steady.last {cs : List StoreCall} (hs : Steady cs) {h : HardState}
    (hmem : .saveHardState h ∈ cs) : h.KeptBy (durable cs).hard := by
  rcases durable_hard cs with ⟨-, hnone⟩ | ⟨a, b, hcs, hb⟩
  · exact absurd hmem (hnone h)
  · generalize (durable cs).hard = last at hcs ⊢
    subst hcs
    rcases List.mem_append.mp hmem with hmem | hmem
    · exact (List.pairwise_append.mp hs).2.2 _ hmem _ List.mem_cons_self _ _ rfl rfl
    · rcases List.mem_cons.mp hmem with heq | hmem
      · cases heq
        exact ⟨Nat.le_refl _, fun _ _ => rfl⟩
      · exact absurd hmem (hb h)

theorem Steady.save {cs : List StoreCall} (hs : Steady cs) {h : HardState}
    (hk : (durable cs).hard.KeptBy h) : Steady (cs ++ [.saveHardState h]) := by
  refine List.pairwise_append.mpr ⟨hs, List.pairwise_singleton _ _, ?_⟩
  rintro c hc _ hc' h₁ _ rfl rfl
  cases List.mem_singleton.mp hc'
  exact (hs.last hc).trans hk

theorem Steady.other {cs : List StoreCall} (hs : Steady cs) {c : StoreCall}
    (hc : ∀ h, c ≠ .saveHardState h) : Steady (cs ++ [c]) := by
  refine List.pairwise_append.mpr ⟨hs, List.pairwise_singleton _ _, ?_⟩
  rintro c' - _ hc' _ h' - rfl
  exact absurd (List.mem_singleton.mp hc').symm (hc h')

theorem Voted.of_last {before after : List StoreCall} {t id : Nat} (hs : Steady (before ++ after))
    (ht : (durable before).hard.term = t) (hv : (durable before).hard.votedFor = id) (hid : id ≠ 0) :
    Voted before after t id := by
  rcases durable_hard before with ⟨h, -⟩ | ⟨a, b, hcs, hb⟩
  · rw [h] at hv
    exact absurd hv.symm hid
  refine ⟨a, b, (durable before).hard.commit, ?_, fun h hmem hterm => ?_⟩
  · rw [← ht, ← hv]
    exact hcs
  · rcases List.mem_append.mp hmem with hmem | hmem
    · exact absurd hmem (hb h)
    · have hlast : .saveHardState (durable before).hard ∈ before := by
        refine (durable_hard_mem before).resolve_left fun h => hid ?_
        rw [← hv, h]
      have hkept := (List.pairwise_append.mp hs).2.2 _ hlast _ hmem _ _ rfl rfl
      rw [← hv]
      exact hkept.2 (ht.trans hterm.symm) (hv ▸ hid)

/-! ## Every message is backed -/

/-- What `Backed` says about the calls before the message. -/
structure Prompt (before : List StoreCall) (m : Message) (commit : Nat) : Prop where
  term : m.type.isPreVote = false → (durable before).hard.term = m.term
  granted : m.type = .requestVoteResponse → m.reject = false →
    (durable before).hard.votedFor = m.dst ∧ m.dst ≠ 0
  requested : m.type = .requestVote → (durable before).hard.votedFor = m.src ∧ m.src ≠ 0
  stored : m.type = .appendResponse → m.reject = false →
    (∀ k, 0 < k → k ≤ m.matchIndex → Kept before k) ∧ CommitKept before commit
  installed : m.type = .installSnapshotResponse → m.reject = false → m.matchIndex ≠ 0 →
    Compacted before m.matchIndex

theorem Prompt.backed {before after : List StoreCall} {m : Message} {commit : Nat}
    (h : Prompt before m commit) (hs : Steady (before ++ after)) :
    Backed before after m commit where
  term hpre hne := by
    refine ⟨_, (durable_hard_mem before).resolve_left fun hd => hne ?_, h.term hpre⟩
    rw [← h.term hpre, hd]
  granted ht hr := by
    obtain ⟨hv, hne⟩ := h.granted ht hr
    exact .of_last hs (h.term (by rw [ht]; rfl)) hv hne
  requested ht := by
    obtain ⟨hv, hne⟩ := h.requested ht
    exact .of_last hs (h.term (by rw [ht]; rfl)) hv hne
  stored := h.stored
  installed := h.installed

/-! ## The calls of a node -/

theorem durable_snapshot_mem (cs : List StoreCall) :
    (durable cs).snapshot = {} ∨ .saveSnapshot (durable cs).snapshot ∈ cs := by
  induction cs using List.reverseRecOn with
  | nil => exact .inl rfl
  | append_singleton cs c ih =>
    rw [durable_append]
    cases c with
    | saveSnapshot snapshot => exact .inr (List.mem_append_right _ List.mem_cons_self)
    | saveHardState | append | compactLog => exact ih.imp_right (List.mem_append_left _)

/-- There is no snapshot, or the log below it is released. -/
def Released (cs : List StoreCall) : Prop :=
  (durable cs).snapshot = {} ∨ Compacted cs (durable cs).base

theorem Compacted.append {cs : List StoreCall} {index : Nat} (h : Compacted cs index)
    (cs' : List StoreCall) : Compacted (cs ++ cs') index := by
  obtain ⟨a, b, snapshot, rfl, hs⟩ := h
  exact ⟨a, b ++ cs', snapshot, by rw [List.append_assoc]; rfl, hs⟩

theorem Released.call {cs : List StoreCall} (h : Released cs) {c : StoreCall}
    (hc : ((durable cs).after c).snapshot = (durable cs).snapshot) : Released (cs ++ [c]) := by
  rw [Released, durable_append, Recovery.base, hc]
  exact h.imp_right (·.append [c])

/-- What holds of the calls that the store accepted from a node, also after a call that failed. -/
structure Coherent (cs : List StoreCall) : Prop where
  steady : Steady cs
  snapshots : ∀ snapshot, .saveSnapshot snapshot ∈ cs → 0 < snapshot.lastIndex
  appended : ∀ j e, (durable cs).suffix[j]? = some e → .append ((durable cs).base + 1 + j) e ∈ cs
  released : Released cs ∨ ∃ a, cs = a ++ [.saveSnapshot (durable cs).snapshot]

namespace Coherent

variable {cs : List StoreCall}

theorem nil : Coherent [] := by
  refine ⟨List.Pairwise.nil, fun _ hs => ?_, fun _ _ he => ?_, .inl (.inl rfl)⟩
  · cases hs
  · cases he

/-- A call that leaves the snapshot. -/
theorem call (h : Coherent cs) (hset : Released cs) {c : StoreCall} (hs : Steady (cs ++ [c]))
    (hc : ∀ snapshot, c ≠ .saveSnapshot snapshot)
    (hsnap : ((durable cs).after c).snapshot = (durable cs).snapshot)
    (happ : ∀ j e, ((durable cs).after c).suffix[j]? = some e →
      .append ((durable cs).base + 1 + j) e ∈ cs ++ [c]) : Coherent (cs ++ [c]) := by
  refine ⟨hs, fun snapshot hmem => ?_, ?_, .inl (hset.call hsnap)⟩
  · rcases List.mem_append.mp hmem with hmem | hmem
    · exact h.snapshots snapshot hmem
    · exact absurd (List.mem_singleton.mp hmem).symm (hc snapshot)
  · rw [durable_append, Recovery.base, hsnap]
    exact happ

theorem saveHardState (h : Coherent cs) (hset : Released cs) {hard : HardState}
    (hk : (durable cs).hard.KeptBy hard) : Coherent (cs ++ [.saveHardState hard]) :=
  h.call hset (h.steady.save hk) nofun rfl fun j e he =>
    List.mem_append_left _ (h.appended j e he)

theorem append (h : Coherent cs) (hset : Released cs) {k : Nat} {entry : Entry}
    (hk : (durable cs).base < k ∧ k ≤ (durable cs).lastIndex + 1) :
    Coherent (cs ++ [.append k entry]) := by
  refine h.call hset (h.steady.other nofun) nofun rfl fun j e he => ?_
  have hlen : ((durable cs).suffix.take (k - (durable cs).base - 1)).length =
      k - (durable cs).base - 1 := by
    rw [List.length_take]
    unfold Recovery.lastIndex at hk
    omega
  change ((durable cs).suffix.take _ ++ [entry])[j]? = some e at he
  by_cases hj : j < k - (durable cs).base - 1
  · rw [List.getElem?_append_left (by omega), List.getElem?_take_of_lt hj] at he
    exact List.mem_append_left _ (h.appended j e he)
  · rw [List.getElem?_append_right (by omega), hlen] at he
    obtain ⟨hz, -⟩ := List.getElem?_eq_some_iff.mp he
    rw [List.length_singleton] at hz
    rw [show j - (k - (durable cs).base - 1) = 0 by omega] at he
    cases he
    rw [show (durable cs).base + 1 + j = k by omega]
    exact List.mem_append_right _ List.mem_cons_self

theorem saveSnapshot (h : Coherent cs) {snapshot : Snapshot} (hpos : 0 < snapshot.lastIndex) :
    Coherent (cs ++ [.saveSnapshot snapshot]) := by
  refine ⟨h.steady.other nofun, fun snapshot' hmem => ?_, fun j e he => ?_, .inr ⟨cs, ?_⟩⟩
  · rcases List.mem_append.mp hmem with hmem | hmem
    · exact h.snapshots snapshot' hmem
    · cases List.mem_singleton.mp hmem
      exact hpos
  · rw [durable_append] at he ⊢
    change (if _ then _ else _ : List Entry)[j]? = some e at he
    split at he
    · rename_i ht
      have hb : (durable cs).base ≤ snapshot.lastIndex := by
        by_contra hlt
        rw [Recovery.termAt, if_pos (Nat.lt_of_not_le hlt)] at ht
        cases ht
      rw [List.getElem?_drop] at he
      have hmem := h.appended _ e he
      rw [show (durable cs).base + 1 + (snapshot.lastIndex - (durable cs).base + j) =
        snapshot.lastIndex + 1 + j by omega] at hmem
      exact List.mem_append_left _ hmem
    · cases he
  · rw [durable_append]
    rfl

/-- The log is released below the last snapshot. -/
theorem compactLog {snapshot : Snapshot} (h : Coherent (cs ++ [.saveSnapshot snapshot])) :
    Coherent (cs ++ [.saveSnapshot snapshot] ++ [.compactLog snapshot.lastIndex]) ∧
      Released (cs ++ [.saveSnapshot snapshot] ++ [.compactLog snapshot.lastIndex]) := by
  have hset : Released (cs ++ [.saveSnapshot snapshot] ++ [.compactLog snapshot.lastIndex]) := by
    refine .inr ?_
    rw [durable_append, durable_append]
    exact ⟨cs, [], snapshot, by rw [List.append_assoc]; rfl, rfl⟩
  refine ⟨⟨h.steady.other nofun, fun snapshot' hmem => ?_, fun j e he => ?_, .inl hset⟩, hset⟩
  · rcases List.mem_append.mp hmem with hmem | hmem
    · exact h.snapshots snapshot' hmem
    · cases List.mem_singleton.mp hmem
  · rw [durable_append] at he ⊢
    exact List.mem_append_left _ (h.appended j e he)

end Coherent

/-- What holds of the calls of a node that has not stopped. -/
structure Current (n : Node (Logged σ)) (cs : List StoreCall) : Prop where
  mirrors : Mirrors n (durable cs)
  commit : CommitKept cs n.commit
  released : Released cs

theorem CommitKept.append {cs : List StoreCall} {commit : Nat} (h : CommitKept cs commit)
    {cs' : List StoreCall} (hc : (durable (cs ++ cs')).hard = (durable cs).hard) :
    CommitKept (cs ++ cs') commit := by
  rw [CommitKept, hc]
  refine h.imp_right ?_
  rintro ⟨snapshot, hmem, hle⟩
  exact ⟨snapshot, List.mem_append_left _ hmem, hle⟩

namespace Current

variable {n₀ n n' : Node (Logged σ)} {op : Op} {cs : List StoreCall}

theorem frame (h : Current n cs) (hm : Mirrors n' (durable cs)) (hc : n'.commit = n.commit) :
    Current n' cs :=
  ⟨hm, hc ▸ h.commit, h.released⟩

theorem persist (h : Current n cs) {hard : HardState} (hp : Persist op n hard n') (s : Logged σ) :
    Current { n' with store := s } (cs ++ [.saveHardState hard]) := by
  refine ⟨?_, .inl ?_, h.released.call rfl⟩
  · rw [durable_append]
    exact h.mirrors.persist hp s
  · rw [durable_append]
    cases hp <;> rfl

theorem append (h : Current n cs) {k : Nat} {e : Entry} (hk : n.baseIndex < k) (s : Logged σ) :
    Current { n with store := s, log := n.extend k e } (cs ++ [.append k e]) := by
  refine ⟨?_, h.commit.append (by rw [durable_append]; rfl), h.released.call rfl⟩
  rw [durable_append]
  exact h.mirrors.append hk s

theorem save (h : Current n cs) {snapshot : Snapshot} (hp : Save op n₀ n snapshot n') (s : Logged σ)
    (hset : Released (cs ++ [.saveSnapshot snapshot] ++ [.compactLog snapshot.lastIndex])) :
    Current { n' with store := s }
      (cs ++ [.saveSnapshot snapshot] ++ [.compactLog snapshot.lastIndex]) := by
  have hd : durable (cs ++ [.saveSnapshot snapshot] ++ [.compactLog snapshot.lastIndex]) =
      (durable cs).install snapshot := by
    rw [durable_append, durable_append]
    rfl
  refine ⟨by rw [hd]; exact h.mirrors.save hp s, ?_, hset⟩
  have hkept : CommitKept (cs ++ [.saveSnapshot snapshot] ++ [.compactLog snapshot.lastIndex])
      n.commit := by
    rw [List.append_assoc] at hd ⊢
    exact h.commit.append (by rw [hd]; rfl)
  cases hp with
  | own => exact hkept
  | @install m =>
    show CommitKept _ (max n.commit m.snapshotIndex)
    by_cases hle : n.commit ≤ m.snapshotIndex
    · rw [Nat.max_eq_right hle]
      exact .inr ⟨m.toSnapshot, List.mem_append_left _ (List.mem_append_right _ List.mem_cons_self),
        Nat.le_refl _⟩
    · rw [Nat.max_eq_left (by omega)]
      exact hkept

theorem kept (h : Current n cs) (hc : Coherent cs) {k : Nat} (hpos : 0 < k) (hk : k ≤ n.lastIndex) :
    Kept cs k := by
  by_cases hb : k ≤ (durable cs).base
  · refine .inl ⟨(durable cs).snapshot, (durable_snapshot_mem cs).resolve_left fun h0 => ?_, hb⟩
    rw [Recovery.base, h0] at hb
    exact absurd hb (Nat.not_le.mpr hpos)
  · have hlast := h.mirrors.lastIndex
    unfold Recovery.lastIndex at hlast
    obtain ⟨e, he⟩ : ∃ e, (durable cs).suffix[k - (durable cs).base - 1]? = some e :=
      ⟨_, List.getElem?_eq_getElem (by omega)⟩
    have hmem := hc.appended _ e he
    rw [show (durable cs).base + 1 + (k - (durable cs).base - 1) = k by omega] at hmem
    exact .inr ⟨e, he, hmem⟩

/-- A message is backed when it is sent. -/
theorem prompt (h : Current n cs) (hc : Coherent cs) (hid : 0 < n.id) {m : Message} [StableStore σ]
    (hm : n.MaySend op m) : Prompt cs m n.commit where
  term hpre := h.mirrors.term.trans (hm.term hpre).symm
  granted ht hr := ⟨h.mirrors.votedFor.trans (hm.granted ht hr).1.symm, (hm.granted ht hr).2⟩
  requested ht := by
    rw [hm.src]
    exact ⟨h.mirrors.votedFor.trans (hm.requestVote ht), Nat.ne_of_gt hid⟩
  stored ht hr :=
    ⟨fun _ hpos hk => h.kept hc hpos (hk.trans (hm.stored ht hr).1), h.commit⟩
  installed ht hr hne := by
    have hbase := (hm.installed ht hr).trans h.mirrors.base.symm
    rw [hbase] at hne ⊢
    exact h.released.resolve_left fun h0 => hne (by rw [Recovery.base, h0])

end Current

/-! ## Runs -/

/-- A run that has drained `out`. -/
structure Traced (out : List Message) (n : Node (Logged σ)) : Prop where
  sends : (out ++ n.outbound).Sublist (n.enqueued.map (·.message))
  prompt : ∀ e ∈ n.enqueued, e.store.calls <+: n.store.calls ∧
    Prompt e.store.calls e.message e.commit
  id : 0 < n.id
  coherent : Coherent n.store.calls
  current : n.faulted = false → Current n n.store.calls

namespace Traced

variable {out : List Message} {n₀ n n' : Node (Logged σ)} {op : Op}

/-- The store accepts calls, and nothing is sent. -/
theorem record (h : Traced out n) (cs : List StoreCall)
    (hcalls : n'.store.calls = n.store.calls ++ cs) (hid : n'.id = n.id)
    (hout : n'.outbound = n.outbound ∨ n'.outbound = []) (henq : n'.enqueued = n.enqueued)
    (hc : Coherent (n.store.calls ++ cs))
    (hcur : n'.faulted = false → Current n' (n.store.calls ++ cs)) : Traced out n' where
  sends := by
    rw [henq]
    rcases hout with hout | hout <;> rw [hout]
    · exact h.sends
    · rw [List.append_nil]
      exact (List.sublist_append_left _ _).trans h.sends
  prompt e he := by
    rw [henq] at he
    rw [hcalls]
    exact ⟨(h.prompt e he).1.trans (List.prefix_append _ _), (h.prompt e he).2⟩
  id := hid ▸ h.id
  coherent := hcalls ▸ hc
  current hf := hcalls ▸ hcur hf

/-- No call is accepted, and nothing is sent. -/
theorem quiet (h : Traced out n) (hcalls : n'.store.calls = n.store.calls) (hid : n'.id = n.id)
    (hout : n'.outbound = n.outbound ∨ n'.outbound = []) (henq : n'.enqueued = n.enqueued)
    (hcur : n'.faulted = false → Current n' n.store.calls) : Traced out n' :=
  h.record [] (by rw [hcalls, List.append_nil]) hid hout henq
    (by rw [List.append_nil]; exact h.coherent) (by rw [List.append_nil]; exact hcur)

theorem send [StableStore σ] (h : Traced out n) {m : Message} (hm : n.MaySend op m) :
    Traced out (n.enqueue m) where
  sends := by
    show (out ++ (n.outbound ++ [m])).Sublist ((n.enqueued ++ [_]).map _)
    rw [← List.append_assoc, List.map_append]
    exact h.sends.append (List.Sublist.refl _)
  prompt e he := by
    rcases List.mem_append.mp he with he | he
    · exact h.prompt e he
    · rw [List.mem_singleton.mp he]
      exact ⟨List.prefix_refl _, (h.current hm.running).prompt h.coherent h.id hm⟩
  id := h.id
  coherent := h.coherent
  current hf := (h.current hf).frame ((h.current hf).mirrors.frame rfl rfl rfl rfl rfl) rfl

/-- One effect of a method. -/
theorem effect [StableStore σ] (h : Traced out n) (hs : Sane n) (he : Effect op n₀ n n') :
    Traced out n' := by
  cases he with
  | volatile hv _ =>
    refine h.quiet (congrArg Logged.calls hv.store) hv.id (.inl (hv.outbound))
      (congrArg Core.enqueued hv.core) fun hf => ?_
    have hc := h.current (hv.faulted ▸ hf)
    exact hc.frame (hc.mirrors.of_core hv.core) hv.commit
  | send hm => exact h.send hm
  | @persist n' hard s hr hp hst =>
    have hc := h.current hr
    have hcalls : s.calls = n.store.calls ++ [.saveHardState hard] := Logged.call_ok hst
    refine h.record [.saveHardState hard] hcalls ?_ ?_ ?_
      (h.coherent.saveHardState hc.released (hc.mirrors.keptBy hp)) fun _ => hc.persist hp _
    · cases hp <;> rfl
    · cases hp <;> exact .inl rfl
    · cases hp <;> rfl
  | @append k e s hr he hst =>
    have hc := h.current hr
    have hk := he.range hs.log
    have hcalls : s.calls = n.store.calls ++ [.append k e] := Logged.call_ok hst
    refine h.record [.append k e] hcalls rfl (.inl rfl) rfl (h.coherent.append hc.released ?_)
      fun _ => hc.append hk.1 _
    rw [hc.mirrors.base, hc.mirrors.lastIndex]
    exact hk
  | @save n' snapshot s s' hp hst hst' =>
    obtain ⟨hc, hset⟩ := (h.coherent.saveSnapshot (Nat.zero_lt_of_lt hp.above_base)).compactLog
    have hcur : n.faulted = false → Current { n' with store := s' } _ :=
      fun hf => (h.current hf).save hp s' hset
    rw [List.append_assoc] at hc hcur
    have hcalls : s'.calls = n.store.calls ++
        ([.saveSnapshot snapshot] ++ [.compactLog snapshot.lastIndex]) := by
      rw [← List.append_assoc, ← Logged.call_ok hst]
      exact Logged.call_ok hst'
    refine h.record _ hcalls ?_ ?_ ?_ hc fun hf => hcur ?_
    · cases hp <;> rfl
    · cases hp <;> exact .inl rfl
    · cases hp <;> rfl
    · cases hp <;> exact hf
  | @compactError n' snapshot e s s' hp hst hst' =>
    have hcalls : s'.calls = n.store.calls ++ [.saveSnapshot snapshot] :=
      (Logged.call_error hst').trans (Logged.call_ok hst)
    exact h.record [.saveSnapshot snapshot] hcalls rfl (.inr rfl) rfl
      (h.coherent.saveSnapshot (Nat.zero_lt_of_lt hp.above_base)) nofun
  | persistError hp hst => exact h.quiet (Logged.call_error hst) rfl (.inr rfl) rfl nofun
  | appendError he hst hn =>
    have hcalls := congrArg Logged.calls hn.store
    exact h.quiet (hcalls.trans (Logged.call_error hst)) hn.id (.inr rfl)
      (congrArg Core.enqueued hn.core) nofun
  | saveError hp hst => exact h.quiet (Logged.call_error hst) rfl (.inr rfl) rfl nofun
  | noSnapshotStore hp hst => exact h.quiet rfl rfl (.inr rfl) rfl nofun
  | lead | read | readAck | readReady | apply =>
    refine h.quiet rfl rfl (.inl rfl) rfl fun hf => ?_
    exact (h.current hf).frame ((h.current hf).mirrors.frame rfl rfl rfl rfl rfl) rfl

theorem drain (h : Traced out n) : Traced (out ++ n.outbound) { n with outbound := [] } where
  sends := by
    rw [List.append_nil]
    exact h.sends
  prompt := h.prompt
  id := h.id
  coherent := h.coherent
  current hf := (h.current hf).frame ((h.current hf).mirrors.frame rfl rfl rfl rfl rfl) rfl

/-- The store releases its log if a restart finds it unreleased. -/
theorem reopen (h : Traced out n) : ∃ cs, n.store.reopen.calls = n.store.calls ++ cs ∧
    durable n.store.reopen.calls = durable n.store.calls ∧ Coherent n.store.reopen.calls ∧
    Released n.store.reopen.calls := by
  unfold Logged.reopen
  split
  · rename_i snapshot hlast
    obtain ⟨a, ha⟩ := List.getLast?_eq_some_iff.mp hlast
    have hc := h.coherent
    rw [ha] at hc
    refine ⟨_, rfl, by rw [durable_append]; rfl, ?_⟩
    rw [ha]
    exact hc.compactLog
  · rename_i hlast
    refine ⟨[], (List.append_nil _).symm, rfl, h.coherent, h.coherent.released.resolve_right ?_⟩
    rintro ⟨a, ha⟩
    exact hlast _ (by rw [ha, List.getLast?_concat])

theorem restart (h : Traced out n) {peers : List Nat} {timeout : Nat}
    (hr : recover n.id peers timeout n.store.reopen (durable n.store.calls) = .ok n') :
    Sane n' ∧ Traced out { n' with enqueued := n.enqueued } := by
  obtain ⟨cs, hcalls, hd, hc, hset⟩ := h.reopen
  have hsnap := durable_snapshot_mem n.store.calls
  have hrec := recover_ok (fun h0 => ?_) hr
  · refine ⟨hrec.sane, h.record cs ?_ hrec.id.1 (.inr hrec.outbound) rfl (hcalls ▸ hc) fun hf => ?_⟩
    · rw [hrec.store, hcalls]
    · rw [← hcalls]
      have hm := hrec.mirrors hf
      refine ⟨hd ▸ hm.frame rfl rfl rfl rfl rfl, ?_, hset⟩
      show CommitKept _ n'.commit
      rw [hrec.commit hf, CommitKept, hd]
      by_cases hle : (durable n.store.calls).base ≤ (durable n.store.calls).hard.commit
      · exact .inl (Nat.max_eq_left hle).symm
      · have hmem := hsnap.resolve_left fun h0 => hle (by rw [Recovery.base, h0]; exact Nat.zero_le _)
        refine .inr ⟨_, hcalls ▸ List.mem_append_left _ hmem, ?_⟩
        exact Nat.max_le.mpr ⟨Nat.le_of_not_le hle, Nat.le_refl _⟩
  · rcases hsnap with hsnap | hmem
    · rw [hsnap]
    · exact absurd h0 (Nat.ne_of_gt (h.coherent.snapshots _ hmem))

theorem run [StableStore σ] {acts : List Act} {out' : List Message} (h : Traced out n)
    (hs : Sane n) (hrange : StaysInRange acts n = true)
    (hr : runActs acts n out = some (n', out')) : Traced out' n' := by
  induction acts generalizing n out with
  | nil =>
    cases hr
    exact h
  | cons act acts ih =>
    cases act with
    | call op =>
      simp only [runActs] at hr
      simp only [StaysInRange, Bool.and_eq_true, decide_eq_true_eq] at hrange
      rw [Wrap.run_eq hs.log hrange.1] at hr hrange
      cases hx : op.run n with
      | ok u n₁ =>
        rw [hx] at hr hrange
        obtain ⟨hs', h'⟩ := op.keeps hs h hx fun hs h he => effect h hs he
        exact ih h' hs' hrange.2 hr
      | error e n₁ =>
        rw [hx] at hr
        cases hr
    | drain => exact ih h.drain ⟨hs.log, hs.stopped⟩ hrange hr
    | restart peers timeout =>
      simp only [runActs] at hr
      simp only [StaysInRange, Bool.and_eq_true, decide_eq_true_eq] at hrange
      rw [Wrap.recover_eq hrange.1] at hr hrange
      cases hx : recover n.id peers timeout n.store.reopen (durable n.store.calls) with
      | ok n₁ =>
        rw [hx] at hr hrange
        obtain ⟨hs', h'⟩ := h.restart hx
        exact ih h' ⟨hs'.log, hs'.stopped⟩ hrange.2 hr
      | error e =>
        rw [hx] at hr
        cases hr

end Traced

end Promtact.Raft
