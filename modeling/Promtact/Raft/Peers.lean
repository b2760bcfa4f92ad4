import Promtact.Raft.Changes.Runs

/-!
# The peers of a node and its voters

A node sends to its peers and counts their answers, so a voter that is not among them is never asked
for anything. Wherever a configuration enters the log, `ensurePeers` adds its voters; but
`onInstallSnapshot` takes the voters of a snapshot without it.

* `Enrolled`: the peers are different, and every voter of the node, and of a configuration in its log,
  is the node itself or one of its peers.
* `Enrolled.change`: every change of a method keeps that, except the installation of a snapshot with
  an unknown voter.
* `peers_cover_voters`: so it holds in every run without such a snapshot.
-/

namespace Promtact.Raft

open Refine Network

variable {σ : Type} {n n' n₀ : Node σ} {mask : Mask}

/-- Everyone in the mask is the node itself or one of its peers. -/
def Node.Knows (n : Node σ) (mask : Mask) : Prop := ∀ p, Mem p mask → p = n.id ∨ p ∈ n.peers

instance (n : Node σ) (mask : Mask) : Decidable (n.Knows mask) :=
  decidable_of_iff (∀ p ∈ List.range' 1 64, mask.getLsbD (p - 1) = true → p = n.id ∨ p ∈ n.peers)
    ⟨fun h p hp => h p (by
      obtain ⟨h0, h64⟩ := hp.valid
      rw [List.mem_range'_1]
      exact ⟨h0, by omega⟩) hp.2,
    fun h p hp hm => h p ⟨(List.mem_range'_1.mp hp).1, hm⟩⟩

theorem Node.Knows.mono (h : n.Knows mask) (hid : n'.id = n.id) (hp : ∀ p ∈ n.peers, p ∈ n'.peers) :
    n'.Knows mask := fun p hm => (h p hm).imp (·.trans hid.symm) (hp p)

theorem Node.knows_zero (n : Node σ) : n.Knows 0 := fun _ hm => absurd rfl (ne_zero_of_mem hm)

/-- The peers are different, and they cover the voters of the node and of its log. -/
structure Enrolled (n : Node σ) : Prop where
  nodup : n.peers.Nodup
  old : n.Knows n.votersOld
  new : n.Knows n.votersNew
  entries : ∀ e ∈ n.log, e.isConfig = true → n.Knows e.oldVoters ∧ n.Knows e.newVoters

namespace Enrolled

theorem of_same (h : Enrolled n) (hid : n'.id = n.id) (hp : n'.peers = n.peers)
    (hold : n'.votersOld = n.votersOld) (hnew : n'.votersNew = n.votersNew)
    (hlog : ∀ e ∈ n'.log, e ∈ n.log) : Enrolled n' := by
  have hk : ∀ {mask}, n.Knows mask → n'.Knows mask := fun h => h.mono hid fun p hm => hp ▸ hm
  refine ⟨hp ▸ h.nodup, hold ▸ hk h.old, hnew ▸ hk h.new, fun e he hc => ?_⟩
  exact (h.entries e (hlog e he) hc).imp hk hk

theorem ensurePeers (h : Enrolled n) (mask : Mask) : Enrolled (n.ensurePeers mask) := by
  have he := Enlists.ensurePeers n mask
  have hk : ∀ {mask'}, n.Knows mask' → (n.ensurePeers mask).Knows mask' := fun h => h.mono he.id he.kept
  obtain ⟨peers, next, mtch, heq⟩ := n.ensurePeers_same mask
  have hnodup := he.nodup h.nodup
  rw [heq] at hk hnodup ⊢
  exact ⟨hnodup, hk h.old, hk h.new, fun e he hc => (h.entries e he hc).imp hk hk⟩

theorem retire (h : Enrolled n) : Enrolled n.retire := by
  unfold Node.retire
  split
  · exact h
  · exact h.of_same rfl rfl rfl rfl fun _ he => he

/-- The voters of an entry of the log are peers already. -/
theorem configure (h : Enrolled n) {e : Entry} (he : e ∈ n.log) : Enrolled (n.configure e) := by
  unfold Node.configure
  cases hk : e.kind with
  | jointConfig =>
    obtain ⟨hold, hnew⟩ := h.entries e he (by simp [Entry.isConfig, hk])
    have hset : Enrolled { n with votersOld := e.oldVoters, votersNew := e.newVoters } :=
      ⟨h.nodup, hold, hnew, h.entries⟩
    exact hset.ensurePeers _
  | finalConfig =>
    obtain ⟨hold, -⟩ := h.entries e he (by simp [Entry.isConfig, hk])
    have hset : Enrolled { n with votersOld := e.oldVoters, votersNew := 0 } :=
      ⟨h.nodup, hold, n.knows_zero, h.entries⟩
    exact hset.retire
  | _ => exact h

theorem clearPending (h : Enrolled n) (index : Nat) : Enrolled (n.clearPending index) := by
  unfold Node.clearPending
  split
  · exact h.of_same rfl rfl rfl rfl fun _ he => he
  · exact h

theorem note (h : Enrolled n) (index : Nat) (e : Entry) : Enrolled (n.note index e) := by
  unfold Node.note
  split
  · have hp : Enrolled { n with pendingConfig := index } :=
      h.of_same rfl rfl rfl rfl fun _ he => he
    exact hp.ensurePeers _
  · exact h

theorem settle (h : Enrolled n) (first last : Nat) : Enrolled (n.settle first last) := by
  refine List.foldlRecOn _ _ h fun n h k _ => ?_
  unfold Node.settleAt
  split
  · exact (h.configure (Node.entryAt?_mem ‹_›)).clearPending _
  · exact h

theorem rebuild (h : Enrolled n) : Enrolled n.rebuild := by
  have hpending : Enrolled { n with pendingConfig := 0 } := h.of_same rfl rfl rfl rfl fun _ he => he
  refine List.foldlRecOn _ _ hpending fun n h k _ => ?_
  unfold Node.noteAt
  split
  · exact h.note _ _
  · exact h

theorem trim (h : Enrolled n) (index : Nat) : Enrolled (n.trim index) := by
  unfold Node.trim
  split
  · have hcut : Enrolled { n with log := n.log.take (index - n.baseIndex) } :=
      h.of_same rfl rfl rfl rfl fun _ he => List.mem_of_mem_take he
    exact hcut.rebuild
  · exact h

/-- A configuration that is appended adds its voters to the peers. -/
theorem stored (h : Enrolled n) (index : Nat) (e : Entry) (s : σ) : Enrolled (n.stored index e s) := by
  unfold Node.stored Node.note
  split
  · have he := Enlists.ensurePeers { n with store := s, log := n.log ++ [e], pendingConfig := index }
      (e.oldVoters ||| e.newVoters)
    have hmem : ∀ p, Mem p (e.oldVoters ||| e.newVoters) → _ := fun p hp => Enlists.mem_ensurePeers
      { n with store := s, log := n.log ++ [e], pendingConfig := index } hp
    obtain ⟨peers, next, mtch, heq⟩ := Node.ensurePeers_same
      { n with store := s, log := n.log ++ [e], pendingConfig := index } (e.oldVoters ||| e.newVoters)
    have hnodup := he.nodup h.nodup
    have hkept := he.kept
    rw [heq] at hmem hnodup hkept ⊢
    have hk : ∀ {mask}, n.Knows mask → Node.Knows { n with
        store := s, log := n.log ++ [e], pendingConfig := index
        peers := peers, next := next, matchIdx := mtch } mask := fun h => h.mono rfl hkept
    refine ⟨hnodup, hk h.old, hk h.new, fun e' he' hc => ?_⟩
    rcases List.mem_append.mp he' with he' | he'
    · exact (h.entries e' he' hc).imp hk hk
    · rw [List.mem_singleton.mp he']
      exact ⟨fun p hp => hmem p (mem_or.mpr (.inl hp)), fun p hp => hmem p (mem_or.mpr (.inr hp))⟩
  · rename_i hc
    refine ⟨h.nodup, h.old, h.new, fun e' he' hc' => ?_⟩
    rcases List.mem_append.mp he' with he' | he'
    · exact h.entries e' he' hc'
    · rw [List.mem_singleton.mp he'] at hc'
      exact absurd hc' hc

end Enrolled

/-! ## Changes -/

section

variable [StableStore σ] {op : Op}

/-- The snapshot that the method installs names no voter that the node does not know. -/
def Node.KnowsSnapshot (n : Node σ) : Op → Prop
  | .step m => m.type = .installSnapshot → n.rejectsSnapshot m = false →
      n.baseIndex < m.snapshotIndex → n.Knows m.snapshotOld ∧ n.Knows m.snapshotNew
  | _ => True

omit [StableStore σ] in
/-- What a leader proposes has only voters that it knows. -/
theorem Enrolled.append (h : Enrolled n) {e : Entry} (he : Proposes op n e) (s : σ) :
    Enrolled { n with store := s, log := n.log ++ [e] } := by
  refine ⟨h.nodup, h.old, h.new, fun e' he' hc => ?_⟩
  rcases List.mem_append.mp he' with he' | he'
  · exact h.entries e' he' hc
  rw [List.mem_singleton.mp he'] at hc ⊢
  cases he with
  | noop => cases hc
  | command h => simp [Entry.isConfig, h.kind] at hc
  | joint hop hmask hnew hp hpeers => exact ⟨h.old, hpeers⟩
  | final hop hnew hp => exact ⟨h.new, n.knows_zero⟩

theorem Enrolled.change (h : Enrolled n) (hs : n₀.KnowsSnapshot op) (hid : n.id = n₀.id)
    (hpeers : ∀ p ∈ n₀.peers, p ∈ n.peers) (hc : Change op n₀ n n') (hf : n'.faulted = false) :
    Enrolled n' := by
  cases hc with
  | track ht =>
    cases ht with
    | start =>
      obtain ⟨next, mtch, heq⟩ := n.track_eq
      rw [heq]
      exact h.of_same rfl rfl rfl rfl fun _ he => he
    | clamp | back | ack | snapshotAck => exact h.of_same rfl rfl rfl rfl fun _ he => he
  | ensure hop mask => exact h.ensurePeers mask
  | @commit k s =>
    have hset : Enrolled { n with commit := k, store := s } := h.of_same rfl rfl rfl rfl fun _ he => he
    exact hset.settle _ _
  | @append e s hr hl hn he => exact h.append he s
  | @propose e s hr hl hn he =>
    exact (h.append he s).of_same rfl rfl rfl rfl fun _ he => he
  | store hr hm => exact (h.trim _).stored _ _ _
  | save hp =>
    cases hp with
    | own => exact h.of_same rfl rfl rfl rfl fun _ he => List.mem_of_mem_drop he
    | @install m hn hop htype hm hb =>
      subst hop
      obtain ⟨hold, hnew⟩ := hs htype (hn.rejectsSnapshot hm hb) (hn.baseIndex ▸ hb)
      refine ⟨h.nodup, hold.mono hid hpeers, hnew.mono hid hpeers, fun e he hc => ?_⟩
      have he : e ∈ n.logAbove m.toSnapshot := he
      unfold Node.logAbove at he
      split at he
      · exact h.entries e (List.mem_of_mem_drop he) hc
      · rw [List.mem_singleton.mp he] at hc
        cases hc
  | persistError | appendError | storeError | saveError | compactError | noSnapshotStore => cases hf
  | wait | follow | preVote | preVoteAck | voteAck | lead | send | newTerm | campaign | vote | pending
  | read | readAck | readReady | apply => exact h.of_same rfl rfl rfl rfl fun _ he => he

end

/-! ## Recovery -/

theorem restoreEntry_voters {commit index : Nat} {e : Entry} {r r' : Restored}
    (h : restoreEntry commit index e r = some r') :
    (r'.oldVoters = r.oldVoters ∨ r'.oldVoters = e.oldVoters) ∧
      (r'.newVoters = r.newVoters ∨ r'.newVoters = e.newVoters ∨ r'.newVoters = 0) := by
  unfold restoreEntry at h
  cases hk : e.kind <;> simp only [hk] at h <;> repeat' split at h
  all_goals cases h <;> simp

/-- The voters of all entries that pass the checks become peers. -/
theorem restoreEntries_knows {commit index : Nat} {entries : List Entry} {r r' : Restored}
    (h : restoreEntries commit index entries r n = (some r', n')) (hold : n.Knows r.oldVoters)
    (hnew : n.Knows r.newVoters) :
    Enlists n n' ∧ n'.Knows r'.oldVoters ∧ n'.Knows r'.newVoters ∧
      ∀ e ∈ entries, n'.Knows e.oldVoters ∧ n'.Knows e.newVoters := by
  induction entries generalizing index r n with
  | nil =>
    cases h
    exact ⟨.refl _, hold, hnew, nofun⟩
  | cons e entries ih =>
    unfold restoreEntries at h
    cases hr : restoreEntry commit index e r with
    | none => rw [hr] at h; cases h
    | some r₁ =>
      rw [hr] at h
      have he := Enlists.ensurePeers n (e.oldVoters ||| e.newVoters)
      have hk : ∀ {mask}, n.Knows mask → (n.ensurePeers (e.oldVoters ||| e.newVoters)).Knows mask :=
        fun h => h.mono he.id he.kept
      have hmem : ∀ p, Mem p (e.oldVoters ||| e.newVoters) →
          p = (n.ensurePeers (e.oldVoters ||| e.newVoters)).id ∨
            p ∈ (n.ensurePeers (e.oldVoters ||| e.newVoters)).peers := by
        rw [he.id]
        exact fun p hp => Enlists.mem_ensurePeers n hp
      have heold : (n.ensurePeers (e.oldVoters ||| e.newVoters)).Knows e.oldVoters :=
        fun p hp => hmem p (mem_or.mpr (.inl hp))
      have henew : (n.ensurePeers (e.oldVoters ||| e.newVoters)).Knows e.newVoters :=
        fun p hp => hmem p (mem_or.mpr (.inr hp))
      obtain ⟨ho, hn⟩ := restoreEntry_voters hr
      have hold₁ : (n.ensurePeers (e.oldVoters ||| e.newVoters)).Knows r₁.oldVoters := by
        rcases ho with ho | ho <;> rw [ho]
        · exact hk hold
        · exact heold
      have hnew₁ : (n.ensurePeers (e.oldVoters ||| e.newVoters)).Knows r₁.newVoters := by
        rcases hn with hn | hn | hn <;> rw [hn]
        · exact hk hnew
        · exact henew
        · exact Node.knows_zero _
      obtain ⟨hen, hrold, hrnew, hentries⟩ := ih h hold₁ hnew₁
      refine ⟨he.trans hen, hrold, hrnew, fun e' he' => ?_⟩
      rcases List.mem_cons.mp he' with rfl | he'
      · exact ⟨heold.mono hen.id hen.kept, henew.mono hen.id hen.kept⟩
      · exact hentries e' he'

theorem Enrolled.checkRecovered (hf : n.checkRecovered.faulted = false) (hnodup : n.peers.Nodup)
    (hold : n.Knows n.votersOld) (hnew : n.Knows n.votersNew)
    (hhead : ∀ e, n.log.head? = some e → e.isConfig = false) : Enrolled n.checkRecovered := by
  obtain ⟨-, r, n', hres, heq⟩ := Node.checkRecovered_running hf
  obtain ⟨hen, hrold, hrnew, hentries⟩ := restoreEntries_knows hres hold hnew
  have hlog : n'.log = n.log := by
    have hframe := Frame.restoreEntries n.commit (n.baseIndex + 1) n.log.tail
      ⟨n.votersOld, n.votersNew, 0⟩ n
    rw [hres] at hframe
    exact hframe.log
  rw [heq]
  refine ⟨hen.nodup hnodup, hrold, hrnew, fun e he hc => ?_⟩
  have he : e ∈ n.log := hlog ▸ he
  cases hn : n.log with
  | nil => rw [hn] at he; cases he
  | cons e₀ entries =>
    rw [hn] at he hhead hentries
    rcases List.mem_cons.mp he with rfl | he
    · cases (hhead e rfl).symm.trans hc
    · exact hentries e he

theorem Enrolled.recover {id timeout : Nat} {peers : List Nat} {store : σ} {d : Recovery}
    (h : Raft.recover id peers timeout store d = .ok n) (hf : n.faulted = false) : Enrolled n := by
  obtain ⟨n₀, hn₀, h⟩ := recover_cases h
  obtain ⟨-, hnodup, -, hvoters⟩ := newNodeWithStore_ids hn₀
  obtain ⟨-, -, heq⟩ := newNodeWithStore_ok hn₀
  have hp : n₀.peers = peers := by rw [heq]
  have hid : n₀.id = id := by rw [heq]
  have hnew : n₀.votersNew = 0 := by rw [heq]
  rcases h with rfl | rfl | rfl
  · refine .checkRecovered hf (hp ▸ hnodup) (fun p hm => ?_) ?_ fun e he => ?_
    · show p = n₀.id ∨ p ∈ n₀.peers
      rw [hp, hid]
      exact (hvoters p).mp hm
    · show Node.Knows _ n₀.votersNew
      rw [hnew]
      exact Node.knows_zero _
    · cases he
      rfl
  · cases hf
  · have hnodup' := (Enlists.ensurePeers (n₀.atSnapshot d)
      (d.snapshot.oldVoters ||| d.snapshot.newVoters)).nodup (hp ▸ hnodup)
    have hmem : ∀ p, Mem p (d.snapshot.oldVoters ||| d.snapshot.newVoters) → _ := fun p hp =>
      Enlists.mem_ensurePeers (n₀.atSnapshot d) hp
    obtain ⟨peers', next, mtch, hsame⟩ := (n₀.atSnapshot d).ensurePeers_same
      (d.snapshot.oldVoters ||| d.snapshot.newVoters)
    rw [hsame] at hmem hnodup' hf ⊢
    refine .checkRecovered hf hnodup' (fun p hm => ?_) (fun p hm => ?_) fun e he => ?_
    · exact hmem p (mem_or.mpr (.inl hm))
    · exact hmem p (mem_or.mpr (.inr hm))
    · cases he
      rfl

/-! ## Runs -/

theorem Enrolled.effectiveVoters (h : Enrolled n) {voters : Mask × Mask}
    (hv : n.effectiveVoters = .ok voters) : n.Knows voters.1 ∧ n.Knows voters.2 := by
  rcases Node.jointVoters_cases hv with rfl | ⟨k, e, -, -, he, hk, rfl⟩
  · exact ⟨h.old, h.new⟩
  · exact h.entries e (Node.entryAt?_mem he) (by simp [Entry.isConfig, hk])

/-- A method that meets the condition keeps the peers complete. -/
theorem Enrolled.call [StableStore σ] {op : Op} {u : Unit} (h : Enrolled n) (hs : Sane n)
    (hknows : n.KnowsSnapshot op) (hx : op.run n = .ok u n') (hf : n'.faulted = false) : Enrolled n' := by
  -- the peers that were there when the method began stay
  refine ((op.keepsChanges (I := fun n₁ => (n₁.id = n.id ∧ ∀ p ∈ n.peers, p ∈ n₁.peers) ∧
    (n₁.faulted = false → Enrolled n₁)) hs ⟨⟨rfl, fun _ hp => hp⟩, fun _ => h⟩ hx ?_).2).2 hf
  rintro n₁ n₂ - ⟨⟨hid, hpeers⟩, hn₁⟩ hc
  obtain ⟨hid', hpeers'⟩ := hc.peers
  refine ⟨⟨hid'.trans hid, fun p hp => hpeers' p (hpeers p hp)⟩, fun hf => ?_⟩
  exact (hn₁ (hc.running hf)).change hknows hid hpeers hc hf

/-- No event brings a running node a snapshot with a voter that it does not know. -/
def Event.KnowsSnapshot : Event → Proc σ → Prop
  | .call op, .up n => n.faulted = false → n.KnowsSnapshot op
  | _, _ => True

instance (n : Node σ) : DecidablePred n.KnowsSnapshot
  | .step m => inferInstanceAs (Decidable (m.type = .installSnapshot → n.rejectsSnapshot m = false →
      n.baseIndex < m.snapshotIndex → n.Knows m.snapshotOld ∧ n.Knows m.snapshotNew))
  | .tick | .propose _ | .proposeRequest .. | .proposeJoint _ | .proposeFinal
  | .transferLeadership _ | .startReadIndex _ | .applyEntries | .compact .. => .isTrue trivial

instance (e : Event) (p : Proc σ) : Decidable (e.KnowsSnapshot p) :=
  match e, p with
  | .call op, .up n => inferInstanceAs (Decidable (n.faulted = false → n.KnowsSnapshot op))
  | .call _, .down _ | .drain, _ | .crash, _ | .restart, _ => .isTrue trivial

variable [DurableStore σ] [LawfulStore σ]

theorem Setup.keepsEnrolled (S : Setup σ) :
    S.Keeps (fun _ e p => e.KnowsSnapshot p) (fun _ n => n.faulted = false → Enrolled n) fun _ => True where
  new h := by
    obtain ⟨-, hnodup, -, hvoters⟩ := newNodeWithStore_ids h
    obtain ⟨-, -, heq⟩ := newNodeWithStore_ok h
    intro _
    generalize Node.votersOld _ = voters at hvoters heq
    rw [heq]
    refine ⟨hnodup, fun p hp => (hvoters p).mp hp, Node.knows_zero _, fun e he hc => ?_⟩
    rw [List.mem_singleton.mp he] at hc
    cases hc
  recovered h hf := .recover h hf
  call {id op n n'} hs h ha _ hx hf := by
    have hrun := op.running hs hx hf
    exact (h hrun).call hs (ha hrun) hx hf
  drain h := ⟨fun hf => (h hf).of_same rfl rfl rfl rfl fun _ he => he, fun _ _ => trivial⟩

/-- In every run, the peers of every node are different, and everyone else among its effective
voters is one of them. -/
theorem peers_cover_voters (S : Setup σ) {c : Cluster σ}
    (hr : Net.Runs S.act (fun _ e p => e.KnowsSnapshot p) S.start c) {id : Nat} {n : Node σ}
    (hn : nodeAt c id = some n) (hf : n.faulted = false) : n.peers.Nodup ∧
      ∃ voters, n.effectiveVoters = .ok voters ∧
        ∀ p, Mem p voters.1 ∨ Mem p voters.2 → p ≠ n.id → p ∈ n.peers := by
  obtain ⟨hs, h⟩ := (S.keepsEnrolled.run hr).1 id n hn
  have h := h hf
  obtain ⟨voters, hv⟩ := Node.effectiveVoters_ok hs.log
  obtain ⟨hold, hnew⟩ := h.effectiveVoters hv
  refine ⟨h.nodup, voters, hv, fun p hp hne => ?_⟩
  rcases hp with hp | hp
  · exact (hold p hp).resolve_left hne
  · exact (hnew p hp).resolve_left hne

/-- Node 1 compacts the entry that nodes 1 and 2 have committed, and sends the snapshot to node 3.
-/
def snapshotForThird : List (Move Disk) :=
  elected ++ Move.calls 1 .applyEntries ++ Move.calls 1 (.compact 1 []) ++
  [Move.call 1 .tick, Move.call 1 .tick] ++ Move.calls 1 .tick ++ Move.deliverAll [15, 16, 17]

theorem peers_cover_voters_snapshot : ∃ c n,
    Net.Runs trio.act (fun _ e p => e.KnowsSnapshot p) trio.start c ∧ nodeAt c 3 = some n ∧
      n.faulted = false ∧ n.baseIndex = 1 ∧ n.peers.Nodup ∧
      ∃ voters, n.effectiveVoters = .ok voters ∧
        ∀ p, Mem p voters.1 ∨ Mem p voters.2 → p ≠ n.id → p ∈ n.peers := by
  have h : (trio.start.play trio.act (fun _ e p => e.KnowsSnapshot p) snapshotForThird).any (fun c =>
      (nodeAt c 3).any fun n => decide (n.faulted = false ∧ n.baseIndex = 1)) = true := by
    decide +kernel
  simp only [Option.any_eq_true, decide_eq_true_eq] at h
  obtain ⟨c, hc, n, hn, hf, hb⟩ := h
  exact ⟨c, n, .of_play hc, hn, hf, hb, peers_cover_voters trio (.of_play hc) hn hf⟩

/-- Nodes 1 and 2 commit a joint configuration with node 4, and node 1 compacts it. -/
def snapshotWithFourth : List (Move Disk) :=
  elected ++ Move.calls 1 (.proposeJoint [1, 2, 4]) ++ Move.deliverAll [14, 17] ++
  Move.calls 1 .applyEntries ++ Move.calls 1 (.compact 2 []) ++
  [Move.call 1 .tick, Move.call 1 .tick] ++ Move.calls 1 .tick ++ Move.deliverAll [22]

/-- Node 3 installs the snapshot of that. Node 4 is one of its voters then, but not one of its
peers. -/
theorem snapshot_brings_unknown_voter : ∃ c n, Net.Runs trio.act (fun _ _ _ => True) trio.start c ∧
    nodeAt c 3 = some n ∧ n.faulted = false ∧ n.effectiveVoters = .ok (7, 11) ∧ Mem 4 11 ∧
      4 ≠ n.id ∧ 4 ∉ n.peers := by
  have h : (trio.start.play trio.act (fun _ _ _ => True) snapshotWithFourth).any (fun c =>
      (nodeAt c 3).any fun n => decide (n.faulted = false ∧
        n.effectiveVoters.toOption.map (fun v => v) = some (7, 11) ∧ 4 ≠ n.id ∧ 4 ∉ n.peers)) = true := by
    decide +kernel
  simp only [Option.any_eq_true, decide_eq_true_eq] at h
  obtain ⟨c, hc, n, hn, hf, hv, hid, hp⟩ := h
  obtain ⟨voters, hok, rfl⟩ := ok_of_map hv
  exact ⟨c, n, .of_play hc, hn, hf, hok, ⟨by decide, by decide⟩, hid, hp⟩

end Promtact.Raft
