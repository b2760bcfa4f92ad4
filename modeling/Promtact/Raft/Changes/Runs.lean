import Promtact.Raft.Effects.Methods
import Promtact.Raft.Mirror

/-!
# Invariants of single nodes along the runs of a cluster

`Setup.Keeps A I` says that a property `I` of a node holds when the node is made or recovered, and
is kept by the methods that meet the condition `A`. Then it holds of every node in every state of
every run whose events meet `A` (`Setup.Keeps.run`). Nothing is assumed about the messages that are
delivered.

What a new node and a recovered node are like: `newNodeWithStore_ids`, `recover_cases` and
`checkRecovered_running`.
-/

namespace Promtact.Raft

open Refine Network

variable {σ : Type} {n : Node σ} {id timeout : Nat} {peers : List Nat} {store : σ} {d : Recovery}

/-! ## New nodes -/

theorem collectVoters_iff {voters v : Mask} {k : Nat} (h : collectVoters peers voters = .ok v) :
    Mem k v ↔ Mem k voters ∨ k ∈ peers := by
  induction peers generalizing voters with
  | nil => cases h; simp
  | cons p peers ih =>
    obtain ⟨bit, hbit, h⟩ := check_ok h
    obtain ⟨rfl, h0, h64⟩ := nodeBit_ok hbit
    split at h
    · cases h
    · rw [ih h, mem_or, mem_bit h0 h64, List.mem_cons]
      tauto

/-- The peers that are accepted are valid, different from each other, and new. -/
theorem collectVoters_peers {voters v : Mask} (h : collectVoters peers voters = .ok v) :
    peers.Nodup ∧ ∀ p ∈ peers, Valid p ∧ ¬ Mem p voters := by
  induction peers generalizing voters with
  | nil => exact ⟨List.nodup_nil, nofun⟩
  | cons p peers ih =>
    obtain ⟨bit, hbit, h⟩ := check_ok h
    obtain ⟨rfl, hp⟩ := nodeBit_ok hbit
    split at h
    · cases h
    rename_i hnew
    obtain ⟨hnodup, hpeers⟩ := ih h
    refine ⟨List.nodup_cons.mpr ⟨fun hmem => ?_, hnodup⟩, fun q hq => ?_⟩
    · exact (hpeers p hmem).2 (mem_or.mpr (.inr (mem_bit_self hp)))
    · rcases List.mem_cons.mp hq with rfl | hq
      · exact ⟨hp, fun hm => hnew (ne_zero_of_mem (mem_and.mpr ⟨hm, mem_bit_self hp⟩))⟩
      · exact ⟨(hpeers q hq).1, fun hm => (hpeers q hq).2 (mem_or.mpr (.inl hm))⟩

/-- The voters of a new node are itself and its peers, and all of them are different. -/
theorem newNodeWithStore_ids (h : newNodeWithStore id peers timeout store = .ok n) :
    Valid id ∧ peers.Nodup ∧ (∀ p ∈ peers, Valid p ∧ p ≠ id) ∧
      ∀ k, Mem k n.votersOld ↔ k = id ∨ k ∈ peers := by
  obtain ⟨seen, hseen, h⟩ := check_ok h
  obtain ⟨voters, hv, h⟩ := check_ok h
  cases h
  obtain ⟨rfl, h0, h64⟩ := nodeBit_ok hseen
  obtain ⟨hnodup, hpeers⟩ := collectVoters_peers hv
  refine ⟨⟨h0, h64⟩, hnodup, fun p hp => ⟨(hpeers p hp).1, fun hid => (hpeers p hp).2 ?_⟩, fun k => ?_⟩
  · rw [hid]
    exact mem_bit_self ⟨h0, h64⟩
  · rw [collectVoters_iff hv, mem_bit h0 h64]

/-! ## Recovered nodes -/

/-- The node that a recovery from a snapshot begins with. -/
def Node.atSnapshot (n : Node σ) (d : Recovery) : Node σ :=
  { n with
    term := d.hard.term, votedFor := d.hard.votedFor
    baseIndex := d.snapshot.lastIndex, baseTerm := d.snapshot.lastTerm, snapshot := d.snapshot
    votersOld := d.snapshot.oldVoters, votersNew := d.snapshot.newVoters }

/-- The node that a recovery checks, if it is not refused before. -/
theorem recover_cases (h : recover id peers timeout store d = .ok n) : ∃ n₀,
    newNodeWithStore id peers timeout store = .ok n₀ ∧
      (n = { n₀ with
          term := d.hard.term, votedFor := d.hard.votedFor, commit := d.hard.commit
          log := {} :: d.suffix }.checkRecovered ∨
        n = (n₀.atSnapshot d).fail none ∨
        n = { (n₀.atSnapshot d).ensurePeers (d.snapshot.oldVoters ||| d.snapshot.newVoters) with
          log := { term := d.snapshot.lastTerm } :: d.suffix
          commit := max d.hard.commit d.snapshot.lastIndex
          applied := d.snapshot.lastIndex }.checkRecovered) := by
  unfold recover at h
  split at h
  · obtain ⟨n₀, hn₀, h⟩ := check_ok h
    refine ⟨n₀, hn₀, .inr ?_⟩
    have hn := Except.ok.inj h
    split at hn
    · exact .inl hn.symm
    · exact .inr hn.symm
  · obtain ⟨n₀, hn₀, h⟩ := check_ok h
    exact ⟨n₀, hn₀, .inl (Except.ok.inj h).symm⟩

/-- A node that passes the checks has its commit index in its log, and its configurations are in
order. -/
theorem Node.checkRecovered_running (h : n.checkRecovered.faulted = false) : n.commit ≤ n.lastIndex ∧
    ∃ r n', restoreEntries n.commit (n.baseIndex + 1) n.log.tail ⟨n.votersOld, n.votersNew, 0⟩ n =
        (some r, n') ∧
      n.checkRecovered =
        { n' with votersOld := r.oldVoters, votersNew := r.newVoters, pendingConfig := r.pending } := by
  unfold Node.checkRecovered Node.restoreConfigurationState at h ⊢
  split at h
  · cases h
  rename_i hc
  rw [if_neg hc]
  cases hres : restoreEntries n.commit (n.baseIndex + 1) n.log.tail ⟨n.votersOld, n.votersNew, 0⟩ n with
  | mk result n' =>
    rw [hres] at h
    cases result with
    | none => cases h
    | some r => exact ⟨Nat.not_lt.mp hc, r, n', rfl, rfl⟩

theorem restoreEntries_same (commit index : Nat) (entries : List Entry) (r : Restored) (n : Node σ) :
    ∃ peers next mtch, (restoreEntries commit index entries r n).2 =
      { n with peers := peers, next := next, matchIdx := mtch } := by
  induction entries generalizing index r n with
  | nil => exact ⟨_, _, _, rfl⟩
  | cons e entries ih =>
    unfold restoreEntries
    split
    · exact ⟨_, _, _, rfl⟩
    · rename_i r' _
      obtain ⟨peers, next, mtch, hp⟩ := n.ensurePeers_same (e.oldVoters ||| e.newVoters)
      obtain ⟨peers', next', mtch', hr⟩ := ih (index + 1) r' (n.ensurePeers (e.oldVoters ||| e.newVoters))
      rw [hr, hp]
      exact ⟨_, _, _, rfl⟩

/-- The checks of a recovery set the peers and the configuration, or stop the node. -/
theorem Node.checkRecovered_same (n : Node σ) :
    ∃ peers next mtch, ∃ voters : Mask × Mask, ∃ pending,
      n.checkRecovered = { n with
        peers := peers, next := next, matchIdx := mtch, votersOld := voters.1, votersNew := voters.2
        pendingConfig := pending } ∨
      n.checkRecovered = { n with peers := peers, next := next, matchIdx := mtch }.fail none := by
  unfold Node.checkRecovered Node.restoreConfigurationState
  split
  · exact ⟨n.peers, n.next, n.matchIdx, (0, 0), 0, .inr rfl⟩
  obtain ⟨peers, next, mtch, heq⟩ := restoreEntries_same n.commit (n.baseIndex + 1) n.log.tail
    ⟨n.votersOld, n.votersNew, 0⟩ n
  refine ⟨peers, next, mtch, ?_⟩
  cases hres : restoreEntries n.commit (n.baseIndex + 1) n.log.tail ⟨n.votersOld, n.votersNew, 0⟩ n with
  | mk result n' =>
    rw [hres] at heq
    dsimp only at heq
    cases result with
    | none => exact ⟨(0, 0), 0, .inr (by rw [heq]; rfl)⟩
    | some r => exact ⟨(r.oldVoters, r.newVoters), r.pending, .inl (by rw [heq]; rfl)⟩

theorem Sane.checkRecovered (hlog : n.log ≠ []) (hs : n.state = .follower) : Sane n.checkRecovered := by
  obtain ⟨n', hv, heq⟩ := Frame.checkRecovered n
  have hlog' : n'.log ≠ [] := by rw [hv.log]; exact hlog
  rcases heq with heq | heq <;> rw [heq]
  · exact ⟨hlog', fun _ => hv.state.elim (·.trans hs) fun h => h⟩
  · exact ⟨hlog', fun _ => rfl⟩

theorem recover_sane (h : recover id peers timeout store d = .ok n) : Sane n := by
  obtain ⟨n₀, hn₀, h⟩ := recover_cases h
  obtain ⟨-, -, heq⟩ := newNodeWithStore_ok hn₀
  rcases h with rfl | rfl | rfl
  · exact .checkRecovered (List.cons_ne_nil _ _) (by rw [heq])
  · exact ⟨by rw [heq]; exact List.cons_ne_nil _ _, fun _ => rfl⟩
  · refine .checkRecovered (List.cons_ne_nil _ _) ?_
    obtain ⟨peers, next, mtch, hsame⟩ := (n₀.atSnapshot d).ensurePeers_same
      (d.snapshot.oldVoters ||| d.snapshot.newVoters)
    rw [hsame, heq]
    rfl

/-- A recovered node follows. -/
theorem recover_state (h : recover id peers timeout store d = .ok n) : n.state = .follower := by
  have hcheck : ∀ m : Node σ, m.state = .follower → m.checkRecovered.state = .follower := by
    intro m hm
    obtain ⟨m', hv, heq⟩ := Frame.checkRecovered m
    rcases heq with heq | heq <;> rw [heq]
    · exact hv.state.elim (·.trans hm) fun h => h
    · rfl
  obtain ⟨n₀, hn₀, h⟩ := recover_cases h
  obtain ⟨-, -, heq⟩ := newNodeWithStore_ok hn₀
  rcases h with rfl | rfl | rfl
  · exact hcheck _ (by rw [heq])
  · rfl
  · refine hcheck _ ?_
    obtain ⟨peers, next, mtch, hsame⟩ := (n₀.atSnapshot d).ensurePeers_same
      (d.snapshot.oldVoters ||| d.snapshot.newVoters)
    rw [hsame, heq]
    rfl

/-! ## Runs -/

variable [DurableStore σ] [LawfulStore σ]

/-- The property `I` of the nodes holds at first, and is kept by the events that meet `A`. What the
nodes send meets `M`. -/
structure Setup.Keeps (S : Setup σ) (A : Nat → Event → Proc σ → Prop) (I : Nat → Node σ → Prop)
    (M : Message → Prop) : Prop where
  new : ∀ {id n}, newNodeWithStore id (S.peers id) (S.timeout id) (S.store id) = .ok n → I id n
  recovered : ∀ {id store d n}, recover id (S.peers id) (S.timeout id) store d = .ok n → I id n
  call : ∀ {id op n n'}, Sane n → I id n → A id (.call op) (.up n) → (∀ m, op = .step m → M m) →
    op.run n = .ok () n' → I id n'
  drain : ∀ {id n}, I id n → I id { n with outbound := [] } ∧ ∀ m ∈ n.outbound, M m

namespace Setup.Keeps

variable {S : Setup σ} {A : Nat → Event → Proc σ → Prop} {I : Nat → Node σ → Prop}
  {M : Message → Prop} {c : Cluster σ}

/-- A process that runs meets the property. -/
def Holds (I : Nat → Node σ → Prop) (id : Nat) : Proc σ → Prop
  | .up n => Sane n ∧ I id n
  | .down _ => True

theorem act (h : S.Keeps A I M) {e : Event} {p p' : Proc σ} {sent out : List Message}
    (hp : Holds I id p) (hsent : ∀ m ∈ sent, M m) (ha : A id e p)
    (hact : S.act id e p sent = some (p', out)) : Holds I id p' ∧ ∀ m ∈ out, M m := by
  have hnil : ∀ m ∈ ([] : List Message), M m := fun _ hm => absurd hm List.not_mem_nil
  unfold Setup.act at hact
  split at hact
  · rename_i op n
    split at hact
    · rename_i hd
      cases hact
      refine ⟨?_, hnil⟩
      cases hx : op.run n with
      | error e n₁ => trivial
      | ok u n₁ =>
        have hm : ∀ m, op = .step m → M m := by
          rintro m rfl
          exact hsent m hd.1
        exact ⟨(op.keeps (I := fun _ => True) hp.1 trivial hx fun _ _ _ => trivial).1,
          h.call hp.1 hp.2 ha hm hx⟩
    · cases hact
  · rename_i n
    cases hact
    obtain ⟨hi', hout⟩ := h.drain hp.2
    exact ⟨⟨⟨hp.1.log, hp.1.stopped⟩, hi'⟩, hout⟩
  · cases hact
    exact ⟨trivial, hnil⟩
  · rename_i store
    obtain ⟨p, hp, hpo⟩ := Option.map_eq_some_iff.mp hact
    cases hpo
    refine ⟨?_, hnil⟩
    unfold Setup.restart at hp
    split at hp
    · cases hp
    · split at hp
      · cases hp
      · rename_i hrec
        cases hp
        exact ⟨recover_sane hrec, h.recovered hrec⟩
  · cases hact

theorem start (h : S.Keeps A I M) {p : Proc σ} (hp : S.start.procs id = some p) : Holds I id p := by
  dsimp only [Setup.start] at hp
  split at hp
  · obtain ⟨n, hn, rfl⟩ := Option.map_eq_some_iff.mp hp
    have hnew : newNodeWithStore id (S.peers id) (S.timeout id) (S.store id) = .ok n := by
      revert hn
      cases newNodeWithStore id (S.peers id) (S.timeout id) (S.store id) with
      | ok n' => exact fun hn => congrArg Except.ok (Option.some.inj hn)
      | error e => exact fun hn => by cases hn
    obtain ⟨-, -, heq⟩ := newNodeWithStore_ok hnew
    refine ⟨?_, h.new hnew⟩
    rw [heq]
    exact ⟨List.cons_ne_nil _ _, fun _ => rfl⟩
  · cases hp

theorem run (h : S.Keeps A I M) (hr : Net.Runs S.act A S.start c) :
    (∀ id n, nodeAt c id = some n → Sane n ∧ I id n) ∧ ∀ m ∈ c.sent, M m := by
  obtain ⟨hprocs, hsent⟩ := hr.keeps (R := Holds I) (M := M) h.act (fun _ _ hp => h.start hp)
    fun _ hm => absurd hm List.not_mem_nil
  refine ⟨fun id n hn => ?_, hsent⟩
  unfold nodeAt at hn
  split at hn
  · cases hn
    exact hprocs id _ ‹_›
  · cases hn

end Setup.Keeps

end Promtact.Raft
