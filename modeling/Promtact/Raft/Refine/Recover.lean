import Promtact.Raft.Refine.Ops

/-!
# Recovery

A node that is recovered from what its store holds is the member that it was before the crash, or
it has stopped (`recover_rep`). It has stopped if `restoreConfigurationState` refuses the entries
above the snapshot; what it would accept is in `Restores`.
-/

namespace Promtact.Raft

open Refine Consensus

variable {σ : Type} {mode : Mode} {V : Mask} {w : World Nat Entry} {i : Nat} {n : Node σ}

/-! ## The loop of `restoreConfigurationState` -/

/-- What the loop does with an entry that it accepts. -/
theorem restoreEntry_cases {commit index : Nat} {e : Entry} {r r' : Restored}
    (h : restoreEntry commit index e r = some r') :
    e.isConfig = false ∧ r' = r ∨
    e.isConfig = true ∧ index ≤ commit ∧
      r' = { r with oldVoters := e.oldVoters, newVoters := e.newVoters } ∨
    e.isConfig = true ∧ commit < index ∧ r' = { r with pending := index } := by
  unfold restoreEntry at h
  unfold Entry.isConfig
  cases hk : e.kind <;> simp only [hk] at h
  case other => cases h
  case jointConfig =>
    split at h
    · cases h
    split at h <;> cases h
    · exact .inr (.inl ⟨rfl, ‹_›, rfl⟩)
    · exact .inr (.inr ⟨rfl, by omega, rfl⟩)
  case finalConfig =>
    split at h
    · cases h
    rename_i hc
    split at h <;> cases h
    · exact .inr (.inl ⟨rfl, ‹_›, by rw [show e.newVoters = 0 by tauto]⟩)
    · exact .inr (.inr ⟨rfl, by omega, rfl⟩)
  all_goals
    split at h <;> cases h
    exact .inl ⟨rfl, rfl⟩

/-- The local variables of the loop after the first `k` entries of `ℓ`. -/
structure Restores (mode : Mode) (V : Mask) (ℓ : List Entry) (commit k : Nat) (r : Restored) :
    Prop where
  cfg : toCfg r.oldVoters r.newVoters = (params mode V).cfg (ℓ.take (min k commit))
  pending : ∀ j e, commit ≤ j → j < k → ℓ[j]? = some e → e.isConfig = true → j < r.pending
  found : r.pending ≠ 0 → ∃ j e, commit ≤ j ∧ j < k ∧ ℓ[j]? = some e ∧ e.isConfig = true

theorem Restores.entry {ℓ : List Entry} {commit k : Nat} {r r' : Restored} {e : Entry}
    (h : Restores mode V ℓ commit k r) (hk : ℓ[k]? = some e) (hv : e.Valid)
    (hr : restoreEntry commit (k + 1) e r = some r') : Restores mode V ℓ commit (k + 1) r' := by
  have hcfg : k < commit → (params mode V).cfg (ℓ.take (min (k + 1) commit)) =
      (toCfg r.oldVoters r.newVoters).apply e.change := by
    intro hlt
    rw [h.cfg, Nat.min_eq_left hlt, Nat.min_eq_left hlt.le, List.take_add_one, hk]
    exact Params.cfg_snoc ..
  have hstay : commit ≤ k → min (k + 1) commit = min k commit := by omega
  have happ := toCfg_apply hv r.oldVoters r.newVoters
  have hfound : r.pending ≠ 0 → ∃ j e, commit ≤ j ∧ j < k + 1 ∧ ℓ[j]? = some e ∧
      e.isConfig = true := by
    intro hp
    obtain ⟨j, e', hj, hjk, hje⟩ := h.found hp
    exact ⟨j, e', hj, by omega, hje⟩
  rcases restoreEntry_cases hr with ⟨hc, rfl⟩ | ⟨hc, hi, rfl⟩ | ⟨hc, hi, rfl⟩
  · refine ⟨?_, fun j e' hj hjk hje hje' => ?_, hfound⟩
    · by_cases hlt : k < commit
      · rw [hcfg hlt]; exact happ.2.2 hc
      · rw [hstay (by omega)]; exact h.cfg
    · rcases Nat.lt_succ_iff_lt_or_eq.mp hjk with hjk | rfl
      · exact h.pending j e' hj hjk hje hje'
      · rw [hk] at hje; cases hje
        rw [hc] at hje'; cases hje'
  · refine ⟨?_, fun j e' hj hjk => by omega, hfound⟩
    rw [hcfg (by omega)]
    simp only [Entry.isConfig, Bool.or_eq_true, beq_iff_eq] at hc
    rcases hc with hc | hc
    · exact happ.1 hc
    · have hnew : e.newVoters = 0 := by unfold Entry.Valid at hv; rw [hc] at hv; exact hv.2
      show toCfg e.oldVoters e.newVoters = _
      rw [hnew]; exact happ.2.1 hc
  · exact ⟨by rw [hstay (by omega)]; exact h.cfg, fun j e' _ hjk _ _ => hjk,
      fun _ => ⟨k, e, by omega, Nat.lt_succ_self k, hk, hc⟩⟩

/-- The loop accepts a change if none before it is pending. -/
theorem Restores.accepts {ℓ : List Entry} {commit k : Nat} {r : Restored} {e : Entry}
    (h : Restores mode V ℓ commit k r) (hs : Serial ℓ commit) (hk : ℓ[k]? = some e) (hv : e.Valid)
    (hf : ((params mode V).cfg (ℓ.take k)).Fits e.change) :
    ∃ r', restoreEntry commit (k + 1) e r = some r' := by
  -- the voters are those of the entries before it
  have hcfg : e.isConfig = true →
      r.pending = 0 ∧ (params mode V).cfg (ℓ.take k) = toCfg r.oldVoters r.newVoters := by
    intro hc
    have hp : r.pending = 0 := by
      by_contra hp
      obtain ⟨j, e', hj, hjk, hje, hc'⟩ := h.found hp
      rw [hs j k e' e hj hjk hje hk hc'] at hc; cases hc
    refine ⟨hp, ?_⟩
    rw [h.cfg]
    refine Params.cfg_take_eq (Nat.min_le_left _ _) fun j e' hj hjk hje hc' => ?_
    have := h.pending j e' (by omega) hjk hje (isConfig_iff.mp hc')
    omega
  unfold restoreEntry
  unfold Entry.Valid at hv
  unfold Entry.change at hf
  unfold Entry.isConfig at hcfg
  cases hkind : e.kind <;> simp only [hkind] at hv hf hcfg ⊢
  case normal => exact ⟨r, if_neg (by simp [hv.1, hv.2.1])⟩
  case noop => exact ⟨r, if_neg (by simp [hv])⟩
  case jointConfig =>
    obtain ⟨hp, hc⟩ := hcfg rfl
    rw [hc] at hf
    obtain ⟨hold, hnew⟩ : r.oldVoters = e.oldVoters ∧ r.newVoters = 0 := by
      simpa [toCfg, Config.Fits] using hf
    rw [if_neg (by rw [hp, hnew, hold]; tauto)]
    split <;> exact ⟨_, rfl⟩
  case finalConfig =>
    obtain ⟨hp, hc⟩ := hcfg rfl
    rw [hc] at hf
    obtain ⟨hne, hnew⟩ : r.newVoters ≠ 0 ∧ r.newVoters = e.oldVoters := by
      simpa [toCfg, Config.Fits] using hf
    rw [if_neg (by rw [hp]; tauto)]
    split <;> exact ⟨_, rfl⟩

theorem restoreEntries_restores {ℓ entries : List Entry} {commit k : Nat} {r r' : Restored}
    (hv : ∀ e ∈ ℓ, e.Valid) (h : Restores mode V ℓ commit k r) (he : ℓ.drop k = entries)
    (hk : k ≤ ℓ.length) (hr : (restoreEntries commit (k + 1) entries r n).1 = some r') :
    Restores mode V ℓ commit ℓ.length r' := by
  induction entries generalizing k r n with
  | nil =>
    have := List.drop_eq_nil_iff.mp he
    cases hr
    rwa [show ℓ.length = k by omega]
  | cons e entries ih =>
    have hget : ℓ[k]? = some e := by
      have := congrArg (·[0]?) he
      simpa using this
    have hlt := getElem?_lt hget
    unfold restoreEntries at hr
    cases hs : restoreEntry commit (k + 1) e r with
    | none => rw [hs] at hr; cases hr
    | some r'' =>
      rw [hs] at hr
      refine ih (h.entry hget (hv e (List.mem_of_getElem? hget)) hs) ?_ hlt hr
      rw [← List.drop_drop, he]; rfl

/-- The loop accepts a log with at most one change that is not committed. -/
theorem restoreEntries_accepts {ℓ entries : List Entry} {commit k : Nat} {r : Restored}
    (hv : ∀ e ∈ ℓ, e.Valid) (hshape : (params mode V).Shaped ℓ) (hs : Serial ℓ commit)
    (h : Restores mode V ℓ commit k r) (he : ℓ.drop k = entries) :
    ∃ r', (restoreEntries commit (k + 1) entries r n).1 = some r' := by
  induction entries generalizing k r n with
  | nil => exact ⟨r, rfl⟩
  | cons e entries ih =>
    have hget : ℓ[k]? = some e := by
      have := congrArg (·[0]?) he
      simpa using this
    have hve := hv e (List.mem_of_getElem? hget)
    obtain ⟨r', hr'⟩ := h.accepts hs hget hve (hshape k e hget)
    unfold restoreEntries
    rw [hr']
    refine ih (h.entry hget hve hr') ?_
    rw [← List.drop_drop, he]; rfl

/-- The loop only adds peers. -/
theorem restoreEntries_frame (commit index : Nat) (entries : List Entry) (r : Restored)
    (n : Node σ) : ∃ peers next mtch, (restoreEntries commit index entries r n).2 =
      { n with peers := peers, next := next, matchIdx := mtch } := by
  induction entries generalizing index r n with
  | nil => exact ⟨n.peers, n.next, n.matchIdx, rfl⟩
  | cons e entries ih =>
    unfold restoreEntries
    split
    · exact ⟨n.peers, n.next, n.matchIdx, rfl⟩
    · rename_i r' _
      obtain ⟨peers, next, mtch, h, -⟩ := ensurePeers_eq n (e.oldVoters ||| e.newVoters)
      obtain ⟨peers', next', mtch', h'⟩ := ih (index + 1) r' (n.ensurePeers (e.oldVoters ||| e.newVoters))
      exact ⟨peers', next', mtch', by rw [h', h]⟩

/-! ## The recovered node -/

variable [DurableStore σ] [LawfulStore σ]

theorem Ready.restores (h : Ready mode V True False w i n n.baseIndex) :
    Restores mode V (w.log i) n.commit n.baseIndex ⟨n.votersOld, n.votersNew, 0⟩ ∧
      (w.log i).drop n.baseIndex = n.log.tail := by
  have hb := h.live.2.1
  obtain ⟨e, he, -⟩ := h.live.1.log_eq
  refine ⟨⟨?_, fun j e hj hjk => by omega, fun hp => absurd rfl hp⟩, by rw [he]; rfl⟩
  rw [Nat.min_eq_left (by omega)]; exact h.live.2.2.1

theorem Ready.checkRecovered (h : Ready mode V True False w i n n.baseIndex)
    (hinv : Inv (params mode V) w) (hst : n.state = .follower) :
    Rep mode V w i n.checkRecovered := by
  have hb := h.live.2.1
  have hcl := h.live.commit_le hinv
  obtain ⟨hstart, htail⟩ := h.restores
  obtain ⟨peers, next, mtch, hframe⟩ := restoreEntries_frame n.commit (n.baseIndex + 1) n.log.tail
    ⟨n.votersOld, n.votersNew, 0⟩ n
  have hrole : ∀ t m, Role w i n.state t m := fun t m => by rw [hst]; exact .follower
  have hmatch : ∀ t p m, Matched w n.state t p m := fun t p m hl => by rw [hst] at hl; cases hl
  unfold Node.checkRecovered Node.restoreConfigurationState
  rw [if_neg (by rw [h.live.lastIndex_eq]; omega)]
  cases hres : restoreEntries n.commit (n.baseIndex + 1) n.log.tail ⟨n.votersOld, n.votersNew, 0⟩ n
    with
  | mk result n' =>
    rw [hres] at hframe
    obtain rfl : n' = _ := hframe
    cases result with
    | none =>
      refine Failed.rep h.id ⟨h.live.stored, h.live.settled fun hm => ?_⟩
      -- without changes of the membership the voters are those of any prefix
      rw [cfg_fixed hinv hm (hinv.log_coh i).1, ← cfg_fixed hinv hm (hinv.log_coh i).1 n.baseIndex]
      exact h.live.2.2.1
    | some r =>
      have hend := restoreEntries_restores (n := n) (fun e he => Inv.valid hinv he) hstart
        htail h.live.1.base_le (by rw [hres])
      refine Ready.rep ⟨h.id, h.sent, h.faulted, ⟨h.live.1, hb, ?_, hrole _ _⟩, fun _ => hmatch _ _ _,
        fun _ k e hk he hc => hend.pending k e hk (getElem?_lt he) he hc⟩
      have := hend.cfg
      rwa [Nat.min_eq_right hcl] at this

/-- The checks pass if at most one change is not committed, and leave what was recovered. -/
theorem Ready.checkRecovered_running (h : Ready mode V True False w i n n.baseIndex)
    (hinv : Inv (params mode V) w) (hs : mode.serial = true) :
    n.checkRecovered.faulted = false ∧ n.checkRecovered.term = n.term ∧
      n.checkRecovered.votedFor = n.votedFor ∧ n.checkRecovered.baseIndex = n.baseIndex ∧
      n.checkRecovered.log = n.log ∧ n.checkRecovered.commit = n.commit := by
  have hcl := h.live.commit_le hinv
  obtain ⟨hstart, htail⟩ := h.restores
  have hserial := h.live.1.serial hs
  rw [h.live.1.commit_eq] at hserial
  obtain ⟨r, hr⟩ := restoreEntries_accepts (n := n) (fun e he => Inv.valid hinv he)
    (hinv.shaped (hinv.log_coh i).1) hserial hstart htail
  obtain ⟨peers, next, mtch, hframe⟩ := restoreEntries_frame n.commit (n.baseIndex + 1) n.log.tail
    ⟨n.votersOld, n.votersNew, 0⟩ n
  unfold Node.checkRecovered Node.restoreConfigurationState
  rw [if_neg (by rw [h.live.lastIndex_eq]; omega)]
  cases hres : restoreEntries n.commit (n.baseIndex + 1) n.log.tail ⟨n.votersOld, n.votersNew, 0⟩ n
    with
  | mk result n' =>
    rw [hres] at hframe hr
    obtain rfl : n' = _ := hframe
    obtain rfl : result = some r := hr
    exact ⟨h.faulted, rfl, rfl, rfl, rfl, rfl⟩

/-- The node before the checks: the member that it was, with the voters of the snapshot. -/
theorem recover_ready {timeout : Nat} {peers : List Nat} {s : σ} {d : Recovery} {n₀ : Node σ}
    (hd : Durable mode V w i d) (hh : LawfulStore.Holds s d) (hc : LawfulStore.Clean s)
    (hn : newNodeWithStore i peers timeout s = .ok n₀) (hV : n₀.votersOld = V) :
    ∃ n, recover i peers timeout s d = .ok n.checkRecovered ∧
      Ready mode V True False w i n n.baseIndex ∧ n.state = .follower ∧
      n.term = d.hard.term ∧ n.votedFor = d.hard.votedFor ∧ n.baseIndex = d.base ∧
      n.log.tail = d.suffix ∧ n.commit = max d.hard.commit d.base := by
  obtain ⟨-, -, hn₀⟩ := newNodeWithStore_ok hn
  rw [hV] at hn₀
  have hbase := hd.commit
  unfold recover
  split
  · rename_i hsnap
    obtain ⟨-, hold, hcfg, -⟩ := hd.covers.some hsnap
    rw [newRecoveredNodeWithSnapshot, hn, hn₀]
    obtain ⟨peers', next, mtch, hp, -⟩ := ensurePeers_eq
      { id := i, peers := peers, term := d.hard.term, votedFor := d.hard.votedFor
        baseIndex := d.snapshot.lastIndex, baseTerm := d.snapshot.lastTerm, timeout := timeout
        store := s, snapshot := d.snapshot, votersOld := d.snapshot.oldVoters
        votersNew := d.snapshot.newVoters : Node σ } (d.snapshot.oldVoters ||| d.snapshot.newVoters)
    refine ⟨_, congrArg Except.ok ((if_neg hold).trans (by rw [hp])), ?_, rfl, rfl, rfl, rfl, rfl, rfl⟩
    refine ⟨rfl, Sent.nil, rfl, ⟨?_, ⟨le_rfl, le_max_right _ _⟩, hcfg, .follower⟩,
      fun _ => .follower, False.elim⟩
    have := hd.held (e := { term := d.snapshot.lastTerm }) hh hc rfl
    rwa [hbase] at this
  · rename_i hsnap
    have h0 := hd.covers.none (not_not.mp hsnap)
    have hb0 : d.base = 0 := by rw [Recovery.base, h0]
    have hcommit : w.commit i = d.hard.commit := by rw [hbase, hb0]; exact Nat.max_zero _
    rw [newRecoveredNode, hn, hn₀]
    refine ⟨_, rfl, ?_, rfl, rfl, rfl, hb0.symm, rfl, by rw [hb0]; exact (Nat.max_zero _).symm⟩
    refine ⟨rfl, Sent.nil, rfl, ⟨?_, ⟨le_rfl, Nat.zero_le _⟩, ?_, .follower⟩,
      fun _ => .follower, False.elim⟩
    · have := hd.held (e := {}) hh hc (by rw [h0])
      rw [hcommit, h0] at this
      exact this
    · rfl

/-- A node that is recovered from its store is the member that it was. -/
theorem recover_rep {timeout : Nat} {peers : List Nat} {s : σ} {d : Recovery} {n₀ : Node σ}
    (hinv : Inv (params mode V) w) (hd : Durable mode V w i d) (hh : LawfulStore.Holds s d)
    (hc : LawfulStore.Clean s) (hn : newNodeWithStore i peers timeout s = .ok n₀)
    (hV : n₀.votersOld = V) (h : recover i peers timeout s d = .ok n) : Rep mode V w i n := by
  obtain ⟨n', hn', hready, hst, -⟩ := recover_ready hd hh hc hn hV
  rw [hn'] at h
  cases h
  exact hready.checkRecovered hinv hst

/-- A new node is a member to which nothing has happened. -/
theorem newNodeWithStore_rep {timeout : Nat} {peers : List Nat} {s : σ}
    (hh : LawfulStore.Holds s {}) (hc : LawfulStore.Clean s)
    (hn : newNodeWithStore i peers timeout s = .ok n) (hV : n.votersOld = V) :
    Rep mode V World.start i n := by
  obtain ⟨-, -, hn₀⟩ := newNodeWithStore_ok hn
  have hd : Durable mode V World.start i {} :=
    ⟨rfl, rfl, rfl, rfl, ⟨le_rfl, rfl, fun _ => rfl, fun h => absurd rfl h⟩,
      fun _ j k e e' _ _ hj => absurd hj (by simp [World.start])⟩
  rw [hn₀, hV]
  exact Ready.rep ⟨rfl, Sent.nil, rfl, ⟨hd.held (e := {}) hh hc rfl, ⟨le_rfl, le_rfl⟩, rfl,
    .follower⟩, fun _ => .follower, fun _ k e _ he => absurd he (by simp [World.start])⟩

end Promtact.Raft
