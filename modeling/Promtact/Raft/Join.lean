import Promtact.Raft.Refine.Recover
import Promtact.Raft.Cluster

/-!
# A new voter cannot join through the log

`ProposeJoint` is meant to add voters: a node that is not in the old configuration is started with
the old voters as its peers, and gets the log from the leader. But `NewNodeWithStore` counts the
node itself among the voters, so that `validNewEntry` never finds its voters to be the old voters of
a joint entry (`joining_node_rejects_joint`). Whatever the leader sends it, the node does not get
past the first change of the configuration (`joining_node_stays_behind`).
-/

namespace Promtact.Raft

open Refine

/-! ## The voters of a new node -/

theorem collectVoters_not_mem {id : Nat} {peers : List Nat} {voters v : Mask} (hm : Mem id voters)
    (h : collectVoters peers voters = .ok v) : id ∉ peers := by
  induction peers generalizing voters with
  | nil => exact List.not_mem_nil
  | cons p peers ih =>
    obtain ⟨bit, hbit, h⟩ := check_ok h
    obtain ⟨rfl, h1, h2⟩ := nodeBit_ok hbit
    split at h
    · cases h
    · rename_i hdisj
      rintro hmem
      rcases List.mem_cons.mp hmem with rfl | hmem
      · exact hdisj (ne_zero_of_mem (mem_and.mpr ⟨hm, (mem_bit h1 h2).mpr rfl⟩))
      · exact ih (mem_or.mpr (.inl hm)) h hmem

variable {σ : Type}

/-- A new node does not have the voters that its peers are. -/
theorem newNodeWithStore_voters {id timeout : Nat} {peers : List Nat} {s : σ} {n : Node σ}
    {mask : Mask} (h : newNodeWithStore id peers timeout s = .ok n)
    (hm : voterMask peers = .ok (some mask)) : n.votersOld ≠ mask := by
  obtain ⟨-, hmem, -⟩ := newNodeWithStore_ok h
  obtain ⟨seen, hseen, h⟩ := check_ok h
  obtain ⟨voters, hv, -⟩ := check_ok h
  obtain ⟨rfl, h1, h2⟩ := nodeBit_ok hseen
  have := collectVoters_not_mem ((mem_bit h1 h2).mpr rfl) hv
  rintro rfl
  exact this ((mem_voterMask hm).mp hmem)

/-! ## What the node accepts -/

/-- The node has nothing from index `p` on, and has acknowledged nothing from there on. -/
structure Behind (voters : Mask) (p : Nat) (n : Node σ) : Prop where
  base : n.baseIndex = 0
  voters : n.votersOld = voters
  plain : ∀ e ∈ n.log, e.isConfig = false
  short : n.log.length ≤ p
  acks : ∀ m ∈ n.outbound, m.reject = false → m.matchIndex < p

/-- An append with an entry before `p` that is not a configuration, with the joint entry of the
voters `mask` at `p`, or after `p`. -/
structure FromLog (mask : Mask) (p : Nat) (m : Message) : Prop where
  type : m.type = .append
  before : m.hasEntry = true → m.logIndex + 1 < p → m.entry.isConfig = false
  joint : m.hasEntry = true → m.logIndex + 1 = p →
    m.entry.kind = .jointConfig ∧ m.entry.oldVoters = mask

namespace Behind

variable {voters mask : Mask} {p : Nat} {n : Node σ} {m : Message}

theorem lastIndex_lt (h : Behind voters p n) (hp : 0 < p) : n.lastIndex < p := by
  have := h.short
  rw [Node.lastIndex, h.base]; omega

theorem entry_plain (h : Behind voters p n) {k : Nat} {e : Entry} (he : n.entryAt k = .ok e) :
    e.isConfig = false := by
  unfold Node.entryAt at he
  split at he
  · cases he
    rename_i e' he'
    unfold Node.entryAt? at he'
    obtain ⟨offset, -, he'⟩ := Option.bind_eq_some_iff.mp he'
    exact h.plain _ (List.mem_of_getElem? he')
  · cases he

/-- The joint entry and everything after it are rejected. -/
theorem accepts (h : Behind voters p n) (hp : 0 < p) (hne : voters ≠ mask) (hm : FromLog mask p m)
    (ha : n.rejectsAppend m = false) :
    m.logIndex < p ∧ (m.hasEntry = true → m.logIndex + 1 < p) := by
  simp only [Node.rejectsAppend, Bool.or_eq_false_iff, bne_eq_false_iff_eq] at ha
  obtain ⟨⟨-, hterm⟩, hvalid⟩ := ha
  have hlast := h.lastIndex_lt hp
  have hle : m.logIndex ≤ n.lastIndex := by
    by_contra hlt
    rw [Node.termAt, Node.entryAt?, Node.offset, if_pos (by omega)] at hterm
    cases hterm
  refine ⟨by omega, fun hentry => ?_⟩
  by_contra hlt
  have heq : m.logIndex + 1 = p := by omega
  obtain ⟨hkind, hold⟩ := hm.joint hentry heq
  have hno : n.validNewEntry m.entry = false := by
    have : m.entry.oldVoters ≠ n.votersOld := by rw [hold, h.voters]; exact hne.symm
    simp [Node.validNewEntry, hkind, this]
  simp [hentry, hno, show m.logIndex = n.lastIndex by omega] at hvalid

/-- The fields that `Behind` does not mention may change. -/
theorem congr {n' : Node σ} (h : Behind voters p n) (hb : n'.baseIndex = n.baseIndex)
    (hv : n'.votersOld = n.votersOld) (hl : n'.log = n.log)
    (ho : n'.outbound = n.outbound ∨ n'.outbound = []) : Behind voters p n' := by
  refine ⟨hb ▸ h.base, hv ▸ h.voters, hl ▸ h.plain, hl ▸ h.short, fun m hm => ?_⟩
  rcases ho with ho | ho
  · exact h.acks m (ho ▸ hm)
  · rw [ho] at hm; cases hm

theorem send (h : Behind voters p n) (hm : m.reject = false → m.matchIndex < p) :
    Triple (Behind voters p) (Raft.send m) n fun _ => Behind voters p := by
  refine send_rule h ⟨h.base, h.voters, h.plain, h.short, fun m' hm' => ?_⟩
  rcases List.mem_append.mp hm' with hm' | hm'
  · exact h.acks m' hm'
  · rw [List.mem_singleton.mp hm']; exact hm

/-- No entry of the node changes a configuration. -/
theorem loop (h : Behind voters p n) {first last : Nat} {f : Nat → NodeM σ Unit}
    (hf : ∀ k n, Behind voters p n → Triple (Behind voters p) (f k) n fun _ => Behind voters p) :
    Triple (Behind voters p) (forUpTo first last f) n fun _ => Behind voters p :=
  Sim.upTo (I := fun _ _ => Behind voters p) h fun k _ _ _ n hn => hf k n hn

theorem rebuildPendingConfig (h : Behind voters p n) :
    Triple (Behind voters p) Raft.rebuildPendingConfig n fun _ => Behind voters p := by
  unfold Raft.rebuildPendingConfig
  refine Sim.seq_update (Sim.seq_get (loop ?_ fun k n hn => ?_))
  · exact h.congr rfl rfl rfl (.inl rfl)
  refine Sim.seq_get (Sim.seq_check_of hn fun e he => ?_)
  rw [if_neg (by rw [hn.entry_plain he]; decide)]
  exact Sim.ret hn

theorem applyCommittedConfigurations (h : Behind voters p n) {first last : Nat} :
    Triple (Behind voters p) (Raft.applyCommittedConfigurations first last) n
      fun _ => Behind voters p := by
  unfold Raft.applyCommittedConfigurations
  refine Sim.seq_get (loop h fun k n hn => ?_)
  refine Sim.seq_get (Sim.seq_check_of hn fun e he => ?_)
  have hplain := hn.entry_plain he
  have hkeep : Raft.applyConfiguration e = (pure () : NodeM σ Unit) := by
    unfold Raft.applyConfiguration
    unfold Entry.isConfig at hplain
    cases hk : e.kind <;> simp_all
  rw [hkeep]
  refine Sim.seq_update (Sim.update ?_)
  split
  · exact hn.congr rfl rfl rfl (.inl rfl)
  · exact hn

variable [StableStore σ]

theorem storeEntry (h : Behind voters p n)
    (hm : m.hasEntry = true → m.logIndex + 1 < p ∧ m.entry.isConfig = false) :
    Triple (Behind voters p) (Raft.storeEntry m) n fun _ => Behind voters p := by
  unfold Raft.storeEntry
  refine Sim.ite (fun hentry => ?_) fun _ => Sim.ret h
  obtain ⟨hlt, hplain⟩ := hm hentry
  refine Sim.seq (Q := fun _ _ => Behind voters p) ?_ ?_
  · unfold truncateConflict
    refine Sim.seq_get (Sim.ite (fun _ => Sim.seq_update (rebuildPendingConfig ?_))
      fun _ => Sim.ret h)
    refine ⟨h.base, h.voters, fun e he => h.plain e (List.mem_of_mem_take he), ?_, h.acks⟩
    exact (List.length_take_le _ _).trans (by show m.logIndex + 1 - n.baseIndex ≤ p; omega)
  rintro _ _ n' - hn
  refine Sim.seq_get (Sim.ite (fun hend => ?_) fun _ => Sim.ret hn)
  have hlen : n'.log.length < p := by
    have := hn.base
    unfold Node.lastIndex at hend; omega
  unfold appendEntry
  refine Sim.seq (callStoreOrFail_sim
    (Q := fun b _ n => Behind voters p n ∧ (b = true → n.log.length < p)) (fun s _ => ?_)
    fun e s _ => ?_) ?_
  · exact ⟨(), .refl, hn.congr rfl rfl rfl (.inl rfl), fun _ => hlen⟩
  · exact ⟨hn.congr rfl rfl rfl (.inr rfl), nofun⟩
  rintro (_ | _) _ n'' - ⟨hn'', hlen⟩
  · exact Sim.ret hn''
  refine Sim.seq_update (Sim.seq_update (Sim.ret ?_))
  rw [if_neg (by rw [hplain]; decide)]
  refine ⟨hn''.base, hn''.voters, fun e he => ?_, ?_, hn''.acks⟩
  · rcases List.mem_append.mp he with he | he
    · exact hn''.plain e he
    · rw [List.mem_singleton.mp he]; exact hplain
  · have := hlen rfl
    rw [List.length_append, List.length_singleton]; omega

theorem followCommit (h : Behind voters p n) :
    Triple (Behind voters p) (Raft.followCommit m) n fun _ => Behind voters p := by
  unfold Raft.followCommit
  refine Sim.seq_get (Sim.ite (fun _ => ?_) fun _ => Sim.ret h)
  refine Sim.seq (callStoreOrFail_sim (Q := fun _ _ => Behind voters p) (fun s _ => ?_)
    fun e s _ => ?_) ?_
  · exact ⟨(), .refl, h.congr rfl rfl rfl (.inl rfl)⟩
  · exact h.congr rfl rfl rfl (.inr rfl)
  rintro (_ | _) _ n' - hn
  · exact Sim.ret hn
  refine Sim.seq_update (Sim.seq (applyCommittedConfigurations ?_) fun _ _ n'' _ hn => Sim.ret hn)
  exact hn.congr rfl rfl rfl (.inl rfl)

theorem onAppend (h : Behind voters p n) (hp : 0 < p) (hne : voters ≠ mask)
    (hm : FromLog mask p m) :
    Triple (Behind voters p) (Raft.onAppend m) n fun _ => Behind voters p := by
  unfold Raft.onAppend
  refine Sim.seq_get (Sim.ite (fun _ => h.send nofun) fun hrej => ?_)
  obtain ⟨hlt, hentry⟩ := h.accepts hp hne hm (by simpa using hrej)
  refine Sim.seq_update (Sim.seq (storeEntry (m := m) ?_ ?_) ?_)
  · exact h.congr rfl rfl rfl (.inl rfl)
  · exact fun he => ⟨hentry he, hm.before he (hentry he)⟩
  rintro (_ | _) _ n' - hn
  · exact Sim.ret hn
  refine Sim.seq hn.followCommit ?_
  rintro (_ | _) _ n' - hn
  · exact Sim.ret hn
  refine Sim.seq_get (hn.send fun _ => ?_)
  show m.matched < p
  unfold Message.matched
  split
  · exact hentry ‹_›
  · exact hlt

theorem step (h : Behind voters p n) (hp : 0 < p) (hne : voters ≠ mask) (hm : FromLog mask p m) :
    Triple (Behind voters p) (Raft.step m) n fun _ => Behind voters p := by
  have hhandle : ∀ n : Node σ, Behind voters p n →
      Triple (Behind voters p) (handle m) n fun _ => Behind voters p := by
    intro n hn
    unfold handle
    rw [hm.type]
    exact hn.onAppend hp hne hm
  unfold Raft.step
  refine Sim.seq_get (Sim.ite (fun _ => Sim.ret h) fun _ => Sim.ite (fun _ => ?_) fun _ => ?_)
  · refine Sim.seq (callStoreOrFail_sim (Q := fun _ _ => Behind voters p) (fun s _ => ?_)
      fun e s _ => ?_) ?_
    · exact ⟨(), .refl, h.congr rfl rfl rfl (.inl rfl)⟩
    · exact h.congr rfl rfl rfl (.inr rfl)
    rintro (_ | _) _ n' - hn
    · exact Sim.ret hn
    · refine Sim.seq_update (hhandle _ ?_)
      exact hn.congr rfl rfl rfl (.inl rfl)
  · exact hhandle n h

end Behind

/-! ## What a leader sends -/

/-- The node sends `m` to `id` with the entry at some index, at a time when it has the log that it
has now. -/
def Node.SendsEntry (n : Node σ) (id : Nat) (m : Message) : Prop :=
  ∃ index commit context, 0 < index ∧
    ({ n with commit := commit } : Node σ).appendMessage id index context = .ok m

theorem Node.SendsEntry.fromLog {n : Node σ} {id p : Nat} {m : Message} {e : Entry} {mask : Mask}
    (h : n.SendsEntry id m) (he : n.entryAt? p = some e) (hkind : e.kind = .jointConfig)
    (hold : e.oldVoters = mask)
    (hfirst : ∀ k e', 0 < k → k < p → n.entryAt? k = some e' → e'.isConfig = false) :
    FromLog mask p m := by
  obtain ⟨index, commit, context, h0, h⟩ := h
  obtain ⟨prevTerm, -, h⟩ := check_ok h
  split at h
  · obtain ⟨entry, hentry, h⟩ := check_ok h
    cases h
    have hget : n.entryAt? index = some entry := by
      unfold Node.entryAt at hentry
      split at hentry
      · cases hentry; assumption
      · cases hentry
    refine ⟨rfl, fun _ hlt => ?_, fun _ heq => ?_⟩
    · exact hfirst index entry h0 (by have : index - 1 + 1 < p := hlt; omega) hget
    · have : index - 1 + 1 = p := heq
      obtain rfl : index = p := by omega
      rw [he] at hget; cases hget
      exact ⟨hkind, hold⟩
  · cases h
    exact ⟨rfl, nofun, nofun⟩

/-- A new node that is not one of the voters of its peers gets no further than the first change of
the configuration in the leader's log, and does not acknowledge it, whatever the leader sends it
from that log. -/
theorem joining_node_stays_behind [StableStore σ] {id timeout : Nat} {peers : List Nat} {store : σ}
    {n : Node σ} {mask : Mask} (hn : newNodeWithStore id peers timeout store = .ok n)
    (hmask : voterMask peers = .ok (some mask)) {leader : Node σ} {p : Nat} {e : Entry} (hp : 0 < p)
    (he : leader.entryAt? p = some e) (hkind : e.kind = .jointConfig) (hold : e.oldVoters = mask)
    (hfirst : ∀ k e', 0 < k → k < p → leader.entryAt? k = some e' → e'.isConfig = false)
    {ms : List Message} (hms : ∀ m ∈ ms, leader.SendsEntry id m) :
    (finalState (ms.forM step n)).lastIndex < p ∧
      ∀ m ∈ (finalState (ms.forM step n)).outbound, m.reject = false → m.matchIndex < p := by
  have hne := newNodeWithStore_voters hn hmask
  obtain ⟨-, -, hn₀⟩ := newNodeWithStore_ok hn
  have hlog : n.log = [{}] := by rw [hn₀]
  have hout : n.outbound = [] := by rw [hn₀]
  have hstart : Behind n.votersOld p n := by
    refine ⟨by rw [hn₀], rfl, fun e he => ?_, by rw [hlog]; exact hp, fun m hm => ?_⟩
    · rw [hlog, List.mem_singleton] at he
      rw [he]; rfl
    · rw [hout] at hm; cases hm
  have hrun : Triple (Behind n.votersOld p) (ms.forM step) n fun _ => Behind n.votersOld p :=
    Sim.each (I := fun _ => Behind n.votersOld p) hstart fun m hm _ n' hn' =>
      hn'.step hp hne ((hms m hm).fromLog he hkind hold hfirst)
  exact ⟨hrun.final.lastIndex_lt hp, hrun.final.acks⟩

/-! ## A fourth node -/

/-- Node 1 after it has proposed that node 4 joins. -/
def inviting : Option (Node Disk) :=
  (trio.start.play trio.act (fun _ _ _ => True)
    (elected ++ Move.calls 1 (.proposeJoint [1, 2, 3, 4]))).bind fun c => nodeAt c 1

/-- Node 4, which is started with the voters 1, 2 and 3. -/
def invited : Except Panic (Node Disk) := newNodeWithStore 4 [1, 2, 3] 4 {}

/-- The entry that the leader appended. -/
def invitation : Entry := { term := 1, kind := .jointConfig, oldVoters := 7, newVoters := 15 }

/-- Node 4 gets the entries 1 and 2 of the leader. -/
def inviteRun (leader : Node Disk) (check : Node Disk → Bool) : Bool :=
  match invited, leader.appendMessage 4 1 0, leader.appendMessage 4 2 0 with
  | .ok n, .ok m₁, .ok m₂ =>
    match [m₁, m₂].forM step n with
    | .ok _ n' => check n'
    | .error _ _ => false
  | _, _, _ => false

theorem inviteRun_eq {leader : Node Disk} {check : Node Disk → Bool}
    (h : inviteRun leader check = true) : ∃ n m₁ m₂ n', invited = .ok n ∧
      leader.appendMessage 4 1 0 = .ok m₁ ∧ leader.appendMessage 4 2 0 = .ok m₂ ∧
      [m₁, m₂].forM step n = .ok () n' ∧ check n' = true := by
  unfold inviteRun at h
  split at h
  · rename_i n m₁ m₂ hn h₁ h₂
    split at h
    · exact ⟨n, m₁, m₂, _, hn, h₁, h₂, ‹_›, h⟩
    · cases h
  · cases h

theorem inviting_leader : ∃ leader, inviting = some leader ∧ leader.state = .leader ∧
    leader.baseIndex = 0 ∧ (∃ e, leader.entryAt? 1 = some e ∧ e.isConfig = false) ∧
    leader.entryAt? 2 = some invitation ∧
    inviteRun leader (fun n' => !n'.faulted && n'.log != leader.log) = true := by
  have h : inviting.any (fun leader => decide (leader.state = .leader) &&
      decide (leader.baseIndex = 0) && ((leader.entryAt? 1).any fun e => !e.isConfig) &&
      decide (leader.entryAt? 2 = some invitation) &&
      inviteRun leader (fun n' => !n'.faulted && n'.log != leader.log)) = true := by
    decide +kernel
  simp only [Option.any_eq_true, Bool.and_eq_true, decide_eq_true_eq, Bool.not_eq_true'] at h
  obtain ⟨leader, hl, ⟨⟨⟨hs, hb⟩, he⟩, hj⟩, hr⟩ := h
  exact ⟨leader, hl, hs, hb, he, hj, hr⟩

/-- Node 4 has only the first entry then. -/
theorem invited_node_lacks_joint_entry :
    ∃ leader n n' m₁ m₂, inviting = some leader ∧ leader.state = .leader ∧
      leader.entryAt? 2 = some invitation ∧ invited = .ok n ∧
      leader.appendMessage 4 1 0 = .ok m₁ ∧ leader.appendMessage 4 2 0 = .ok m₂ ∧
      [m₁, m₂].forM step n = .ok () n' ∧ n'.faulted = false ∧ n'.log ≠ leader.log := by
  obtain ⟨leader, hl, hs, -, -, hj, hr⟩ := inviting_leader
  obtain ⟨n, m₁, m₂, n', hn, h₁, h₂, hrun, hcheck⟩ := inviteRun_eq hr
  simp only [Bool.and_eq_true, Bool.not_eq_true', bne_iff_ne] at hcheck
  exact ⟨leader, n, n', m₁, m₂, hl, hs, hj, hn, h₁, h₂, hrun, hcheck.1, hcheck.2⟩

theorem joining_node_stays_behind_four :
    ∃ leader n m₁ m₂, inviting = some leader ∧ invited = .ok n ∧ leader.SendsEntry 4 m₁ ∧
      leader.SendsEntry 4 m₂ ∧ (finalState ([m₁, m₂].forM step n)).lastIndex < 2 ∧
      ∀ m ∈ (finalState ([m₁, m₂].forM step n)).outbound, m.reject = false → m.matchIndex < 2 := by
  obtain ⟨leader, hl, -, -, ⟨e, he, hplain⟩, hj, hr⟩ := inviting_leader
  obtain ⟨n, m₁, m₂, -, hn, h₁, h₂, -, -⟩ := inviteRun_eq hr
  have hs₁ : leader.SendsEntry 4 m₁ := ⟨1, leader.commit, 0, by decide, h₁⟩
  have hs₂ : leader.SendsEntry 4 m₂ := ⟨2, leader.commit, 0, by decide, h₂⟩
  refine ⟨leader, n, m₁, m₂, hl, hn, hs₁, hs₂, ?_⟩
  have hmask : voterMask [1, 2, 3] = .ok (some 7) := by decide +kernel
  refine joining_node_stays_behind hn hmask (by decide) hj rfl rfl ?_ ?_
  · intro k e' h0 hk he'
    obtain rfl : k = 1 := by omega
    rw [he] at he'; cases he'
    exact hplain
  · intro m hm
    rcases List.mem_cons.mp hm with rfl | hm
    · exact hs₁
    · rw [List.mem_singleton.mp hm]; exact hs₂

end Promtact.Raft
