import Promtact.Raft.Effects.Basic

/-!
# Going over the log for configurations

`applyCommittedConfigurations` and `rebuildPendingConfig` go over a part of the log and change only
what is in memory. `Node.settle` and `Node.rebuild` are what they leave, as functions of the node,
and `applyCommittedConfigurations_rule` and `rebuildPendingConfig_rule` say so: with a node whose
own identifier is valid they do not panic.

`Valid id` says that `id` is an identifier of a node. In the rules, `P` is what is known if a check
fails, so a rule with `P := False` excludes the panics, and one with `P := True` permits them.
-/

namespace Promtact.Raft

open Refine

/-- The identifiers of nodes. -/
def Valid (id : Nat) : Prop := 0 < id ∧ id ≤ 64

instance : DecidablePred Valid := fun id => inferInstanceAs (Decidable (0 < id ∧ id ≤ 64))

theorem Mem.valid {id : Nat} {mask : Mask} (h : Mem id mask) : Valid id :=
  ⟨h.1, by have := BitVec.lt_of_getLsbD h.2; omega⟩

theorem mem_bit_self {id : Nat} (h : Valid id) : Mem id (bit id) := (mem_bit h.1 h.2).mpr rfl

theorem Valid.nodeBit {id : Nat} (h : Valid id) : nodeBit id = .ok (bit id) :=
  nodeBit_of_valid h.1 h.2

/-- The voters that are proposed are looked up. -/
theorem voterMask_ok {ids : List Nat} (h : ∀ id ∈ ids, Valid id) : ∃ mask, voterMask ids = .ok mask := by
  suffices ∀ (ids : List Nat) (voters : Option Mask), (∀ id ∈ ids, Valid id) →
      ∃ mask, ids.foldlM addVoter voters = .ok mask by
    unfold voterMask
    split
    · exact ⟨none, rfl⟩
    · exact this ids (some 0) h
  intro ids
  induction ids with
  | nil => exact fun voters _ => ⟨voters, rfl⟩
  | cons id ids ih =>
    intro voters hids
    have hadd : ∃ voters', addVoter voters id = .ok voters' := by
      cases voters with
      | none => exact ⟨none, rfl⟩
      | some mask =>
        rw [addVoter, (hids id List.mem_cons_self).nodeBit]
        exact ⟨_, rfl⟩
    obtain ⟨voters', hadd⟩ := hadd
    rw [List.foldlM_cons, hadd]
    exact ih voters' fun j hj => hids j (List.mem_cons_of_mem _ hj)

variable {σ : Type} {n : Node σ} {P : Prop}

/-! ## Reading the log -/

namespace Node

theorem entryAt?_isSome (hlog : n.log ≠ []) {k : Nat} (hb : n.baseIndex ≤ k) (hl : k ≤ n.lastIndex) :
    ∃ e ∈ n.log, n.entryAt? k = some e := by
  have hpos := List.length_pos_of_ne_nil hlog
  have hlt : k - n.baseIndex < n.log.length := by unfold lastIndex at hl; omega
  refine ⟨n.log[k - n.baseIndex], List.getElem_mem _, ?_⟩
  rw [entryAt?, offset, if_neg (by omega)]
  exact List.getElem?_eq_getElem hlt

theorem entryAt_ok (hlog : n.log ≠ []) {k : Nat} (hb : n.baseIndex ≤ k) (hl : k ≤ n.lastIndex) :
    ∃ e ∈ n.log, n.entryAt? k = some e ∧ n.entryAt k = .ok e := by
  obtain ⟨e, hmem, he⟩ := entryAt?_isSome hlog hb hl
  exact ⟨e, hmem, he, by rw [entryAt, he]; rfl⟩

theorem termAtMust_ok (hlog : n.log ≠ []) {k : Nat} (hb : n.baseIndex ≤ k) (hl : k ≤ n.lastIndex) :
    ∃ t, n.termAtMust k = .ok t := by
  obtain ⟨e, -, he⟩ := entryAt?_isSome hlog hb hl
  exact ⟨e.term, by rw [termAtMust, termAt, he]; rfl⟩

theorem baseIndex_le_lastIndex (hlog : n.log ≠ []) : n.baseIndex ≤ n.lastIndex := by
  have hpos := List.length_pos_of_ne_nil hlog
  unfold lastIndex
  omega

theorem lastTerm_ok (hlog : n.log ≠ []) : ∃ t, n.termAtMust n.lastIndex = .ok t :=
  termAtMust_ok hlog (baseIndex_le_lastIndex hlog) (Nat.le_refl _)

theorem jointVoters_ok (hlog : n.log ≠ []) {first last : Nat} (hb : n.baseIndex ≤ first)
    (hl : last ≤ n.lastIndex) : ∃ voters, n.jointVoters first last = .ok voters := by
  have key : ∀ count first voters, n.baseIndex ≤ first → first + count ≤ n.lastIndex + 1 →
      ∃ voters', (List.range' first count).foldlM (fun voters index => do
        let entry ← n.entryAt index
        pure (if entry.kind = .jointConfig then (entry.oldVoters, entry.newVoters) else voters))
        voters = (.ok voters' : Except Panic (Mask × Mask)) := by
    intro count
    induction count with
    | zero => exact fun first voters _ _ => ⟨voters, rfl⟩
    | succ count ih =>
      intro first voters hb hl
      obtain ⟨e, -, -, he⟩ := entryAt_ok hlog hb (show first ≤ n.lastIndex by omega)
      rw [List.range'_succ, List.foldlM_cons, he]
      exact ih (first + 1) _ (by omega) (by omega)
  rcases Nat.le_total first (last + 1) with hle | hle
  · exact key _ first _ hb (by omega)
  · rw [jointVoters, Nat.sub_eq_zero_of_le hle]
    exact ⟨_, rfl⟩

theorem entryAt_eq_ok {k : Nat} {e : Entry} (h : n.entryAt k = .ok e) : n.entryAt? k = some e := by
  unfold Node.entryAt at h
  split at h
  · cases h
    assumption
  · cases h

/-- The effective voters are those of the node, or those of a joint configuration in its log. -/
theorem jointVoters_cases {first last : Nat} {voters : Mask × Mask}
    (h : n.jointVoters first last = .ok voters) : voters = (n.votersOld, n.votersNew) ∨
      ∃ k e, first ≤ k ∧ k ≤ last ∧ n.entryAt? k = some e ∧ e.kind = .jointConfig ∧
        voters = (e.oldVoters, e.newVoters) := by
  unfold Node.jointVoters at h
  suffices ∀ (ks : List Nat) (start : Mask × Mask),
      ks.foldlM (fun voters index => do
        let entry ← n.entryAt index
        pure (if entry.kind = .jointConfig then (entry.oldVoters, entry.newVoters) else voters)) start =
          (.ok voters : Except Panic _) →
      voters = start ∨ ∃ k ∈ ks, ∃ e, n.entryAt? k = some e ∧ e.kind = .jointConfig ∧
        voters = (e.oldVoters, e.newVoters) by
    refine (this _ _ h).imp_right ?_
    rintro ⟨k, hk, e, he⟩
    rw [List.mem_range'_1] at hk
    exact ⟨k, e, hk.1, by omega, he⟩
  intro ks
  induction ks with
  | nil =>
    intro start h
    cases h
    exact .inl rfl
  | cons k ks ih =>
    intro start h
    rw [List.foldlM_cons] at h
    obtain ⟨start', hstart, h⟩ := check_ok h
    obtain ⟨e, he, hstart⟩ := check_ok hstart
    have hstart := Except.ok.inj hstart
    rcases ih start' h with hv | ⟨k', hk', hv⟩
    · split at hstart
      · exact .inr ⟨k, List.mem_cons_self, e, entryAt_eq_ok he, ‹_›, hv.trans hstart.symm⟩
      · exact .inl (hv.trans hstart.symm)
    · exact .inr ⟨k', List.mem_cons_of_mem _ hk', hv⟩

theorem jointVoters_succ {first last : Nat} {voters : Mask × Mask} (hle : first ≤ last + 1)
    (h : n.jointVoters first (last + 1) = .ok voters) :
    ∃ v e, n.jointVoters first last = .ok v ∧ n.entryAt? (last + 1) = some e ∧
      voters = if e.kind = .jointConfig then (e.oldVoters, e.newVoters) else v := by
  unfold Node.jointVoters at h
  rw [show last + 1 + 1 - first = last + 1 - first + 1 by omega, List.range'_1_concat,
    List.foldlM_append] at h
  obtain ⟨v, hv, h⟩ := check_ok h
  rw [List.foldlM_cons] at h
  obtain ⟨v', hv', h⟩ := check_ok h
  obtain ⟨e, he, hv'⟩ := check_ok hv'
  cases h
  rw [show first + (last + 1 - first) = last + 1 by omega] at he
  exact ⟨v, e, hv, entryAt_eq_ok he, (Except.ok.inj hv').symm⟩

theorem effectiveVoters_ok (hlog : n.log ≠ []) : ∃ voters, n.effectiveVoters = .ok voters :=
  jointVoters_ok hlog (by omega) (Nat.le_refl _)

theorem quorumMask_ok (hlog : n.log ≠ []) (mask : Mask) : ∃ b, n.quorumMask mask = .ok b := by
  obtain ⟨voters, hv⟩ := effectiveVoters_ok hlog
  exact ⟨quorumOf voters mask, by rw [quorumMask, hv]; rfl⟩

theorem isVoter_ok (hlog : n.log ≠ []) {id : Nat} (hid : Valid id) : ∃ b, n.isVoter id = .ok b := by
  obtain ⟨voters, hv⟩ := effectiveVoters_ok hlog
  refine ⟨(voters.1 ||| voters.2) &&& bit id != 0, ?_⟩
  rw [isVoter, hv]
  show (nodeBit id >>= _) = _
  rw [hid.nodeBit]
  rfl

theorem canCommitIndex_ok (hlog : n.log ≠ []) (hb : n.baseIndex ≤ n.commit) {index : Nat}
    (hl : index ≤ n.lastIndex) (acked : Mask) : ∃ b, n.canCommitIndex index acked = .ok b := by
  obtain ⟨voters, hv⟩ := jointVoters_ok hlog (show n.baseIndex ≤ n.commit + 1 by omega) hl
  exact ⟨quorumOf voters acked, by rw [canCommitIndex, hv]; rfl⟩

theorem ackedMask_ok (index : Nat) (hid : Valid n.id) (hp : ∀ p ∈ n.peers, Valid p) :
    ∃ mask, n.ackedMask index = .ok mask := by
  have key : ∀ (ps : List Nat) (acked : Mask), (∀ p ∈ ps, Valid p) →
      ∃ mask, ps.foldlM (n.addAck index) acked = .ok mask := by
    intro ps
    induction ps with
    | nil => exact fun acked _ => ⟨acked, rfl⟩
    | cons p ps ih =>
      intro acked hps
      have hadd : ∃ acked', n.addAck index acked p = .ok acked' := by
        rw [addAck, (hps p List.mem_cons_self).nodeBit]
        split <;> exact ⟨_, rfl⟩
      obtain ⟨acked', hadd⟩ := hadd
      rw [List.foldlM_cons, hadd]
      exact ih acked' fun p' hp' => hps p' (List.mem_cons_of_mem _ hp')
  rw [ackedMask, hid.nodeBit]
  exact key n.peers _ hp

/-- The index to commit is found. -/
theorem commitTarget_ok (hlog : n.log ≠ []) (hb : n.baseIndex ≤ n.commit) (hid : Valid n.id)
    (hp : ∀ p ∈ n.peers, Valid p) {above : Nat} (hl : n.commit + above ≤ n.lastIndex) :
    ∃ target, n.commitTarget above = .ok target := by
  induction above with
  | zero => exact ⟨none, rfl⟩
  | succ above ih =>
    obtain ⟨t, ht⟩ := termAtMust_ok hlog (show n.baseIndex ≤ n.commit + (above + 1) by omega) hl
    obtain ⟨mask, hmask⟩ := ackedMask_ok (n.commit + (above + 1)) hid hp
    obtain ⟨b, hb⟩ := canCommitIndex_ok hlog hb hl mask
    rw [commitTarget, ht]
    show ∃ target, (if t ≠ n.term then _ else _) = _
    split
    · exact ih (by omega)
    · rw [hmask]
      show ∃ target, (n.canCommitIndex _ mask >>= _) = _
      rw [hb]
      show ∃ target, (if b = true then _ else _) = _
      split
      · exact ⟨_, rfl⟩
      · exact ih (by omega)

/-- The look-up of an identifier out of range. -/
theorem isVoter_panic (hlog : n.log ≠ []) {id : Nat} (hid : ¬ Valid id) :
    n.isVoter id = .error .nodeID := by
  obtain ⟨voters, hv⟩ := effectiveVoters_ok hlog
  have hbit : nodeBit id = .error .nodeID := by
    unfold nodeBit
    rw [if_pos (by unfold Valid at hid; omega)]
  rw [isVoter, hv]
  show (nodeBit id >>= _) = _
  rw [hbit]
  rfl

/-- A voter has a valid identifier. -/
theorem valid_of_isVoter {id : Nat} {b : Bool} (h : n.isVoter id = .ok b) : Valid id := by
  obtain ⟨voters, -, h⟩ := check_ok h
  obtain ⟨mask, hbit, -⟩ := check_ok h
  exact (nodeBit_ok hbit).2

end Node

/-! ## What the loops leave -/

namespace Node

/-- A node that is not a voter any more follows. -/
def retire (n : Node σ) : Node σ :=
  match n.isVoter n.id with
  | .ok true => n
  | _ => { n with state := .follower, leader := 0, readReady := false }

/-- What `applyConfiguration` leaves. -/
def configure (n : Node σ) (entry : Entry) : Node σ :=
  match entry.kind with
  | .jointConfig =>
    { n with votersOld := entry.oldVoters, votersNew := entry.newVoters }.ensurePeers
      (entry.oldVoters ||| entry.newVoters)
  | .finalConfig => { n with votersOld := entry.oldVoters, votersNew := 0 }.retire
  | _ => n

/-- The pending configuration is cleared at its index. -/
def clearPending (n : Node σ) (index : Nat) : Node σ :=
  if index = n.pendingConfig then { n with pendingConfig := 0 } else n

/-- What a pass of `applyCommittedConfigurations` leaves. -/
def settleAt (n : Node σ) (index : Nat) : Node σ :=
  match n.entryAt? index with
  | some entry => (n.configure entry).clearPending index
  | none => n

/-- What `applyCommittedConfigurations` leaves. -/
def settle (n : Node σ) (first last : Nat) : Node σ :=
  let first := if first ≤ n.baseIndex then n.baseIndex + 1 else first
  (List.range' first (last + 1 - first)).foldl settleAt n

/-- The end of `appendEntry`: a configuration that is not committed yet. -/
def note (n : Node σ) (index : Nat) (entry : Entry) : Node σ :=
  if entry.isConfig then
    { n with pendingConfig := index }.ensurePeers (entry.oldVoters ||| entry.newVoters)
  else n

/-- What a pass of `rebuildPendingConfig` leaves. -/
def noteAt (n : Node σ) (index : Nat) : Node σ :=
  match n.entryAt? index with
  | some entry => n.note index entry
  | none => n

/-- What `rebuildPendingConfig` leaves. -/
def rebuild (n : Node σ) : Node σ :=
  let first := max (n.commit + 1) (n.baseIndex + 1)
  (List.range' first (n.lastIndex + 1 - first)).foldl noteAt { n with pendingConfig := 0 }

/-- The log is cut before `index`, and the configurations are looked for again. -/
def cut (n : Node σ) (index : Nat) : Node σ :=
  { n with log := n.log.take (index - n.baseIndex) }.rebuild

end Node

/-! ## What they keep -/

theorem Node.ensurePeers_same (n : Node σ) (mask : Mask) :
    ∃ peers next mtch, n.ensurePeers mask = { n with peers := peers, next := next, matchIdx := mtch } := by
  suffices ∀ (ids : List Nat) (n : Node σ), ∃ peers next mtch,
      ids.foldl (fun n id => n.ensurePeer mask id) n =
        { n with peers := peers, next := next, matchIdx := mtch } from this _ n
  intro ids
  induction ids with
  | nil => exact fun n => ⟨_, _, _, rfl⟩
  | cons id ids ih =>
    intro n
    have hid : ∃ peers next mtch,
        n.ensurePeer mask id = { n with peers := peers, next := next, matchIdx := mtch } := by
      unfold Node.ensurePeer
      split
      · exact ⟨_, _, _, rfl⟩
      · split <;> exact ⟨_, _, _, rfl⟩
    obtain ⟨peers, next, mtch, hid⟩ := hid
    obtain ⟨peers', next', mtch', hids⟩ := ih (n.ensurePeer mask id)
    rw [List.foldl_cons, hids, hid]
    exact ⟨_, _, _, rfl⟩

theorem Node.entryAt?_mem {k : Nat} {e : Entry} (h : n.entryAt? k = some e) : e ∈ n.log := by
  unfold Node.entryAt? at h
  obtain ⟨j, -, hj⟩ := Option.bind_eq_some_iff.mp h
  exact List.mem_of_getElem? hj

theorem Node.entryAt_mem {k : Nat} {e : Entry} (h : n.entryAt k = .ok e) : e ∈ n.log := by
  unfold Node.entryAt at h
  split at h
  · cases h
    exact Node.entryAt?_mem ‹_›
  · cases h

theorem Volatile.retire (n : Node σ) : Volatile n n.retire := by
  unfold Node.retire
  split
  · exact .refl n
  · exact ⟨⟨rfl, .inr rfl, .inr rfl⟩, .inl ⟨rfl, rfl, rfl⟩⟩

theorem Volatile.configure {e : Entry} (he : e ∈ n.log) : Volatile n (n.configure e) := by
  unfold Node.configure
  split <;> rename_i hkind
  · have hc : e.isConfig = true := by rw [Entry.isConfig, hkind]; rfl
    have hvoters : Volatile n { n with votersOld := e.oldVoters, votersNew := e.newVoters } :=
      ⟨⟨rfl, .inl rfl, .inl rfl⟩, .inr ⟨e, he, hc⟩⟩
    exact hvoters.trans (.ensurePeers _ _ he hc)
  · have hc : e.isConfig = true := by rw [Entry.isConfig, hkind]; rfl
    have hvoters : Volatile n { n with votersOld := e.oldVoters, votersNew := 0 } :=
      ⟨⟨rfl, .inl rfl, .inl rfl⟩, .inr ⟨e, he, hc⟩⟩
    exact hvoters.trans (.retire _)
  · exact .refl n

theorem Volatile.clearPending (n : Node σ) (index : Nat) : Volatile n (n.clearPending index) := by
  unfold Node.clearPending
  split
  · exact ⟨⟨rfl, .inl rfl, .inl rfl⟩, .inl ⟨rfl, rfl, rfl⟩⟩
  · exact .refl n

theorem Volatile.note {e : Entry} (he : e ∈ n.log) (index : Nat) : Volatile n (n.note index e) := by
  unfold Node.note
  split
  · rename_i hc
    have hpending : Volatile n { n with pendingConfig := index } :=
      ⟨⟨rfl, .inl rfl, .inl rfl⟩, .inl ⟨rfl, rfl, rfl⟩⟩
    exact hpending.trans (.ensurePeers _ _ he hc)
  · exact .refl n

theorem Volatile.settleAt (n : Node σ) (index : Nat) : Volatile n (n.settleAt index) := by
  unfold Node.settleAt
  split
  · exact (Volatile.configure (Node.entryAt?_mem ‹_›)).trans (.clearPending _ _)
  · exact .refl n

theorem Volatile.noteAt (n : Node σ) (index : Nat) : Volatile n (n.noteAt index) := by
  unfold Node.noteAt
  split
  · exact Volatile.note (Node.entryAt?_mem ‹_›) index
  · exact .refl n

theorem Volatile.foldl_settleAt (n : Node σ) (ks : List Nat) : Volatile n (ks.foldl Node.settleAt n) :=
  List.foldlRecOn ks _ (.refl n) fun n' h k _ => h.trans (.settleAt n' k)

theorem Volatile.foldl_noteAt (n : Node σ) (ks : List Nat) : Volatile n (ks.foldl Node.noteAt n) :=
  List.foldlRecOn ks _ (.refl n) fun n' h k _ => h.trans (.noteAt n' k)

theorem Volatile.settle (n : Node σ) (first last : Nat) : Volatile n (n.settle first last) :=
  .foldl_settleAt n _

theorem Volatile.rebuild (n : Node σ) : Volatile n n.rebuild := by
  have hpending : Volatile n { n with pendingConfig := 0 } :=
    ⟨⟨rfl, .inl rfl, .inl rfl⟩, .inl ⟨rfl, rfl, rfl⟩⟩
  exact hpending.trans (.foldl_noteAt _ _)

/-! ## Peers -/

/-- Peers are only added: each of them once, with a valid identifier, and behind the whole log. -/
structure Enlists (n n' : Node σ) : Prop where
  id : n'.id = n.id
  lastIndex : n'.lastIndex = n.lastIndex
  kept : ∀ p ∈ n.peers, p ∈ n'.peers
  nodup : n.peers.Nodup → n'.peers.Nodup
  peer : ∀ p ∈ n'.peers, p ∈ n.peers ∧ n'.next p = n.next p ∧ n'.matchIdx p = n.matchIdx p ∨
    Valid p ∧ p ≠ n.id ∧ n'.next p = n.lastIndex + 1 ∧ n'.matchIdx p = 0

namespace Enlists

variable {n' n'' : Node σ}

theorem of_same (hid : n'.id = n.id) (hlast : n'.lastIndex = n.lastIndex) (hp : n'.peers = n.peers)
    (hnext : n'.next = n.next) (hmatch : n'.matchIdx = n.matchIdx) : Enlists n n' where
  id := hid
  lastIndex := hlast
  kept p h := hp ▸ h
  nodup h := hp ▸ h
  peer p h := .inl ⟨hp ▸ h, by rw [hnext], by rw [hmatch]⟩

theorem refl (n : Node σ) : Enlists n n := of_same rfl rfl rfl rfl rfl

theorem trans (h : Enlists n n') (h' : Enlists n' n'') : Enlists n n'' where
  id := h'.id.trans h.id
  lastIndex := h'.lastIndex.trans h.lastIndex
  kept p hp := h'.kept p (h.kept p hp)
  nodup hn := h'.nodup (h.nodup hn)
  peer p hp := by
    rcases h'.peer p hp with ⟨hp', hnext, hmatch⟩ | ⟨hv, hne, hnext, hmatch⟩
    · rw [hnext, hmatch]
      exact h.peer p hp'
    · exact .inr ⟨hv, h.id ▸ hne, hnext.trans (by rw [h.lastIndex]), hmatch⟩

theorem foldl {f : Node σ → Nat → Node σ} {ks : List Nat} (hf : ∀ k ∈ ks, ∀ n, Enlists n (f n k))
    (n : Node σ) : Enlists n (ks.foldl f n) := by
  induction ks generalizing n with
  | nil => exact refl n
  | cons k ks ih =>
    exact (hf k (List.mem_cons_self ..) n).trans (ih (fun j hj => hf j (List.mem_cons_of_mem _ hj)) _)

theorem ensurePeer (n : Node σ) (mask : Mask) {id : Nat} (hid : Valid id) :
    Enlists n (n.ensurePeer mask id) := by
  unfold Node.ensurePeer
  split
  · exact refl n
  rename_i hne
  split
  · exact refl n
  rename_i hmem
  refine ⟨rfl, rfl, fun p hp => List.mem_append_left _ hp, fun hn => ?_, fun p hp => ?_⟩
  · refine List.nodup_append.mpr ⟨hn, List.nodup_singleton id, ?_⟩
    rintro p hp q hq rfl
    rw [List.mem_singleton.mp hq] at hp
    exact hmem hp
  · rcases List.mem_append.mp hp with hp | hp
    · have hpid : p ≠ id := fun h => hmem (h ▸ hp)
      exact .inl ⟨hp, Function.update_of_ne hpid .., Function.update_of_ne hpid ..⟩
    · rw [List.mem_singleton.mp hp]
      exact .inr ⟨hid, fun h => hne (.inl h), Function.update_self .., Function.update_self ..⟩

theorem ensurePeers (n : Node σ) (mask : Mask) : Enlists n (n.ensurePeers mask) := by
  refine foldl (fun id hid n => ensurePeer n mask ?_) n
  rw [List.mem_range'_1] at hid
  exact ⟨by omega, by omega⟩

/-- Everyone in the mask is a peer after that. -/
theorem mem_ensurePeers (n : Node σ) {mask : Mask} {id : Nat} (h : Mem id mask) :
    id = n.id ∨ id ∈ (n.ensurePeers mask).peers := by
  suffices ∀ (ids : List Nat) (n : Node σ), (∀ k ∈ ids, Valid k) →
      id ∈ ids ∨ id = n.id ∨ id ∈ n.peers →
      id = n.id ∨ id ∈ (ids.foldl (fun n id => n.ensurePeer mask id) n).peers by
    refine this _ n (fun k hk => ?_) (.inl ?_)
    · rw [List.mem_range'_1] at hk
      exact ⟨by omega, by omega⟩
    · obtain ⟨h0, h64⟩ := h.valid
      rw [List.mem_range'_1]
      exact ⟨h0, by omega⟩
  intro ids
  induction ids with
  | nil => exact fun n _ h => h.resolve_left List.not_mem_nil
  | cons k ids ih =>
    intro n hids hid
    have hk := ensurePeer n mask (hids k List.mem_cons_self)
    rw [List.foldl_cons, ← hk.id]
    refine ih _ (fun j hj => hids j (List.mem_cons_of_mem _ hj)) ?_
    rw [hk.id]
    rcases hid with hid | hid | hid
    · rcases List.mem_cons.mp hid with rfl | hid
      · refine .inr ?_
        have hmask : mask &&& bit id ≠ 0 := ne_zero_of_mem (mem_and.mpr ⟨h, mem_bit_self h.valid⟩)
        unfold Node.ensurePeer
        by_cases hn : id = n.id
        · exact .inl hn
        · rw [if_neg (by rw [not_or]; exact ⟨hn, hmask⟩)]
          split
          · exact .inr ‹_›
          · exact .inr (List.mem_append_right _ List.mem_cons_self)
      · exact .inl hid
    · exact .inr (.inl hid)
    · exact .inr (.inr (hk.kept id hid))

theorem retire (n : Node σ) : Enlists n n.retire := by
  unfold Node.retire
  split
  · exact refl n
  · exact of_same rfl rfl rfl rfl rfl

theorem configure (n : Node σ) (e : Entry) : Enlists n (n.configure e) := by
  unfold Node.configure
  split
  · exact .trans (of_same rfl rfl rfl rfl rfl :
      Enlists n { n with votersOld := e.oldVoters, votersNew := _ }) (ensurePeers _ _)
  · exact .trans (of_same rfl rfl rfl rfl rfl :
      Enlists n { n with votersOld := e.oldVoters, votersNew := _ }) (retire _)
  · exact refl n

theorem clearPending (n : Node σ) (index : Nat) : Enlists n (n.clearPending index) := by
  unfold Node.clearPending
  split
  · exact of_same rfl rfl rfl rfl rfl
  · exact refl n

theorem note (n : Node σ) (index : Nat) (e : Entry) : Enlists n (n.note index e) := by
  unfold Node.note
  split
  · exact (of_same rfl rfl rfl rfl rfl : Enlists n { n with pendingConfig := index }).trans
      (ensurePeers _ _)
  · exact refl n

theorem settle (n : Node σ) (first last : Nat) : Enlists n (n.settle first last) := by
  refine foldl (fun k _ n => ?_) n
  unfold Node.settleAt
  split
  · exact (configure _ _).trans (clearPending _ _)
  · exact refl n

theorem rebuild (n : Node σ) : Enlists n n.rebuild := by
  refine (of_same rfl rfl rfl rfl rfl : Enlists n { n with pendingConfig := 0 }).trans
    (foldl (fun k _ n => ?_) _)
  unfold Node.noteAt
  split
  · exact note _ _ _
  · exact refl n

end Enlists

/-- The node and its peers have different valid identifiers. -/
structure Node.ValidIds (n : Node σ) : Prop where
  id : Valid n.id
  peers : ∀ p ∈ n.peers, Valid p
  nodup : n.peers.Nodup

theorem Enlists.validIds {n' : Node σ} (h : Enlists n n') (hv : n.ValidIds) : n'.ValidIds where
  id := h.id ▸ hv.id
  peers p hp := (h.peer p hp).elim (fun hp => hv.peers p hp.1) fun hp => hp.1
  nodup := h.nodup hv.nodup

/-- There are at most 64 peers. -/
theorem Node.ValidIds.length_le (h : n.ValidIds) : n.peers.length ≤ 64 := by
  have hsub : n.peers ⊆ List.range' 1 64 := fun p hp => by
    obtain ⟨h0, h64⟩ := h.peers p hp
    rw [List.mem_range'_1]
    omega
  have := (h.nodup.subperm hsub).length_le
  rwa [List.length_range'] at this

/-! ## The rules -/

theorem applyConfiguration_rule (hlog : n.log ≠ []) (hid : P ∨ Valid n.id) (e : Entry) :
    Triple (fun n' => P ∧ n'.store = n.store) (applyConfiguration e) n
      fun _ n' => n' = n.configure e := by
  cases hk : e.kind with
  | jointConfig =>
    simp only [applyConfiguration, Node.configure, hk]
    exact Sim.update rfl
  | finalConfig =>
    simp only [applyConfiguration, Node.configure, hk]
    refine Sim.seq_update (Sim.seq_get ?_)
    generalize hn : ({ n with votersOld := e.oldVoters, votersNew := 0 } : Node σ) = n₁
    have hlog₁ : n₁.log ≠ [] := by rw [← hn]; exact hlog
    have hid₁ : P ∨ Valid n₁.id := by rw [← hn]; exact hid
    have hstore : n₁.store = n.store := by rw [← hn]
    cases hv : n₁.isVoter n₁.id with
    | error err =>
      refine hid₁.elim (fun hp => ⟨(), .refl, hp, hstore⟩) fun hid₁ => ?_
      obtain ⟨b, hb⟩ := Node.isVoter_ok hlog₁ hid₁
      cases hb.symm.trans hv
    | ok voter =>
      refine Sim.seq_check rfl ?_
      unfold Node.retire
      rw [hv]
      cases voter with
      | true => exact Sim.ret rfl
      | false => exact Sim.update rfl
  | normal | noop | other =>
    simp only [applyConfiguration, Node.configure, hk]
    exact Sim.ret rfl

theorem applyCommittedConfigurations_rule (hlog : n.log ≠ []) (hid : P ∨ Valid n.id) {first last : Nat}
    (hl : last ≤ n.lastIndex) :
    Triple (fun n' => P ∧ n'.store = n.store) (applyCommittedConfigurations first last) n
      fun _ n' => n' = n.settle first last := by
  unfold applyCommittedConfigurations Node.settle
  refine Sim.seq_get ?_
  dsimp only
  generalize hfirst : (if first ≤ n.baseIndex then n.baseIndex + 1 else first) = start
  have hstart : n.baseIndex ≤ start := by split at hfirst <;> omega
  clear hfirst
  -- the passes up to `k` have been made
  refine (Sim.upTo (I := fun k _ n' => n' = (List.range' start (k - start)).foldl Node.settleAt n)
    ?_ ?_).mono ?_
  · rw [Nat.sub_self]
    rfl
  · rintro k hk hkl _ _ rfl
    generalize hm : (List.range' start (k - start)).foldl Node.settleAt n = m
    have hv : Volatile n m := hm ▸ .foldl_settleAt n _
    have hlog' : m.log ≠ [] := by rw [hv.log]; exact hlog
    obtain ⟨e, -, he?, he⟩ := Node.entryAt_ok hlog'
      (show m.baseIndex ≤ k by rw [hv.baseIndex]; omega) (by rw [hv.lastIndex]; omega)
    refine Sim.seq_get (Sim.seq_check he ?_)
    rw [← hv.store]
    refine Sim.seq (applyConfiguration_rule hlog' (by rw [hv.id]; exact hid) e) ?_
    rintro _ _ _ - rfl
    refine Sim.update ?_
    rw [show k + 1 - start = k - start + 1 by omega, List.range'_1_concat, List.foldl_concat, hm,
      show start + (k - start) = k by omega, Node.settleAt, he?]
    rfl
  · rintro _ _ n' - rfl
    rw [show max start (last + 1) - start = last + 1 - start by omega]

theorem rebuildPendingConfig_rule {B : Node σ → Prop} (hlog : n.log ≠ []) :
    Triple B rebuildPendingConfig n fun _ n' => n' = n.rebuild := by
  unfold rebuildPendingConfig Node.rebuild
  refine Sim.seq_update (Sim.seq_get ?_)
  dsimp only
  have hlast : ({ n with pendingConfig := 0 } : Node σ).lastIndex = n.lastIndex := rfl
  rw [hlast]
  generalize hn : ({ n with pendingConfig := 0 } : Node σ) = n₁ at hlast
  have hbase : n₁.baseIndex = n.baseIndex := by rw [← hn]
  have hlog₁ : n₁.log ≠ [] := by rw [← hn]; exact hlog
  generalize hstart : max (n.commit + 1) (n.baseIndex + 1) = start
  refine (Sim.upTo (I := fun k _ n' => n' = (List.range' start (k - start)).foldl Node.noteAt n₁)
    ?_ ?_).mono ?_
  · rw [Nat.sub_self]
    rfl
  · rintro k hk hkl _ _ rfl
    generalize hm : (List.range' start (k - start)).foldl Node.noteAt n₁ = m
    have hv : Volatile n₁ m := hm ▸ .foldl_noteAt n₁ _
    have hlog' : m.log ≠ [] := by rw [hv.log]; exact hlog₁
    obtain ⟨e, -, he?, he⟩ := Node.entryAt_ok hlog'
      (show m.baseIndex ≤ k by rw [hv.baseIndex, hbase]; omega) (by rw [hv.lastIndex, hlast]; omega)
    have hnote : (List.range' start (k + 1 - start)).foldl Node.noteAt n₁ = m.note k e := by
      rw [show k + 1 - start = k - start + 1 by omega, List.range'_1_concat, List.foldl_concat, hm,
        show start + (k - start) = k by omega, Node.noteAt, he?]
    rw [hnote]
    refine Sim.seq_get (Sim.seq_check he (Sim.ite (fun hc => ?_) fun hc => ?_))
    · exact Sim.update (by rw [Node.note, if_pos hc])
    · exact Sim.ret (by rw [Node.note, if_neg hc])
  · rintro _ _ n' - rfl
    rw [show max start (n.lastIndex + 1) - start = n.lastIndex + 1 - start by omega]

end Promtact.Raft
