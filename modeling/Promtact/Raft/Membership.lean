import Promtact.Raft.Handlers

/-!
# Voter masks are sets of voters (`raft/membership.go`, `raft/node.go`: `voterMask`)

`Membership` says over lists of voters when an index is committed; the node says it over masks.

* `mem_voterMask`: the members of the mask of a list are the members of the list.
* `bitsSet_passes`: the loop of `bitsSet` ends, after as many passes as there are set bits.
* `quorumOf_masks`: a quorum of the masks is a quorum of the lists.
* `quorumOf_inter`: two quorums of configurations that share a voter set meet in that set.
-/

namespace Promtact.Raft

open Refine

/-! ## The mask of a list -/

theorem addVoters_none (ids : List Nat) : ids.foldlM addVoter none = .ok none := by
  induction ids with
  | nil => rfl
  | cons id ids ih => exact ih

theorem mem_addVoters {ids : List Nat} {voters mask : Mask} {id : Nat}
    (h : ids.foldlM addVoter (some voters) = .ok (some mask)) :
    Mem id mask ↔ Mem id voters ∨ id ∈ ids := by
  induction ids generalizing voters with
  | nil => cases h; simp
  | cons p ids ih =>
    rw [List.foldlM_cons] at h
    obtain ⟨next, hnext, h⟩ := check_ok h
    obtain ⟨bit, hbit, hnext⟩ := check_ok hnext
    obtain ⟨rfl, h1, h2⟩ := nodeBit_ok hbit
    cases hnext
    split at h
    · rw [addVoters_none] at h; cases h
    · rw [ih h, mem_or, mem_bit h1 h2, List.mem_cons]; tauto

/-- The voters of a mask that was accepted. -/
theorem mem_voterMask {ids : List Nat} {mask : Mask} {id : Nat}
    (h : voterMask ids = .ok (some mask)) : Mem id mask ↔ id ∈ ids := by
  unfold voterMask at h
  split at h
  · cases h
  · rw [mem_addVoters h]; simp [Mem]

theorem voterMask_ne_zero {ids : List Nat} {mask : Mask} (h : voterMask ids = .ok (some mask)) :
    mask ≠ 0 := by
  cases ids with
  | nil => cases h
  | cons id ids => exact ne_zero_of_mem ((mem_voterMask h).mpr List.mem_cons_self)

/-- A mask that shares a bit with that of a node has the node. -/
theorem mem_of_and_bit {mask : Mask} {id : Nat} (h0 : 0 < id) (h64 : id ≤ 64)
    (h : mask &&& bit id ≠ 0) : Mem id mask := by
  by_contra hm
  refine h (eq_of_mem_iff fun k => ?_)
  rw [mem_and, mem_bit h0 h64]
  constructor
  · rintro ⟨hk, rfl⟩
    exact absurd hk hm
  · intro hk
    simp [Mem] at hk

/-- Voters with different identifiers in range. -/
structure Voters (ids : List Nat) : Prop where
  nodup : ids.Nodup
  valid : ∀ id ∈ ids, 0 < id ∧ id ≤ 64

instance (ids : List Nat) : Decidable (Voters ids) :=
  decidable_of_iff (ids.Nodup ∧ ∀ id ∈ ids, 0 < id ∧ id ≤ 64)
    ⟨fun h => ⟨h.1, h.2⟩, fun h => ⟨h.nodup, h.valid⟩⟩

theorem addVoters_some {ids : List Nat} {voters : Mask} (h : Voters ids)
    (hnew : ∀ id ∈ ids, ¬ Mem id voters) :
    ∃ mask, ids.foldlM addVoter (some voters) = .ok (some mask) := by
  induction ids generalizing voters with
  | nil => exact ⟨voters, rfl⟩
  | cons id ids ih =>
    obtain ⟨h0, h64⟩ := h.valid id List.mem_cons_self
    obtain ⟨hid, hnodup⟩ := List.nodup_cons.mp h.nodup
    have hadd : addVoter (some voters) id = .ok (some (voters ||| bit id)) := by
      have hfree : ¬ voters &&& bit id ≠ 0 := fun hne =>
        hnew id List.mem_cons_self (mem_of_and_bit h0 h64 hne)
      simp only [addVoter, nodeBit_of_valid h0 h64]
      exact congrArg Except.ok (if_neg hfree)
    rw [List.foldlM_cons, hadd]
    refine ih ⟨hnodup, fun k hk => h.valid k (List.mem_cons_of_mem _ hk)⟩ fun k hk hmem => ?_
    rcases mem_or.mp hmem with hmem | hmem
    · exact hnew k (List.mem_cons_of_mem _ hk) hmem
    · exact hid ((mem_bit h0 h64).mp hmem ▸ hk)

/-- Different voters in range have a mask. -/
theorem voterMask_some {ids : List Nat} (h : Voters ids) (hne : ids ≠ []) :
    ∃ mask, voterMask ids = .ok (some mask) := by
  have hnone : ∀ id ∈ ids, ¬ Mem id 0 := fun id _ hm => by simp [Mem] at hm
  obtain ⟨mask, hmask⟩ := addVoters_some h hnone
  exact ⟨mask, by rw [voterMask, if_neg hne, hmask]⟩

/-! ## Counting -/

theorem bits_zero : bits 0 = ∅ := by simp [bits]

theorem bits_eq_empty {mask : Mask} : bits mask = ∅ ↔ mask = 0 := by
  constructor
  · intro h
    refine eq_of_mem_iff fun id => ⟨fun hm => ?_, fun hm => by simp [Mem] at hm⟩
    have hlt := BitVec.lt_of_getLsbD hm.2
    have hmem : (⟨id - 1, hlt⟩ : Fin 64) ∈ bits mask := mem_bits.mpr hm.2
    simp [h] at hmem
  · rintro rfl
    exact bits_zero

/-- The loop of `bitsSet` makes one pass for each set bit, and ends then. -/
theorem bitsSet_passes (mask : Mask) :
    clearLowest^[bitsSet mask] mask = 0 ∧ ∀ k < bitsSet mask, clearLowest^[k] mask ≠ 0 := by
  rw [bitsSet_eq_card]
  generalize hc : (bits mask).card = count
  induction count generalizing mask with
  | zero =>
    have h0 : mask = 0 := bits_eq_empty.mp (Finset.card_eq_zero.mp hc)
    exact ⟨h0, fun k hk => absurd hk (Nat.not_lt_zero k)⟩
  | succ count ih =>
    have hne : mask ≠ 0 := by
      rintro rfl
      rw [bits_zero] at hc
      cases hc
    have hcard := card_clearLowest hne
    obtain ⟨hend, hbefore⟩ := ih (clearLowest mask) (by omega)
    refine ⟨by rw [Function.iterate_succ_apply]; exact hend, fun k hk => ?_⟩
    cases k with
    | zero => exact hne
    | succ k =>
      rw [Function.iterate_succ_apply]
      exact hbefore k (by omega)

/-- The set bits of the mask of a list are its elements. -/
theorem bitsSet_eq_length {ids : List Nat} {mask : Mask} (hnodup : ids.Nodup)
    (h : ∀ id, Mem id mask ↔ id ∈ ids) : bitsSet mask = ids.length := by
  have himage : (bits mask).map ⟨fun i : Fin 64 => (i : Nat) + 1, fun i j hij => by
      simpa [Fin.ext_iff] using hij⟩ = ids.toFinset := by
    ext id
    rw [List.mem_toFinset, ← h id, Finset.mem_map]
    constructor
    · rintro ⟨i, hi, rfl⟩
      exact ⟨Nat.succ_pos _, mem_bits.mp hi⟩
    · rintro ⟨h0, hm⟩
      exact ⟨⟨id - 1, BitVec.lt_of_getLsbD hm⟩, mem_bits.mpr hm, Nat.sub_add_cancel h0⟩
  rw [bitsSet_eq_card, ← List.toFinset_card_of_nodup hnodup, ← himage, Finset.card_map]

/-! ## Quorums of lists -/

/-- `Membership`: the voters as lists. -/
structure Membership where
  old : List Nat
  new : List Nat

/-- `majority`: every occurrence in the list counts. -/
def majority (voters : List Nat) (acked : Nat → Bool) : Bool :=
  if voters.length = 0 then false
  else
    let count := voters.foldl (fun count id => if acked id then count + 1 else count) 0
    decide (count ≥ voters.length / 2 + 1)

/-- `Joint`. -/
def Membership.joint (m : Membership) : Bool := m.new.length != 0

/-- `CanCommit`: in a joint configuration both majorities are needed. -/
def Membership.canCommit (m : Membership) (acked : Nat → Bool) : Bool :=
  if !majority m.old acked then false else !m.joint || majority m.new acked

/-- The masks of the two lists. `voterMask` returns 0 for an empty one. -/
def Membership.masks (m : Membership) : Except Panic (Mask × Mask) := do
  let old ← voterMask m.old
  let new ← voterMask m.new
  pure (old.getD 0, new.getD 0)

theorem count_eq_filter (voters : List Nat) (acked : Nat → Bool) (count : Nat) :
    voters.foldl (fun count id => if acked id then count + 1 else count) count =
      count + (voters.filter acked).length := by
  induction voters generalizing count with
  | nil => simp
  | cons id voters ih =>
    rw [List.foldl_cons, ih, List.filter_cons]
    split
    · rw [List.length_cons]
      omega
    · rfl

/-- A majority of the mask is a majority of the list. -/
theorem majorityMask_eq {ids : List Nat} {mask a : Mask} {acked : Nat → Bool} (hv : Voters ids)
    (hmask : voterMask ids = .ok (some mask)) (ha : ∀ id, acked id = true ↔ Mem id a) :
    majorityMask mask a = majority ids acked := by
  have hboth : ∀ id, Mem id (mask &&& a) ↔ id ∈ ids.filter acked := fun id => by
    rw [mem_and, mem_voterMask hmask, List.mem_filter, ha]
  have hlen : ids.length ≠ 0 := by
    rintro h0
    rw [List.length_eq_zero_iff.mp h0] at hmask
    cases hmask
  rw [majorityMask, majority, bitsSet_eq_length hv.nodup fun id => mem_voterMask hmask,
    bitsSet_eq_length (hv.nodup.filter acked) hboth, if_neg hlen, count_eq_filter, Nat.zero_add,
    decide_eq_true (voterMask_ne_zero hmask), Bool.true_and]

theorem quorumOf_masks {m : Membership} {a : Mask} {acked : Nat → Bool} (hold : m.old ≠ [])
    (hvold : Voters m.old) (hvnew : Voters m.new) (ha : ∀ id, acked id = true ↔ Mem id a) :
    ∃ voters, m.masks = .ok voters ∧ Node.quorumOf voters a = m.canCommit acked := by
  obtain ⟨old, hold⟩ := voterMask_some hvold hold
  have hcommit : m.canCommit acked = (majority m.old acked && (!m.joint || majority m.new acked)) := by
    rw [Membership.canCommit]
    cases majority m.old acked <;> rfl
  rw [hcommit]
  by_cases hnew : m.new = []
  · refine ⟨(old, 0), ?_, ?_⟩
    · rw [Membership.masks, hold, hnew]
      rfl
    · simp [Node.quorumOf, Membership.joint, hnew, majorityMask_eq hvold hold ha]
  · obtain ⟨new, hn⟩ := voterMask_some hvnew hnew
    refine ⟨(old, new), ?_, ?_⟩
    · rw [Membership.masks, hold, hn]
      rfl
    · have hzero : (new == 0) = false := beq_eq_false_iff_ne.mpr (voterMask_ne_zero hn)
      have hjoint : m.joint = true := by simpa [Membership.joint] using hnew
      rw [Node.quorumOf, majorityMask_eq hvold hold ha, majorityMask_eq hvnew hn ha, hzero, hjoint]
      rfl

/-! ## Quorums meet -/

/-- `v` is one of the voter sets of the configuration. -/
def Side (v : Mask) (voters : Mask × Mask) : Prop := v = voters.1 ∨ v = voters.2 ∧ voters.2 ≠ 0

theorem Side.majority {v a : Mask} {voters : Mask × Mask} (h : Side v voters)
    (hq : Node.quorumOf voters a = true) : majorityMask v a = true := by
  simp only [Node.quorumOf, Bool.and_eq_true, Bool.or_eq_true, beq_iff_eq] at hq
  rcases h with rfl | ⟨rfl, hne⟩
  · exact hq.1
  · exact hq.2.resolve_left hne

/-- Two majorities of one voter set have a voter of it in common. -/
theorem majorityMask_meet {v a b : Mask} (ha : majorityMask v a = true)
    (hb : majorityMask v b = true) : ∃ id, Mem id v ∧ Mem id a ∧ Mem id b := by
  have hself : ∀ c, majorityMask v (v &&& c) = majorityMask v c := fun c => by
    have hand : v &&& (v &&& c) = v &&& c :=
      eq_of_mem_iff fun id => by rw [mem_and, mem_and]; tauto
    rw [majorityMask, majorityMask, hand]
  obtain ⟨id, h, h'⟩ := majorityMask_inter ((hself a).trans ha) ((hself b).trans hb)
  exact ⟨id, (mem_and.mp h).1, (mem_and.mp h).2, (mem_and.mp h').2⟩

theorem quorumOf_inter {c c' : Mask × Mask} {v a b : Mask} (ha : Node.quorumOf c a = true)
    (hb : Node.quorumOf c' b = true) (h : Side v c) (h' : Side v c') :
    ∃ id, Mem id v ∧ Mem id a ∧ Mem id b :=
  majorityMask_meet (h.majority ha) (h'.majority hb)

/-- The quorums of the masks are those of the lists, the loop that counts them ends, and quorums of
configurations that share a voter set meet in it. -/
theorem mask_quorums_are_set_quorums :
    (∀ (m : Membership) (a : Mask) (acked : Nat → Bool), m.old ≠ [] → Voters m.old → Voters m.new →
      (∀ id, acked id = true ↔ Mem id a) →
      ∃ voters, m.masks = .ok voters ∧ Node.quorumOf voters a = m.canCommit acked) ∧
    (∀ mask, (clearLowest^[bitsSet mask] mask = 0 ∧ ∀ k < bitsSet mask, clearLowest^[k] mask ≠ 0) ∧
      bitsSet mask = ((List.range 64).filter (mask.getLsbD ·)).length) ∧
    ∀ (c c' : Mask × Mask) (v a b : Mask), Node.quorumOf c a = true → Node.quorumOf c' b = true →
      Side v c → Side v c' → ∃ id, Mem id v ∧ Mem id a ∧ Mem id b := by
  refine ⟨fun m a acked hold hvold hvnew ha => quorumOf_masks hold hvold hvnew ha,
    fun mask => ⟨bitsSet_passes mask, ?_⟩, fun c c' v a b ha hb h h' => quorumOf_inter ha hb h h'⟩
  have hnodup : (((List.range 64).filter (mask.getLsbD ·)).map (· + 1)).Nodup :=
    (List.nodup_range.filter _).map (Nat.succ_injective)
  rw [bitsSet_eq_length hnodup fun id => ?_, List.length_map]
  rw [List.mem_map]
  constructor
  · rintro ⟨h0, hm⟩
    have hlt := BitVec.lt_of_getLsbD hm
    exact ⟨id - 1, List.mem_filter.mpr ⟨List.mem_range.mpr hlt, hm⟩, Nat.sub_add_cancel h0⟩
  · rintro ⟨k, hk, rfl⟩
    exact ⟨Nat.succ_pos k, (List.mem_filter.mp hk).2⟩

/-- Nodes 1, 2 and 64 move to 2 and 3. The acknowledgements of 2, 3 and 64 are enough. -/
theorem mask_quorums_joint :
    ∃ voters, (Membership.mk [1, 2, 64] [2, 3]).masks = .ok voters ∧
      Node.quorumOf voters (bit 2 ||| bit 3 ||| bit 64) = true := by
  obtain ⟨voters, hmasks, hq⟩ := mask_quorums_are_set_quorums.1 ⟨[1, 2, 64], [2, 3]⟩
    (bit 2 ||| bit 3 ||| bit 64) (fun id => decide (id = 2 ∨ id = 3 ∨ id = 64)) (by decide)
    (by decide) (by decide) fun id => by
      rw [mem_or, mem_or, mem_bit (by decide) (by decide), mem_bit (by decide) (by decide),
        mem_bit (by decide) (by decide), decide_eq_true_eq, or_assoc]
  exact ⟨voters, hmasks, hq.trans (by decide)⟩

end Promtact.Raft
