import Promtact.Raft.Types
import Mathlib.Data.Fintype.Card
import Mathlib.Algebra.Order.Ring.Nat
import Mathlib.Algebra.Ring.Parity
import Mathlib.Data.Nat.Factorization.Basic
import Mathlib.Tactic.Ring

/-!
# Voter masks (`raft/node.go`: `nodeBit`, `bitsSet`, `majorityMask`)

`bitsSet` is the loop that clears the lowest set bit until none is left. `bitsSet_eq_card` says
that it counts the set bits, and `majorityMask_inter` that two majorities of one voter set have a
voter in common.
-/

namespace Promtact.Raft

/-- The bit of node `id`. -/
def bit (id : Nat) : Mask := 1#64 <<< (id - 1)

/-- `nodeBit`: an id outside 1..64 is a panic. -/
def nodeBit (id : Nat) : Except Panic Mask :=
  if id = 0 ∨ 64 < id then .error .nodeID else .ok (bit id)

/-- `for mask != 0 { mask &= mask - 1; count++ }`. Each pass clears a bit, so a mask of 64 bits
takes at most 64 passes (`bitsSetLoop_eq`). -/
def bitsSetLoop : Nat → Mask → Nat → Nat
  | 0, _, count => count
  | fuel + 1, mask, count =>
    if mask ≠ 0 then bitsSetLoop fuel (mask &&& (mask - 1)) (count + 1) else count

/-- `bitsSet`: the number of members of a mask. -/
def bitsSet (mask : Mask) : Nat := bitsSetLoop 64 mask 0

/-- `majorityMask`: an empty configuration has no majority. -/
def majorityMask (voters acked : Mask) : Bool :=
  voters ≠ 0 && bitsSet (voters &&& acked) ≥ bitsSet voters / 2 + 1

/-- `id` is a node identifier whose bit is set in `mask`. -/
def Mem (id : Nat) (mask : Mask) : Prop := 0 < id ∧ mask.getLsbD (id - 1) = true

/-- The positions of the set bits. -/
def bits (mask : Mask) : Finset (Fin 64) := Finset.univ.filter fun i => mask.getLsbD i

theorem mem_bits {mask : Mask} {i : Fin 64} : i ∈ bits mask ↔ mask.getLsbD i = true := by
  simp [bits]

theorem bits_and (a b : Mask) : bits (a &&& b) = bits a ∩ bits b := by
  ext i; simp [bits]

/-- Subtracting one clears the lowest set bit and sets the bits below it. -/
theorem and_sub_one_getLsbD {m : Mask} (hm : m ≠ 0) :
    ∃ k : Fin 64, m.getLsbD k = true ∧
      ∀ i : Fin 64, (m &&& (m - 1)).getLsbD i = (m.getLsbD i && decide (i ≠ k)) := by
  have hn : m.toNat ≠ 0 := fun h => hm (BitVec.eq_of_toNat_eq (by simpa using h))
  obtain ⟨k, q, ⟨a, ha⟩, hq⟩ := Nat.exists_eq_two_pow_mul_odd hn
  have hsub : (m - 1).toNat = m.toNat - 1 := by
    have := m.isLt
    rw [BitVec.toNat_sub]; simp; omega
  have e₁ : m.toNat = 2 ^ (k + 1) * a + 2 ^ k := by rw [hq, ha]; ring
  have hp := Nat.two_pow_pos k
  have e₂ : (m - 1).toNat = 2 ^ (k + 1) * a + (2 ^ k - 1) := by omega
  have hlt : 2 ^ k < 2 ^ (k + 1) := by rw [Nat.pow_succ]; omega
  have b₁ : ∀ j, m.getLsbD j = if j < k + 1 then decide (k = j) else a.testBit (j - (k + 1)) := by
    intro j
    rw [BitVec.getLsbD, e₁, Nat.testBit_two_pow_mul_add _ hlt, Nat.testBit_two_pow]
  have b₂ : ∀ j, (m - 1).getLsbD j =
      if j < k + 1 then decide (j < k) else a.testBit (j - (k + 1)) := by
    intro j
    rw [BitVec.getLsbD, e₂, Nat.testBit_two_pow_mul_add _ (by omega), Nat.testBit_two_pow_sub_one]
  have hk : k < 64 := by
    by_contra hge
    have h1 : 2 ^ 64 ≤ 2 ^ k := Nat.pow_le_pow_right (by omega) (by omega)
    have := m.isLt; omega
  refine ⟨⟨k, hk⟩, by simp [b₁], fun i => ?_⟩
  rw [BitVec.getLsbD_and, b₁, b₂]
  rcases Nat.lt_trichotomy i k with hi | hi | hi
  · simp [show (i : Nat) < k + 1 by omega, show k ≠ i by omega]
  · subst hi; simp
  · have : (⟨k, hk⟩ : Fin 64) ≠ i := fun h => by rw [← h] at hi; simp at hi
    simp [show ¬ (i : Nat) < k + 1 by omega, Ne.symm this]

/-- A pass of the loop of `bitsSet`. -/
def clearLowest (mask : Mask) : Mask := mask &&& (mask - 1)

/-- A pass clears one bit. -/
theorem card_clearLowest {mask : Mask} (h : mask ≠ 0) :
    (bits (clearLowest mask)).card + 1 = (bits mask).card := by
  obtain ⟨k, hk, hall⟩ := and_sub_one_getLsbD h
  have hbits : bits (clearLowest mask) = (bits mask).erase k := by
    ext i
    rw [mem_bits, clearLowest, hall, Finset.mem_erase, mem_bits]
    simp [and_comm]
  rw [hbits]
  exact Finset.card_erase_add_one (mem_bits.mpr hk)

/-- Enough passes of the loop count the set bits. -/
theorem bitsSetLoop_eq {fuel : Nat} {m : Mask} {count : Nat} (h : (bits m).card ≤ fuel) :
    bitsSetLoop fuel m count = count + (bits m).card := by
  induction fuel generalizing m count with
  | zero => simp [bitsSetLoop, Nat.le_zero.mp h]
  | succ fuel ih =>
    rw [bitsSetLoop]
    split
    · rename_i hm
      have hcard : (bits (m &&& (m - 1))).card + 1 = (bits m).card := card_clearLowest hm
      rw [ih (by omega)]; omega
    · rename_i hm
      have : m = 0 := by simpa using hm
      subst this; simp [bits]

theorem bitsSet_eq_card (m : Mask) : bitsSet m = (bits m).card := by
  rw [bitsSet, bitsSetLoop_eq (by simpa using (bits m).card_le_univ)]; omega

/-- Two majorities of one voter set meet. -/
theorem majorityMask_inter {v a b : Mask} (ha : majorityMask v a = true)
    (hb : majorityMask v b = true) : ∃ id, Mem id a ∧ Mem id b := by
  simp only [majorityMask, bitsSet_eq_card, bits_and, Bool.and_eq_true, decide_eq_true_eq] at ha hb
  have hunion : (bits v ∩ bits a ∪ bits v ∩ bits b).card ≤ (bits v).card :=
    Finset.card_le_card (Finset.union_subset Finset.inter_subset_left Finset.inter_subset_left)
  have hsum := Finset.card_union_add_card_inter (bits v ∩ bits a) (bits v ∩ bits b)
  have hpos : 0 < ((bits v ∩ bits a) ∩ (bits v ∩ bits b)).card := by omega
  obtain ⟨i, hi⟩ := Finset.card_pos.mp hpos
  simp only [Finset.mem_inter, mem_bits] at hi
  exact ⟨i + 1, ⟨by omega, by simpa using hi.1.2⟩, ⟨by omega, by simpa using hi.2.2⟩⟩

theorem mem_bit {id j : Nat} (h : 0 < id) (h' : id ≤ 64) : Mem j (bit id) ↔ j = id := by
  simp only [Mem, bit, BitVec.getLsbD_shiftLeft, BitVec.getLsbD_one]
  constructor
  · rintro ⟨h0, hh⟩; simp at hh; omega
  · rintro rfl; simp; omega

theorem mem_or {id : Nat} {a b : Mask} : Mem id (a ||| b) ↔ Mem id a ∨ Mem id b := by
  simp [Mem]; tauto

theorem mem_and {id : Nat} {a b : Mask} : Mem id (a &&& b) ↔ Mem id a ∧ Mem id b := by
  simp [Mem]; tauto

/-- A mask is the set of its members. -/
theorem eq_of_mem_iff {a b : Mask} (h : ∀ id, Mem id a ↔ Mem id b) : a = b := by
  refine BitVec.eq_of_getLsbD_eq fun i _ => ?_
  have := h (i + 1)
  simp only [Mem, Nat.add_sub_cancel, Nat.succ_pos, true_and] at this
  exact Bool.eq_iff_iff.mpr this

theorem nodeBit_ok {id : Nat} {m : Mask} (h : nodeBit id = .ok m) :
    m = bit id ∧ 0 < id ∧ id ≤ 64 := by
  unfold nodeBit at h
  split at h
  · cases h
  · cases h; refine ⟨rfl, ?_, ?_⟩ <;> omega

theorem ne_zero_of_mem {id : Nat} {m : Mask} (h : Mem id m) : m ≠ 0 := by
  rintro rfl; simp [Mem] at h

theorem nodeBit_of_valid {id : Nat} (h : 0 < id) (h' : id ≤ 64) : nodeBit id = .ok (bit id) := by
  unfold nodeBit; rw [if_neg (by omega)]

end Promtact.Raft
