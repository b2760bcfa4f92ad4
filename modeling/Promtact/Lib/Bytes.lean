import Mathlib.Algebra.Order.Ring.Nat
import Mathlib.Tactic.Common

/-!
# Fixed layouts of bytes

Integers in little-endian order, and layouts that put several of them one after the other.

* `le width value` and `fromLE`: an integer as `width` bytes, and back.
* `pack fields`: the fields of a layout, each with its width. `u8`, `u16`, `u32` and `u64` read at an
  offset; `u16_field` and the like give back the field that starts there, and `le_u64` and the like
  write what was read.
* `crc32c`: the checksum with the Castagnoli polynomial. It tells apart any two lists that differ in
  one byte (`crc32c_set_ne`), since every step of the division can be undone.
-/

namespace Bytes

/-- `width` bytes, the least significant first. -/
def le : Nat → Nat → List UInt8
  | 0, _ => []
  | width + 1, value => UInt8.ofNat value :: le width (value / 256)

/-- The number of little-endian bytes. -/
def fromLE : List UInt8 → Nat
  | [] => 0
  | b :: bs => b.toNat + 256 * fromLE bs

@[simp] theorem length_le (width value : Nat) : (le width value).length = width := by
  induction width generalizing value with
  | zero => rfl
  | succ width ih => rw [le, List.length_cons, ih]

theorem fromLE_le (width value : Nat) : fromLE (le width value) = value % 256 ^ width := by
  induction width generalizing value with
  | zero => simp [le, fromLE, Nat.mod_one]
  | succ width ih =>
    have hmul : 256 ^ (width + 1) = 256 * 256 ^ width := Nat.pow_succ'
    rw [le, fromLE, ih, UInt8.toNat_ofNat', hmul, Nat.mod_mul]

theorem fromLE_le_of_lt {width value : Nat} (h : value < 256 ^ width) :
    fromLE (le width value) = value := by
  rw [fromLE_le, Nat.mod_eq_of_lt h]

theorem fromLE_lt (l : List UInt8) : fromLE l < 256 ^ l.length := by
  induction l with
  | nil => exact Nat.one_pos
  | cons b l ih =>
    have hb := b.toNat_lt
    rw [fromLE, List.length_cons, Nat.pow_succ']
    omega

/-- Bytes are the digits of their integer. -/
theorem fromLE_inj {l l' : List UInt8} (hl : l.length = l'.length) (h : fromLE l = fromLE l') :
    l = l' := by
  induction l generalizing l' with
  | nil => exact (List.length_eq_zero_iff.mp hl.symm).symm
  | cons b l ih =>
    cases l' with
    | nil => cases hl
    | cons b' l' =>
      have hb := b.toNat_lt
      have hb' := b'.toNat_lt
      rw [fromLE, fromLE] at h
      rw [UInt8.toNat_inj.mp (show b.toNat = b'.toNat by omega),
        ih (Nat.succ.inj hl) (by omega)]

theorem le_fromLE {width : Nat} {l : List UInt8} (h : l.length = width) :
    le width (fromLE l) = l := by
  refine fromLE_inj (by rw [length_le, h]) ?_
  rw [fromLE_le_of_lt]
  exact h ▸ fromLE_lt l

/-- `count` bytes from `offset` on: `b[offset : offset+count]`. -/
def slice (b : List UInt8) (offset count : Nat) : List UInt8 := (b.drop offset).take count

theorem slice_append {a b c : List UInt8} {offset count : Nat} (ha : a.length = offset)
    (hb : b.length = count) : slice (a ++ (b ++ c)) offset count = b := by
  subst ha hb
  rw [slice, List.drop_left, List.take_left]

theorem length_slice {b : List UInt8} {o n : Nat} (h : o + n ≤ b.length) :
    (slice b o n).length = n := by
  rw [slice, List.length_take, List.length_drop, Nat.min_eq_left (by omega)]

/-- Two parts next to each other. -/
theorem slice_append_slice (b : List UInt8) (o m n : Nat) :
    slice b o m ++ slice b (o + m) n = slice b o (m + n) := by
  rw [slice, slice, slice, ← List.drop_drop, ← List.take_add]

/-- A part of a part. -/
theorem slice_slice {b : List UInt8} {o w j n : Nat} (h : j + n ≤ w) :
    slice (slice b o w) j n = slice b (o + j) n := by
  rw [slice, slice, slice, List.drop_take, List.take_take, List.drop_drop, Nat.min_eq_left (by omega)]

theorem slice_append_right {a b : List UInt8} {o n : Nat} :
    slice (a ++ b) (a.length + o) n = slice b o n := by
  rw [slice, slice, List.drop_append, List.drop_eq_nil_of_le (Nat.le_add_right _ _), List.nil_append,
    Nat.add_sub_cancel_left]

theorem slice_set (l : List UInt8) (i o n : Nat) (b : UInt8) :
    slice (l.set i b) o n = if i < o then slice l o n else (slice l o n).set (i - o) b := by
  rw [slice, List.drop_set]
  split
  · rfl
  · rw [List.take_set, slice]

theorem slice_append_left {a b : List UInt8} {o n : Nat} (h : o + n ≤ a.length) :
    slice (a ++ b) o n = slice a o n := by
  rw [slice, slice, List.drop_append_of_le_length (by omega),
    List.take_append_of_le_length (by rw [List.length_drop]; omega)]

/-- A table whose rows all have `w` bytes. -/
theorem length_flatMap {α : Type} {f : α → List UInt8} {w : Nat} (hw : ∀ x, (f x).length = w)
    (l : List α) : (l.flatMap f).length = w * l.length := by
  induction l with
  | nil => rfl
  | cons x l ih => rw [List.flatMap_cons, List.length_append, hw, ih, List.length_cons, Nat.mul_succ,
      Nat.add_comm]

theorem slice_flatMap {α : Type} {f : α → List UInt8} {w : Nat} (hw : ∀ x, (f x).length = w)
    {l : List α} {rest : List UInt8} {i : Nat} (hi : i < l.length) :
    slice (l.flatMap f ++ rest) (w * i) w = f l[i] := by
  induction l generalizing i with
  | nil => exact absurd hi (Nat.not_lt_zero i)
  | cons x l ih =>
    rw [List.flatMap_cons, List.append_assoc]
    cases i with
    | zero => exact slice_append (a := []) rfl (hw x)
    | succ i =>
      rw [show w * (i + 1) = (f x).length + w * i by rw [hw, Nat.mul_succ, Nat.add_comm],
        slice_append_right, ih (Nat.lt_of_succ_lt_succ hi), List.getElem_cons_succ]

/-- The byte at an offset. -/
def u8 (b : List UInt8) (offset : Nat) : UInt8 := UInt8.ofNat (fromLE (slice b offset 1))

/-- `binary.LittleEndian.Uint16`, `Uint32` and `Uint64` at an offset. -/
def u16 (b : List UInt8) (offset : Nat) : UInt16 := UInt16.ofNat (fromLE (slice b offset 2))

/-- Four little-endian bytes at an offset. -/
def u32 (b : List UInt8) (offset : Nat) : UInt32 := UInt32.ofNat (fromLE (slice b offset 4))

/-- Eight little-endian bytes at an offset. -/
def u64 (b : List UInt8) (offset : Nat) : UInt64 := UInt64.ofNat (fromLE (slice b offset 8))

/-- Eight bytes and four bytes that were read are written as they were. -/
theorem le_u64 {b : List UInt8} {o : Nat} (h : o + 8 ≤ b.length) :
    le 8 (u64 b o).toNat = slice b o 8 := by
  have hlen := length_slice h
  have hlt : fromLE (slice b o 8) < 2 ^ 64 := by
    have := fromLE_lt (slice b o 8)
    rwa [hlen] at this
  rw [u64, UInt64.toNat_ofNat_of_lt' hlt, le_fromLE hlen]

theorem le_u32 {b : List UInt8} {o : Nat} (h : o + 4 ≤ b.length) :
    le 4 (u32 b o).toNat = slice b o 4 := by
  have hlen := length_slice h
  have hlt : fromLE (slice b o 4) < 2 ^ 32 := by
    have := fromLE_lt (slice b o 4)
    rwa [hlen] at this
  rw [u32, UInt32.toNat_ofNat_of_lt' hlt, le_fromLE hlen]

/-- Four bytes are read back. -/
theorem slice_of_u32 {b b' : List UInt8} {o : Nat} (hb : o + 4 ≤ b.length) (hb' : o + 4 ≤ b'.length)
    (h : u32 b o = u32 b' o) : slice b o 4 = slice b' o 4 := by
  have hlen : (slice b o 4).length = 4 := by simp [slice]; omega
  have hlen' : (slice b' o 4).length = 4 := by simp [slice]; omega
  have hlt := fromLE_lt (slice b o 4)
  have hlt' := fromLE_lt (slice b' o 4)
  rw [hlen] at hlt
  rw [hlen'] at hlt'
  have h := congrArg UInt32.toNat h
  rw [u32, u32, UInt32.toNat_ofNat_of_lt' hlt, UInt32.toNat_ofNat_of_lt' hlt'] at h
  exact fromLE_inj (hlen.trans hlen'.symm) h

theorem u16_slice {b : List UInt8} {o w j : Nat} (h : j + 2 ≤ w) :
    u16 (slice b o w) j = u16 b (o + j) := by
  rw [u16, u16, slice_slice h]

theorem u32_slice {b : List UInt8} {o w j : Nat} (h : j + 4 ≤ w) :
    u32 (slice b o w) j = u32 b (o + j) := by
  rw [u32, u32, slice_slice h]

theorem u64_slice {b : List UInt8} {o w j : Nat} (h : j + 8 ≤ w) :
    u64 (slice b o w) j = u64 b (o + j) := by
  rw [u64, u64, slice_slice h]

/-! ## Layouts -/

/-- The fields one after the other, each as a width and a value. -/
def pack (fields : List (Nat × Nat)) : List UInt8 := fields.flatMap fun f => le f.1 f.2

/-- The bytes of a layout. -/
def width (fields : List (Nat × Nat)) : Nat := (fields.map (·.1)).sum

@[simp] theorem pack_append (fs gs : List (Nat × Nat)) : pack (fs ++ gs) = pack fs ++ pack gs :=
  List.flatMap_append

@[simp] theorem length_pack (fields : List (Nat × Nat)) : (pack fields).length = width fields := by
  induction fields with
  | nil => rfl
  | cons f fs ih =>
    rw [pack, List.flatMap_cons, List.length_append, length_le, width, List.map_cons, List.sum_cons]
    exact congrArg _ ih

/-- Field `i` of a layout starts after the fields before it. -/
theorem slice_field {fields : List (Nat × Nat)} {i w v : Nat} (h : fields[i]? = some (w, v)) :
    slice (pack fields) (width (fields.take i)) w = le w v := by
  obtain ⟨hi, hf⟩ := List.getElem?_eq_some_iff.mp h
  have hsplit : pack fields = pack (fields.take i) ++ (le w v ++ pack (fields.drop (i + 1))) := by
    conv_lhs => rw [← List.take_append_drop i fields, List.drop_eq_getElem_cons hi, hf, pack_append]
    rfl
  rw [hsplit]
  exact slice_append (length_pack _) (length_le w v)

/-- The same with more bytes after the layout, at an offset that is known. -/
theorem fromLE_field {fields : List (Nat × Nat)} {rest : List UInt8} {i w v o : Nat}
    (h : fields[i]? = some (w, v)) (ho : width (fields.take i) = o) (hv : v < 256 ^ w) :
    fromLE (slice (pack fields ++ rest) o w) = v := by
  obtain ⟨hi, hf⟩ := List.getElem?_eq_some_iff.mp h
  have hlen : o + w ≤ (pack fields).length := by
    have hsum : width fields = width (fields.take i) + (w + width (fields.drop (i + 1))) := by
      conv_lhs => rw [← List.take_append_drop i fields, List.drop_eq_getElem_cons hi, hf]
      simp [width]
    rw [length_pack, hsum, ho]
    omega
  rw [slice_append_left hlen, ← ho, slice_field h, fromLE_le_of_lt hv]

theorem u16_field {fields : List (Nat × Nat)} {i : Nat} {v : UInt16}
    (h : fields[i]? = some (2, v.toNat)) : u16 (pack fields) (width (fields.take i)) = v := by
  rw [u16, slice_field h, fromLE_le_of_lt v.toNat_lt, UInt16.ofNat_toNat]

theorem u32_field {fields : List (Nat × Nat)} {i n : Nat} (h : fields[i]? = some (4, n))
    (hn : n < 2 ^ 32) : (u32 (pack fields) (width (fields.take i))).toNat = n := by
  rw [u32, slice_field h, fromLE_le_of_lt hn, UInt32.toNat_ofNat_of_lt' hn]

theorem u64_field {fields : List (Nat × Nat)} {i : Nat} {v : UInt64}
    (h : fields[i]? = some (8, v.toNat)) : u64 (pack fields) (width (fields.take i)) = v := by
  rw [u64, slice_field h, fromLE_le_of_lt v.toNat_lt, UInt64.ofNat_toNat]

/-! ## The checksum -/

/-- One step of the division by the reflected Castagnoli polynomial. -/
def crcShift (c : UInt32) : UInt32 := if c &&& 1 = 1 then (c >>> 1) ^^^ 0x82F63B78 else c >>> 1

/-- One byte enters the checksum. -/
def crcByte (c : UInt32) (b : UInt8) : UInt32 := Nat.repeat crcShift 8 (c ^^^ b.toUInt32)

/-- `crc32.Checksum` with the Castagnoli table. -/
def crc32c (b : List UInt8) : UInt32 := b.foldl crcByte 0xFFFFFFFF ^^^ 0xFFFFFFFF

theorem toBitVec_crcShift (c : UInt32) : (crcShift c).toBitVec =
    if c.toBitVec.getLsbD 0 then (c.toBitVec >>> 1) ^^^ 0x82F63B78#32 else c.toBitVec >>> 1 := by
  have hlow : c &&& 1 = 1 ↔ c.toBitVec.getLsbD 0 = true := by
    rw [← UInt32.toBitVec_inj, UInt32.toBitVec_and]
    change c.toBitVec &&& 1#32 = 1#32 ↔ _
    rw [BitVec.and_one_eq_setWidth_ofBool_getLsbD]
    cases c.toBitVec.getLsbD 0 <;> decide
  unfold crcShift
  by_cases h : c.toBitVec.getLsbD 0 = true
  · rw [if_pos (hlow.mpr h), if_pos h]
    rfl
  · rw [if_neg fun h' => h (hlow.mp h'), if_neg h]
    rfl

/-- The lowest bit goes to the highest place, where the others leave a zero. -/
theorem getLsbD_crcShift (c : UInt32) :
    (crcShift c).toBitVec.getLsbD 31 = c.toBitVec.getLsbD 0 := by
  have hhigh : (c.toBitVec >>> 1).getLsbD 31 = false := by
    rw [BitVec.getLsbD_ushiftRight]
    exact BitVec.getLsbD_of_ge _ _ (by omega)
  rw [toBitVec_crcShift]
  cases c.toBitVec.getLsbD 0
  · exact hhigh
  · rw [if_pos rfl, BitVec.getLsbD_xor, hhigh]
    rfl

theorem crcShift_injective : Function.Injective crcShift := by
  intro a b h
  have hlow : a.toBitVec.getLsbD 0 = b.toBitVec.getLsbD 0 := by
    rw [← getLsbD_crcShift, ← getLsbD_crcShift, h]
  -- both take the same branch, so the other bits agree
  have hshift : a.toBitVec >>> 1 = b.toBitVec >>> 1 := by
    have h := congrArg UInt32.toBitVec h
    rw [toBitVec_crcShift, toBitVec_crcShift, hlow] at h
    split at h
    · exact (BitVec.xor_left_inj _).mp h
    · exact h
  apply UInt32.toBitVec_inj.mp
  apply BitVec.eq_of_getLsbD_eq
  intro i _
  cases i with
  | zero => exact hlow
  | succ i =>
    have := congrArg (·.getLsbD i) hshift
    simp only [BitVec.getLsbD_ushiftRight] at this
    rwa [Nat.add_comm] at this

theorem repeat_injective {α : Type} {f : α → α} (h : Function.Injective f) (n : Nat) :
    Function.Injective (Nat.repeat f n) := by
  induction n with
  | zero => exact fun _ _ => id
  | succ n ih => exact h.comp ih

theorem crcByte_left_injective (b : UInt8) : Function.Injective (crcByte · b) := by
  intro c c' h
  exact (UInt32.xor_left_inj _).mp (repeat_injective crcShift_injective 8 h)

theorem crcByte_right_injective (c : UInt32) : Function.Injective (crcByte c) := by
  intro b b' h
  have := (UInt32.xor_right_inj _).mp (repeat_injective crcShift_injective 8 h)
  exact UInt8.toUInt32_inj.mp this

theorem foldl_crcByte_injective (l : List UInt8) : Function.Injective (l.foldl crcByte) := by
  induction l with
  | nil => exact fun _ _ => id
  | cons b l ih => exact ih.comp (crcByte_left_injective b)

/-- Another byte at one place gives another checksum. -/
theorem crc32c_set_ne {l : List UInt8} {i : Nat} {b : UInt8} (hi : i < l.length) (hb : b ≠ l[i]) :
    crc32c (l.set i b) ≠ crc32c l := by
  intro h
  have h := (UInt32.xor_left_inj _).mp h
  have hsplit : l = l.take i ++ l[i] :: l.drop (i + 1) := by
    rw [← List.drop_eq_getElem_cons hi, List.take_append_drop]
  rw [List.set_eq_take_append_cons_drop, if_pos hi] at h
  conv_rhs at h => rw [hsplit]
  rw [List.foldl_append, List.foldl_append, List.foldl_cons, List.foldl_cons] at h
  exact hb (crcByte_right_injective _ (foldl_crcByte_injective _ h))

end Bytes
