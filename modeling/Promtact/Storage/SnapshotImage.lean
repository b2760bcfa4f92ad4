import Promtact.Lib.Bytes

/-!
# The snapshot image (`storage/snapshot/snapshot.go`)

A header of 52 bytes, of which the last four are a checksum of the other 48 and of the state, and
the state. `image_format_exact`: `Decode` accepts exactly what `Encode` writes, and gives it back.

Lengths are those of Go slices, below 2^63. The arithmetic on them is that of the source: `int` for
`len`, and `uint64` in the length check. A slice expression out of range is `DecodeError.bounds`.
The checksum is a parameter: any function of the bytes that were written to it.
-/

namespace Promtact.Storage.SnapshotImage

open Bytes

/-- The magic, five numbers and the checksum. -/
def headerSize : Nat := 52

/-- The eight bytes an image starts with. -/
def imageMagic : List UInt8 := [0x48, 0x59, 0x50, 0x53, 0x4E, 0x41, 0x50, 0x32]

/-- `[]byte`. Its length is an `int`. -/
structure Slice where
  bytes : List UInt8
  fits : bytes.length < 2 ^ 63
  deriving DecidableEq, Repr

/-- `Image`. Its encoding is a slice. -/
@[ext] structure Image where
  lastIndex : UInt64
  lastTerm : UInt64
  oldVoters : UInt64
  newVoters : UInt64
  state : List UInt8
  fits : headerSize + state.length < 2 ^ 63
  deriving DecidableEq, Repr

/-- `ErrFormat` and `ErrChecksum`. `bounds` is the panic of an index or slice out of range. -/
inductive DecodeError where
  | format
  | checksum
  | bounds
  deriving DecidableEq, Repr

/-- The fields after the magic, each with its width. -/
def fields (image : Image) : List (Nat × Nat) :=
  [(8, image.lastIndex.toNat), (8, image.lastTerm.toNat), (8, image.oldVoters.toNat),
    (8, image.newVoters.toNat), (8, image.state.length)]

/-- The header without the checksum. -/
def header (image : Image) : List UInt8 := imageMagic ++ pack (fields image)

theorem length_header (image : Image) : (header image).length = 48 := by
  simp [header, imageMagic, fields, width]

variable (crc : List UInt8 → UInt32)

/-- `Encode`: header, checksum and state. -/
def encode (image : Image) : Slice where
  bytes := header image ++ (le 4 (crc (header image ++ image.state)).toNat ++ image.state)
  fits := by
    have := image.fits
    simp only [List.length_append, length_header, length_le, headerSize] at *
    omega

/-- `data[lo:hi]`. -/
def subslice (data : Slice) (lo hi : Nat) : Except DecodeError (List UInt8) :=
  if lo ≤ hi ∧ hi ≤ data.bytes.length then .ok (slice data.bytes lo (hi - lo)) else .error .bounds

/-- `binary.LittleEndian.Uint64(data[lo:hi])`, which reads the byte at 7 first. -/
def uint64 (data : Slice) (lo hi : Nat) : Except DecodeError UInt64 := do
  let b ← subslice data lo hi
  if 7 < b.length then pure (u64 b 0) else throw .bounds

/-- Four bytes of a slice; a slice that is too short is a panic. -/
def uint32 (data : Slice) (lo hi : Nat) : Except DecodeError UInt32 := do
  let b ← subslice data lo hi
  if 3 < b.length then pure (u32 b 0) else throw .bounds

/-- `Decode`: magic and length are checked before the checksum. -/
def decode (data : Slice) : Except DecodeError Image :=
  if hlen : data.bytes.length < headerSize then .error .format
  else do
    let magic ← subslice data 0 8
    if magic ≠ imageMagic then throw .format
    else do
      let length ← uint64 data 40 48
      if length > UInt64.ofNat (data.bytes.length - headerSize) ∨
          UInt64.ofNat data.bytes.length ≠ UInt64.ofNat headerSize + length then throw .format
      else do
        let sum := crc ((← subslice data 0 48) ++ (← subslice data headerSize data.bytes.length))
        if sum ≠ (← uint32 data 48 52) then throw .checksum
        else do
          pure {
            lastIndex := ← uint64 data 8 16
            lastTerm := ← uint64 data 16 24
            oldVoters := ← uint64 data 24 32
            newVoters := ← uint64 data 32 40
            state := data.bytes.drop headerSize
            fits := by
              have := data.fits
              rw [List.length_drop]
              omega }

/-! ## Without the bounds -/

variable {data : Slice}

theorem subslice_ok {lo hi : Nat} (h : lo ≤ hi) (hlen : hi ≤ data.bytes.length) :
    subslice data lo hi = .ok (slice data.bytes lo (hi - lo)) := if_pos ⟨h, hlen⟩

theorem uint64_ok {lo hi : Nat} (h : lo + 8 = hi) (hlen : hi ≤ data.bytes.length) :
    uint64 data lo hi = .ok (u64 data.bytes lo) := by
  subst h
  have hseven : 7 < (slice data.bytes lo 8).length := by rw [length_slice hlen]; decide
  rw [uint64, subslice_ok (Nat.le_add_right lo 8) hlen, Nat.add_sub_cancel_left]
  show ite _ _ _ = _
  rw [if_pos hseven, u64_slice (by decide), Nat.add_zero]
  rfl

theorem uint32_ok {lo hi : Nat} (h : lo + 4 = hi) (hlen : hi ≤ data.bytes.length) :
    uint32 data lo hi = .ok (u32 data.bytes lo) := by
  subst h
  have hthree : 3 < (slice data.bytes lo 4).length := by rw [length_slice hlen]; decide
  rw [uint32, subslice_ok (Nat.le_add_right lo 4) hlen, Nat.add_sub_cancel_left]
  show ite _ _ _ = _
  rw [if_pos hthree, u32_slice (by decide), Nat.add_zero]
  rfl

/-- The length check has no wrap-around: the two sides of it are the same number. -/
theorem length_check {n : Nat} (length : UInt64) (hn : headerSize ≤ n) (hfits : n < 2 ^ 63) :
    (length > UInt64.ofNat (n - headerSize) ∨ UInt64.ofNat n ≠ UInt64.ofNat headerSize + length) ↔
      n ≠ headerSize + length.toNat := by
  have hl := length.toNat_lt
  have h52 : (UInt64.ofNat headerSize).toNat = 52 := rfl
  simp only [headerSize] at *
  rw [gt_iff_lt, UInt64.lt_iff_toNat_lt, ne_eq, ← UInt64.toNat_inj, UInt64.toNat_add, h52,
    UInt64.toNat_ofNat_of_lt' (show n - 52 < 2 ^ 64 by omega),
    UInt64.toNat_ofNat_of_lt' (show n < 2 ^ 64 by omega)]
  constructor
  · rintro (h | h) heq
    · omega
    · exact h (by rw [Nat.mod_eq_of_lt (by omega)]; exact heq)
  · intro h
    by_cases hlt : n - 52 < length.toNat
    · exact .inl hlt
    · refine .inr fun heq => h ?_
      rwa [Nat.mod_eq_of_lt (by omega)] at heq

/-- What `Decode` returns for data with a whole header. -/
theorem decode_eq (h : headerSize ≤ data.bytes.length) : decode crc data =
    if slice data.bytes 0 8 ≠ imageMagic then .error .format
    else if data.bytes.length ≠ headerSize + (u64 data.bytes 40).toNat then .error .format
    else if crc (slice data.bytes 0 48 ++ data.bytes.drop headerSize) ≠ u32 data.bytes 48 then
      .error .checksum
    else .ok {
      lastIndex := u64 data.bytes 8
      lastTerm := u64 data.bytes 16
      oldVoters := u64 data.bytes 24
      newVoters := u64 data.bytes 32
      state := data.bytes.drop headerSize
      fits := by
        have := data.fits
        rw [List.length_drop]
        omega } := by
  have hle (n : Nat) (hn : n ≤ 52) : n ≤ data.bytes.length := hn.trans h
  have hstate : subslice data headerSize data.bytes.length = .ok (data.bytes.drop headerSize) := by
    rw [subslice_ok h le_rfl, slice, List.take_of_length_le (by rw [List.length_drop])]
  unfold decode
  rw [dif_neg (Nat.not_lt.mpr h), subslice_ok (Nat.zero_le 8) (hle 8 (by decide)),
    uint64_ok rfl (hle 48 (by decide)), subslice_ok (Nat.zero_le 48) (hle 48 (by decide)), hstate,
    uint32_ok rfl (hle 52 (by decide)), uint64_ok rfl (hle 16 (by decide)),
    uint64_ok rfl (hle 24 (by decide)), uint64_ok rfl (hle 32 (by decide)),
    uint64_ok rfl (hle 40 (by decide))]
  show ite _ _ (ite _ _ (ite _ _ _)) = _
  simp only [length_check _ h data.fits]
  rfl

/-! ## Round trips -/

/-- The fields of an image are found in its encoding. -/
theorem u64_encode (image : Image) {i o : Nat} {v : UInt64}
    (ho : width ((fields image).take i) + 8 = o) (h : (fields image)[i]? = some (8, v.toNat))
    (hi : i < 5) : u64 (encode crc image).bytes o = v := by
  have hfields : slice (encode crc image).bytes 8 40 = pack (fields image) := by
    show slice (imageMagic ++ pack (fields image) ++ _) _ _ = _
    rw [List.append_assoc]
    exact slice_append rfl (length_pack _)
  have hin : width ((fields image).take i) + 8 ≤ 40 := by
    rw [width, List.map_take]
    show ([8, 8, 8, 8, 8].take i).sum + 8 ≤ 40
    clear h ho
    revert i
    decide
  rw [← ho, Nat.add_comm, ← u64_slice hin, hfields, u64_field h]

theorem decode_encode (image : Image) : decode crc (encode crc image) = .ok image := by
  have hlen : (encode crc image).bytes.length = headerSize + image.state.length := by
    simp only [encode, List.length_append, length_header, length_le, headerSize]
    omega
  have hlast : (UInt64.ofNat image.state.length).toNat = image.state.length := by
    have := image.fits
    exact UInt64.toNat_ofNat_of_lt' (show image.state.length < 2 ^ 64 by omega)
  have hhead : slice (encode crc image).bytes 0 48 = header image :=
    slice_append (a := []) rfl (length_header image)
  have hmagic : slice (encode crc image).bytes 0 8 = imageMagic := by
    show slice (imageMagic ++ pack (fields image) ++ _) _ _ = _
    rw [List.append_assoc]
    exact slice_append (a := []) (b := imageMagic) rfl rfl
  have hsum : u32 (encode crc image).bytes 48 = crc (header image ++ image.state) := by
    rw [u32, encode, slice_append (length_header image) (length_le _ _),
      fromLE_le_of_lt (UInt32.toNat_lt _), UInt32.ofNat_toNat]
  have hstate : (encode crc image).bytes.drop headerSize = image.state := by
    show (header image ++ (_ ++ _)).drop headerSize = _
    rw [← List.append_assoc]
    exact List.drop_left' (by rw [List.length_append, length_header, length_le]; rfl)
  have hlength : u64 (encode crc image).bytes 40 = UInt64.ofNat image.state.length :=
    u64_encode crc image (i := 4) rfl (by rw [hlast]; rfl) (by decide)
  rw [decode_eq crc (by rw [hlen]; exact Nat.le_add_right _ _), if_neg (not_not.mpr hmagic), hlength,
    hlast, if_neg (not_not.mpr hlen), hhead, hsum]
  simp only [hstate]
  rw [if_neg (not_not.mpr rfl)]
  refine congrArg _ (Image.ext ?_ ?_ ?_ ?_ rfl)
  · exact u64_encode crc image (i := 0) rfl rfl (by decide)
  · exact u64_encode crc image (i := 1) rfl rfl (by decide)
  · exact u64_encode crc image (i := 2) rfl rfl (by decide)
  · exact u64_encode crc image (i := 3) rfl rfl (by decide)

theorem encode_decode {image : Image} (h : decode crc data = .ok image) :
    encode crc image = data := by
  by_cases hlen : data.bytes.length < headerSize
  · rw [decode, dif_pos hlen] at h
    cases h
  have h52 : 52 ≤ data.bytes.length := Nat.le_of_not_lt hlen
  rw [decode_eq crc h52] at h
  split at h
  · cases h
  split at h
  · cases h
  split at h
  · cases h
  rename_i hmagic hlength hsum
  rw [not_not] at hmagic hlength hsum
  cases h
  have hstate : (data.bytes.drop headerSize).length = (u64 data.bytes 40).toNat := by
    rw [List.length_drop, hlength, Nat.add_sub_cancel_left]
  have hhead (fits) : header ⟨u64 data.bytes 8, u64 data.bytes 16, u64 data.bytes 24,
      u64 data.bytes 32, data.bytes.drop headerSize, fits⟩ = slice data.bytes 0 48 := by
    simp only [header, fields, pack, List.flatMap_cons, List.flatMap_nil, List.append_nil, hstate]
    rw [le_u64 (by omega), le_u64 (by omega), le_u64 (by omega), le_u64 (by omega),
      le_u64 (by omega), ← hmagic, slice_append_slice _ 32 8 8, slice_append_slice _ 24 8 16,
      slice_append_slice _ 16 8 24, slice_append_slice _ 8 8 32, slice_append_slice _ 0 8 40]
  simp only [encode, hhead, hsum]
  obtain ⟨bytes, fits⟩ := data
  simp only [Slice.mk.injEq]
  rw [le_u32 h52, ← List.append_assoc, slice_append_slice _ 0 48 4]
  exact List.take_append_drop 52 bytes

/-- No index or slice expression of `Decode` is out of range. -/
theorem decode_bounds (data : Slice) : decode crc data ≠ .error .bounds := by
  by_cases hlen : data.bytes.length < headerSize
  · rw [decode, dif_pos hlen]
    simp
  rw [decode_eq crc (Nat.le_of_not_lt hlen)]
  split
  · simp
  split
  · simp
  split <;> simp

/-- `Decode` gives back every encoded image, what it accepts is the encoding of what it returns, and
the header it reads lies in the data. -/
theorem image_format_exact (crc : List UInt8 → UInt32) (data : Slice) :
    (∀ image, decode crc data = .ok image ↔ data = encode crc image) ∧
      decode crc data ≠ .error .bounds :=
  ⟨fun image => ⟨fun h => (encode_decode crc h).symm, fun h => h ▸ decode_encode crc image⟩,
    decode_bounds crc data⟩

end Promtact.Storage.SnapshotImage
