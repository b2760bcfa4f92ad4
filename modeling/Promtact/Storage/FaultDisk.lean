import Promtact.Storage.Wal

/-!
# Faults of a disk (`storage/faultdisk`)

A disk that has acknowledged its bytes may flip a bit of them, or write a record to the place of
another one. The log is opened after such a fault.

* `decode_set`: a record with another byte in any place is not read.
* `single_fault_detected`: one bit flip, and one misdirected write, make `Recover` fail at the
  damaged record.

`Crash` draws its faults from a random stream, which is given by `intn`.
-/

namespace Promtact.Storage.FaultDisk

open Bytes Wal

/-! ## Faults -/

/-- `image[offset] ^= 1 << bit` -/
def flipBit (image : List UInt8) (offset bit : Nat) : List UInt8 :=
  image.modify offset (· ^^^ (1 <<< UInt8.ofNat bit))

/-- The bytes of record `source` take the place of those of record `target`. -/
def misdirect (image : List UInt8) (source target : Nat) : List UInt8 :=
  image.take (target * recordSize) ++ slice image (source * recordSize) recordSize ++
    image.drop ((target + 1) * recordSize)

/-! ## Damaged records -/

theorem decode_ok {src : List UInt8} {r : LogRecord} (h : decode src = .ok r) :
    src.length = recordSize ∧ crc32c (src.take 108) = u32 src 108 := by
  unfold decode at h
  split at h
  · cases h
  split at h
  · cases h
  · rename_i hformat hcrc
    exact ⟨not_not.mp fun hlen => hformat (.inl hlen), not_not.mp hcrc⟩

/-- A record with another byte at one place is not read. -/
theorem decode_set {src : List UInt8} {r : LogRecord} {i : Nat} {a b : UInt8}
    (h : decode src = .ok r) (ha : src[i]? = some a) (hb : b ≠ a) :
    ∃ e, decode (src.set i b) = .error e := by
  obtain ⟨hi, rfl⟩ := List.getElem?_eq_some_iff.mp ha
  cases hd : decode (src.set i b) with
  | error e => exact ⟨e, rfl⟩
  | ok r' =>
    exfalso
    obtain ⟨hlen, hcrc⟩ := decode_ok h
    obtain ⟨hlen', hcrc'⟩ := decode_ok hd
    unfold recordSize at hlen hlen'
    rcases Nat.lt_or_ge i 108 with hlt | hge
    · -- the checksum covers the byte
      have hsame : u32 (src.set i b) 108 = u32 src 108 := by
        rw [u32, u32, slice, slice, List.drop_set_of_lt hlt]
      rw [hsame, ← hcrc, List.take_set] at hcrc'
      have hi' : i < (src.take 108).length := by rw [List.length_take]; omega
      refine crc32c_set_ne hi' ?_ hcrc'
      rwa [List.getElem_take]
    · -- the byte is one of the checksum
      have hsame : (src.set i b).take 108 = src.take 108 := List.take_set_of_le hge
      rw [hsame, hcrc] at hcrc'
      have hslice := slice_of_u32 (by omega) (by omega) hcrc'
      have hget := congrArg (·[i - 108]?) hslice
      simp only [slice, List.getElem?_take, List.getElem?_drop, show i - 108 < 4 by omega, if_true,
        Nat.add_sub_of_le hge, List.getElem?_set_self hi, List.getElem?_eq_getElem hi] at hget
      exact hb (Option.some.inj hget).symm

/-- A flipped bit is another byte. -/
theorem flipBit_eq_set {image : List UInt8} {offset bit : Nat} (ho : offset < image.length)
    (hb : bit < 8) : ∃ a b, image[offset]? = some a ∧ b ≠ a ∧
      flipBit image offset bit = image.set offset b := by
  refine ⟨image[offset], image[offset] ^^^ (1 <<< UInt8.ofNat bit), List.getElem?_eq_getElem ho,
    fun h => ?_, ?_⟩
  · have hbit : ∀ k : Fin 8, (1 : UInt8) <<< UInt8.ofNat k ≠ 0 := by decide
    exact hbit ⟨bit, hb⟩ ((UInt8.xor_right_inj _).mp (h.trans UInt8.xor_zero.symm))
  · rw [flipBit, List.modify_eq_take_cons_drop ho, List.set_eq_take_append_cons_drop, if_pos ho]

/-! ## Recovery -/

/-- `Recover` stops at the first record that is damaged or out of sequence. -/
theorem recoverFrom_error {image : List UInt8} {d : Nat} {e : Error}
    (hok : ∀ j, j < d → ∃ r, decode (slice image (recordSize * j) recordSize) = .ok r ∧
      r.sequence = UInt64.ofNat (j + 1))
    (hbad : decode (slice image (recordSize * d) recordSize) = .error e ∨
      ∃ r, decode (slice image (recordSize * d) recordSize) = .ok r ∧
        r.sequence ≠ UInt64.ofNat (d + 1) ∧ e = .sequence)
    {i count : Nat} (hi : i ≤ d) (hd : d < i + count) :
    recoverFrom image i count = .error (d * recordSize, e) := by
  induction count generalizing i with
  | zero => omega
  | succ count ih =>
    rw [recoverFrom]
    rcases Nat.eq_or_lt_of_le hi with rfl | hlt
    · rcases hbad with hbad | ⟨r, hr, hseq, rfl⟩
      · rw [hbad]
      · rw [hr]
        exact if_pos hseq
    · obtain ⟨r, hr, hseq⟩ := hok i hlt
      rw [hr]
      dsimp only
      rw [if_neg (not_not.mpr hseq), ih hlt (by omega)]
      rfl

/-- The records of a log, read one by one. -/
theorem decode_image {entries : List Entry} {j : Nat} (hj : j < entries.length) :
    ∃ r, decode (slice (image entries) (recordSize * j) recordSize) = .ok r ∧
      r.sequence = UInt64.ofNat (j + 1) := by
  have hj' : j < (stamp entries).length := by rw [length_stamp]; exact hj
  have hslice : slice (image entries) (recordSize * j) recordSize = encode (stamp entries)[j] := by
    rw [image, ← List.append_nil ((stamp entries).flatMap encode), slice_flatMap length_encode hj']
  rw [hslice, decode_encode]
  exact ⟨_, rfl, by simp [stamp]⟩

/-- Another byte is found at its record. -/
theorem recover_set {entries : List Entry} {d j : Nat} {a b : UInt8} (hd : d < entries.length)
    (hj : j < recordSize) (ha : (image entries)[recordSize * d + j]? = some a) (hb : b ≠ a) :
    ∃ e, recover ((image entries).set (recordSize * d + j) b) = .error (d * recordSize, e) := by
  have hpos : 0 < recordSize := Nat.zero_lt_of_lt hj
  obtain ⟨r, hr, -⟩ := decode_image hd
  obtain ⟨e, he⟩ : ∃ e, decode (slice ((image entries).set (recordSize * d + j) b)
      (recordSize * d) recordSize) = .error e := by
    rw [slice_set, if_neg (by omega), Nat.add_sub_cancel_left]
    refine decode_set hr ?_ hb
    rwa [slice, List.getElem?_take_of_lt hj, List.getElem?_drop]
  refine ⟨e, ?_⟩
  rw [recover, List.length_set, length_image, Nat.mul_div_cancel_left _ hpos,
    recoverFrom_error (fun i hi => ?_) (.inl he) (Nat.zero_le _) (by omega)]
  · rfl
  · -- the records before it are as they were
    obtain ⟨r, hr, hseq⟩ := decode_image (show i < entries.length by omega)
    have hle : recordSize * (i + 1) ≤ recordSize * d := Nat.mul_le_mul_left _ hi
    refine ⟨r, ?_, hseq⟩
    rw [slice_set, if_neg (by rw [Nat.mul_succ] at hle; omega), List.set_eq_of_length_le, hr]
    rw [(decode_ok hr).1]
    rw [Nat.mul_succ] at hle
    omega

/-- A flipped bit is found at its record. -/
theorem recover_flipBit {entries : List Entry} {offset bit : Nat}
    (ho : offset < (image entries).length) (hb : bit < 8) :
    ∃ e, recover (flipBit (image entries) offset bit) = .error (offset / recordSize * recordSize, e) := by
  obtain ⟨a, b, ha, hne, hset⟩ := flipBit_eq_set ho hb
  have hmod := Nat.mod_lt offset (show 0 < recordSize by decide)
  rw [length_image] at ho
  rw [← Nat.div_add_mod offset recordSize] at ha
  have := recover_set (Nat.div_lt_of_lt_mul ho) hmod ha hne
  rwa [Nat.div_add_mod, ← hset] at this

/-- A record in the place of another one is found there. -/
theorem recover_misdirect {entries : List Entry} {source target : Nat} (hs : source < entries.length)
    (ht : target < entries.length) (hne : source ≠ target) (h64 : entries.length < 2 ^ 64) :
    recover (misdirect (image entries) source target) = .error (target * recordSize, .sequence) := by
  have hlen := length_image entries
  have hmul : ∀ i, i < entries.length → i * recordSize + recordSize ≤ (image entries).length := by
    intro i hi
    rw [hlen, ← Nat.succ_mul, Nat.mul_comm]
    exact Nat.mul_le_mul_left _ hi
  have htake : ((image entries).take (target * recordSize)).length = target * recordSize := by
    have := hmul target ht
    rw [List.length_take]
    omega
  obtain ⟨r, hr, hseq⟩ := decode_image hs
  have hrec : (slice (image entries) (source * recordSize) recordSize).length = recordSize := by
    rw [Nat.mul_comm]
    exact (decode_ok hr).1
  have htotal : (misdirect (image entries) source target).length = recordSize * entries.length := by
    have := hmul target ht
    rw [misdirect, List.length_append, List.length_append, htake, hrec, List.length_drop, ← hlen,
      Nat.succ_mul]
    omega
  have hat : slice (misdirect (image entries) source target) (recordSize * target) recordSize =
      slice (image entries) (recordSize * source) recordSize := by
    rw [misdirect, List.append_assoc, slice_append (by rw [htake, Nat.mul_comm]) hrec, Nat.mul_comm]
  have hseq' : r.sequence ≠ UInt64.ofNat (target + 1) := by
    rw [hseq]
    intro h
    have h := congrArg UInt64.toNat h
    rw [UInt64.toNat_ofNat_of_lt' (by unfold UInt64.size; omega),
      UInt64.toNat_ofNat_of_lt' (by unfold UInt64.size; omega)] at h
    omega
  rw [recover, htotal, Nat.mul_div_cancel_left _ (by decide),
    recoverFrom_error (fun i hi => ?_) (.inr ⟨r, hat.symm ▸ hr, hseq', rfl⟩) (Nat.zero_le _) (by omega)]
  · rfl
  · -- the records before it are as they were
    obtain ⟨r, hr, hseq⟩ := decode_image (show i < entries.length by omega)
    refine ⟨r, ?_, hseq⟩
    have hle : recordSize * i + recordSize ≤ target * recordSize := by
      rw [← Nat.mul_succ, Nat.mul_comm target]
      exact Nat.mul_le_mul_left _ hi
    rw [misdirect, List.append_assoc, slice_append_left (by rw [htake]; exact hle), ← hr, slice, slice,
      List.drop_take, List.take_take, Nat.min_eq_left (by omega)]

/-- One bit flip, and one misdirected write, make `Recover` fail at the damaged record. The records
have the sequence numbers from 1 on, which are numbers of 64 bits. -/
theorem single_fault_detected (entries : List Entry) (h64 : entries.length < 2 ^ 64) :
    (∀ offset bit, offset < (image entries).length → bit < 8 → ∃ e,
      recover (flipBit (image entries) offset bit) =
        .error (offset / recordSize * recordSize, e)) ∧
    ∀ source target, source < entries.length → target < entries.length → source ≠ target → ∃ e,
      recover (misdirect (image entries) source target) = .error (target * recordSize, e) :=
  ⟨fun _ _ ho hb => recover_flipBit ho hb,
    fun _ _ hs ht hne => ⟨.sequence, recover_misdirect hs ht hne h64⟩⟩

theorem single_fault_detected_two :
    (∃ e, recover (flipBit (image [{ index := 1 }, { index := 2 }]) 120 3) = .error (112, e)) ∧
    ∃ e, recover (misdirect (image [{ index := 1 }, { index := 2 }]) 1 0) = .error (0, e) := by
  obtain ⟨hflip, hmis⟩ := single_fault_detected [{ index := 1 }, { index := 2 }] (by decide)
  exact ⟨hflip 120 3 (by rw [length_image]; decide) (by decide),
    hmis 1 0 (by decide) (by decide) (by decide)⟩

/-! ## The device -/

/-- The rates are those of the faults that a crash injects, per million. -/
structure Config where
  seed : Int
  bitFlipPerMillion : Int := 0
  misdirectPerMillion : Int := 0
  phantomReadPerMillion : Int := 0
  deriving DecidableEq, Repr

/-- The unit of the rates. -/
def oneMillion : Int := 1000000

/-- A fault that a crash injected. -/
inductive Fault where
  | bitFlip (offset : Nat)
  | misdirect (source target : Nat)
  | phantom
  deriving DecidableEq, Repr

/-- `previous` is `nil` in the source where it is `none` here. -/
structure Device (ρ : Type) where
  config : Config
  rng : ρ
  durable : List UInt8 := []
  previous : Option (List UInt8) := none
  pending : List UInt8 := []
  faults : List Fault := []

variable {ρ : Type} (source : Int → ρ) (intn : Nat → ρ → Nat × ρ)

/-- `New`: the rates are checked. -/
def Device.new (config : Config) : Except String (Device ρ) :=
  if [config.bitFlipPerMillion, config.misdirectPerMillion, config.phantomReadPerMillion].any
      fun rate => rate < 0 || rate > oneMillion then
    .error "faultdisk: probability outside 0..1000000"
  else .ok { config, rng := source config.seed }

namespace Device

/-- `Append`: nothing is durable yet. -/
def append (data : List UInt8) (d : Device ρ) : Device ρ := { d with pending := d.pending ++ data }

/-- `Sync`: what was durable before is kept for a phantom read. -/
def sync (d : Device ρ) : Device ρ :=
  { d with
    previous := if d.durable = [] then d.previous.map fun _ => [] else some d.durable
    durable := d.durable ++ d.pending
    pending := [] }

/-- `TruncateDurable`. -/
def truncateDurable (size : Int) (d : Device ρ) : Except String (Device ρ) :=
  if size < 0 ∨ size > d.durable.length then .error "faultdisk: invalid truncate"
  else .ok { d with durable := d.durable.take size.toNat }

/-- `hit`: a draw, unless the rate leaves nothing to chance. -/
def hit (rate : Int) (r : ρ) : Bool × ρ :=
  if rate = oneMillion then (true, r)
  else if rate ≠ 0 then
    let (k, r) := intn oneMillion.toNat r
    (decide ((k : Int) < rate), r)
  else (false, r)

/-- The part of `Crash` that flips a bit of the image. -/
def crashFlip (d : Device ρ) (r : ρ) : List UInt8 × List Fault × ρ :=
  let (drawn, r) := hit intn d.config.bitFlipPerMillion r
  if drawn ∧ d.durable.length ≠ 0 then
    let (offset, r) := intn d.durable.length r
    let (bit, r) := intn 8 r
    (flipBit d.durable offset bit, [.bitFlip offset], r)
  else (d.durable, [], r)

/-- A record is written over another, where the draw says so and there are two. -/
def crashMisdirect (d : Device ρ) (image : List UInt8) (faults : List Fault) (r : ρ) :
    List UInt8 × List Fault × ρ :=
  let records := image.length / recordSize
  let (drawn, r) := hit intn d.config.misdirectPerMillion r
  if drawn ∧ 2 ≤ records then
    let (source, r) := intn records r
    let (target, r) := intn (records - 1) r
    let target := if source ≤ target then target + 1 else target
    (misdirect image source target, faults ++ [.misdirect source target], r)
  else (image, faults, r)

/-- The image before the last sync comes back, where the draw says so and there is one. -/
def crashPhantom (d : Device ρ) (image : List UInt8) (faults : List Fault) (r : ρ) :
    List UInt8 × List Fault × ρ :=
  let (drawn, r) := hit intn d.config.phantomReadPerMillion r
  match drawn, d.previous with
  | true, some previous => (previous, faults ++ [.phantom], r)
  | _, _ => (image, faults, r)

/-- The image after the faults of a crash. -/
def damage (d : Device ρ) : List UInt8 × List Fault × ρ :=
  let (image, faults, r) := d.crashFlip intn d.rng
  let (image, faults, r) := d.crashMisdirect intn image faults r
  d.crashPhantom intn image faults r

/-- `Crash`: the rebooted device has the damaged image. -/
def crash (d : Device ρ) : Except String (Device ρ) := do
  let (image, faults, _) := d.damage intn
  let rebooted ← Device.new source d.config
  pure { rebooted with durable := image, faults }

/-! ## What a crash leaves -/

theorem crash_ok {source : Int → ρ} {intn : Nat → ρ → Nat × ρ} {d d' : Device ρ}
    (h : d.crash source intn = .ok d') :
    d'.durable = (d.damage intn).1 ∧ d'.faults = (d.damage intn).2.1 := by
  unfold crash at h
  cases hnew : Device.new source d.config with
  | error e => rw [hnew] at h; cases h
  | ok rebooted =>
    rw [hnew] at h
    injection h with h
    exact ⟨h ▸ rfl, h ▸ rfl⟩

variable {intn} (d : Device ρ) (hrng : ∀ n r, 0 < n → (intn n r).1 < n)
include hrng

theorem crashFlip_cases (r : ρ) : (∃ r', d.crashFlip intn r = (d.durable, [], r')) ∨
    ∃ offset bit r', offset < d.durable.length ∧ bit < 8 ∧
      d.crashFlip intn r = (flipBit d.durable offset bit, [.bitFlip offset], r') := by
  unfold crashFlip
  dsimp only
  split
  · rename_i h
    exact .inr ⟨_, _, _, hrng _ _ (Nat.pos_of_ne_zero h.2), hrng _ _ (by decide), rfl⟩
  · exact .inl ⟨_, rfl⟩

theorem crashMisdirect_cases (image : List UInt8) (faults : List Fault) (r : ρ) :
    (∃ r', d.crashMisdirect intn image faults r = (image, faults, r')) ∨
    ∃ source target r', source < image.length / recordSize ∧ target < image.length / recordSize ∧
      source ≠ target ∧ d.crashMisdirect intn image faults r =
        (misdirect image source target, faults ++ [.misdirect source target], r') := by
  unfold crashMisdirect
  dsimp only
  split
  · rename_i h
    have hs := hrng (image.length / recordSize) (hit intn d.config.misdirectPerMillion r).2 (by omega)
    have ht := hrng (image.length / recordSize - 1)
      (intn (image.length / recordSize) (hit intn d.config.misdirectPerMillion r).2).2 (by omega)
    refine .inr ⟨_, _, _, hs, ?_, ?_, rfl⟩
    · split <;> omega
    · split <;> omega
  · exact .inl ⟨_, rfl⟩

omit hrng in
theorem crashPhantom_cases (image : List UInt8) (faults : List Fault) (r : ρ) :
    (∃ r', d.crashPhantom intn image faults r = (image, faults, r')) ∨
    ∃ previous r', d.crashPhantom intn image faults r = (previous, faults ++ [.phantom], r') := by
  unfold crashPhantom
  dsimp only
  split
  · exact .inr ⟨_, _, rfl⟩
  · exact .inl ⟨_, rfl⟩

/-- A crash that injects one fault, and not a phantom read, leaves a log that is not opened. -/
theorem crash_detected {d' : Device ρ} {entries : List Entry} (hd : d.durable = image entries)
    (h64 : entries.length < 2 ^ 64) (hc : d.crash source intn = .ok d') {f : Fault}
    (hf : d'.faults = [f]) (hp : f ≠ .phantom) : ∃ err, recover d'.durable = .error err := by
  obtain ⟨hdurable, hfaults⟩ := crash_ok hc
  rw [hfaults] at hf
  rw [hdurable]
  -- the last fault is not a phantom read, so the image is that of the two parts before
  obtain ⟨image₂, faults₂, r₂, hmis⟩ : ∃ image₂ faults₂ r₂, d.crashMisdirect intn
      (d.crashFlip intn d.rng).1 (d.crashFlip intn d.rng).2.1 (d.crashFlip intn d.rng).2.2 =
        (image₂, faults₂, r₂) := ⟨_, _, _, rfl⟩
  have hdamage : d.damage intn = d.crashPhantom intn image₂ faults₂ r₂ := by
    unfold damage
    dsimp only
    rw [hmis]
  have hlast : (d.damage intn).1 = image₂ ∧ faults₂ = [f] := by
    rcases d.crashPhantom_cases image₂ faults₂ r₂ with ⟨r', hr⟩ | ⟨previous, r', hr⟩
    · rw [hdamage, hr] at hf ⊢
      exact ⟨rfl, hf⟩
    · rw [hdamage, hr] at hf
      have hmem : Fault.phantom ∈ [f] := hf ▸ List.mem_append_right _ (List.mem_singleton_self _)
      exact absurd (List.mem_singleton.mp hmem).symm hp
  obtain ⟨himage, rfl⟩ := hlast
  rw [himage]
  rcases d.crashFlip_cases hrng d.rng with ⟨r₁, hflip⟩ | ⟨offset, bit, r₁, ho, hb, hflip⟩ <;>
    rw [hflip] at hmis <;>
    rcases d.crashMisdirect_cases hrng _ _ _ with ⟨r', hr⟩ | ⟨source, target, r', hs, ht, hne, hr⟩ <;>
    rw [hmis] at hr <;> simp only [Prod.mk.injEq] at hr
  · cases hr.2.1
  · rw [hd, length_image, Nat.mul_div_cancel_left _ (by decide)] at hs ht
    rw [hr.1, hd, recover_misdirect hs ht hne h64]
    exact ⟨_, rfl⟩
  · rw [hd] at ho hr
    obtain ⟨e, he⟩ := recover_flipBit ho hb
    exact ⟨_, hr.1 ▸ he⟩
  · cases hr.2.1

end Device

end Promtact.Storage.FaultDisk
