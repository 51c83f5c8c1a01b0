import VeraqisRecover.Crc.Agreement
import VeraqisRecover.Support.BitFeed

/-!
# The checksum at every width

`checksum` of `crc/mod.rs` with its arithmetic checked, against the Rocksoft
model: one message bit at a time, the most significant first once the byte is
reflected.  A register narrower than a byte leaves no room to shift a byte to
its top.
-/

namespace VeraqisRecover.Crc

open ByteString ShiftRegister

/-! ## Checked arithmetic -/

/-- A left shift of a 64-bit word, which must be by fewer than 64 places. -/
def shl? (x : BitVec 64) (n : ℕ) : Option (BitVec 64) := if n < 64 then some (x <<< n) else none

/-- A right shift of a 64-bit word, which must be by fewer than 64 places. -/
def shr? (x : BitVec 64) (n : ℕ) : Option (BitVec 64) := if n < 64 then some (x >>> n) else none

def reflect? (value : BitVec 64) (width : ℕ) : Option (BitVec 64) :=
  (checkedSub 64 width).bind (shr? value.reverse)

namespace CrcParams

def topbit? (p : CrcParams) : Option (BitVec 64) := (checkedSub p.width 1).bind (shl? 1#64)

def feedByte? (p : CrcParams) (reg : BitVec 64) (byte : UInt8) : Option (BitVec 64) := do
  let places ← checkedSub p.width 8
  let aligned ← shl? (p.inputByte byte) places
  some (p.shiftBit^[8] (reg ^^^ (aligned &&& p.mask)))

/-- The checksum, absent where the arithmetic underflows or a shift is too wide. -/
def checksum? (p : CrcParams) (data : Bytes) : Option (BitVec 64) := do
  let _ ← p.topbit?
  let reg ← data.foldlM p.feedByte? (p.init &&& p.mask)
  let reg ← if p.refout then reflect? reg p.width else some reg
  some ((reg ^^^ p.xorout) &&& p.mask)

/-! ## The Rocksoft model -/

/-- The bits of a byte in the order they are processed. -/
def byteBits (p : CrcParams) (byte : UInt8) : List Bool :=
  let b := if p.refin then byte.toBitVec.reverse else byte.toBitVec
  (List.range 8).map b.getMsbD

def messageBits (p : CrcParams) (data : Bytes) : List Bool := data.flatMap p.byteBits

/-- The register after the message, one bit at a time. -/
def remainder (p : CrcParams) (data : Bytes) : BitVec p.width :=
  (p.messageBits data).foldl (feedUp (p.poly.setWidth p.width)) (p.init.setWidth p.width)

def rocksoft (p : CrcParams) (data : Bytes) : BitVec p.width :=
  (if p.refout then (p.remainder data).reverse else p.remainder data) ^^^ p.xorout.setWidth p.width

/-! ## The register in its own width -/

variable {p : CrcParams}

theorem mask_eq (h : p.width ≤ 64) : p.mask = (BitVec.allOnes p.width).setWidth 64 := by
  unfold mask
  apply BitVec.eq_of_getLsbD_eq
  intro i hi
  rw [BitVec.getLsbD_setWidth, BitVec.getLsbD_allOnes]
  split
  · rw [BitVec.getLsbD_allOnes, decide_eq_true hi, decide_eq_true (show i < p.width by omega)]
    rfl
  · have hone : (1#64 <<< p.width) - 1#64 = BitVec.ofNat 64 (2 ^ p.width - 1) := by
      apply BitVec.eq_of_toNat_eq
      have hpow : 2 ^ p.width < 2 ^ 64 := Nat.pow_lt_pow_right (by decide) (by omega)
      have hpos := Nat.two_pow_pos p.width
      rw [BitVec.toNat_sub, BitVec.toNat_shiftLeft, BitVec.toNat_ofNat, BitVec.toNat_ofNat]
      rw [Nat.shiftLeft_eq, Nat.one_mod_two_pow (by decide), Nat.one_mul, Nat.mod_eq_of_lt hpow,
        Nat.mod_eq_of_lt (show 2 ^ p.width - 1 < 2 ^ 64 by omega)]
      omega
    rw [hone, BitVec.getLsbD_ofNat, Nat.testBit_two_pow_sub_one]

theorem and_mask (h : p.width ≤ 64) (x : BitVec 64) :
    x &&& p.mask = (x.setWidth p.width).setWidth 64 := by
  apply BitVec.eq_of_getLsbD_eq
  intro i hi
  rw [mask_eq h]
  simp only [BitVec.getLsbD_and, BitVec.getLsbD_setWidth, BitVec.getLsbD_allOnes, hi, decide_true,
    Bool.true_and]
  rw [Bool.and_comm]

theorem setWidth_self (h : p.width ≤ 64) (r : BitVec p.width) :
    (r.setWidth 64).setWidth p.width = r := by
  rw [BitVec.setWidth_setWidth_of_le _ h, BitVec.setWidth_eq]

theorem topbit_iff (h₁ : 1 ≤ p.width) (h : p.width ≤ 64) (r : BitVec p.width) :
    r.setWidth 64 &&& p.topbit ≠ 0#64 ↔ r.msb = true := by
  have htop : p.topbit = BitVec.twoPow 64 (p.width - 1) := by
    rw [topbit, BitVec.twoPow_eq]
  rw [htop, BitVec.and_twoPow, BitVec.getLsbD_setWidth, BitVec.msb_eq_getLsbD_last]
  have hlt : p.width - 1 < 64 := by omega
  have hne : BitVec.twoPow 64 (p.width - 1) ≠ 0#64 := by
    intro hzero
    have hbit := congrArg (·.getLsbD (p.width - 1)) hzero
    simp [hlt] at hbit
  cases r.getLsbD (p.width - 1) with
  | false => simp
  | true => simpa [hlt] using hne

theorem shiftBit_setWidth (h₁ : 1 ≤ p.width) (h : p.width ≤ 64) (r : BitVec p.width) :
    p.shiftBit (r.setWidth 64) = (up (p.poly.setWidth p.width) r).setWidth 64 := by
  have hshift : (r.setWidth 64 <<< 1).setWidth p.width = r <<< 1 := by
    rw [BitVec.setWidth_shiftLeft_of_le h, setWidth_self h]
  rw [CrcParams.shiftBit, up]
  by_cases hmsb : r.msb
  · rw [if_pos ((topbit_iff h₁ h r).mpr hmsb), if_pos hmsb, and_mask h, BitVec.setWidth_xor, hshift]
  · rw [if_neg (mt (topbit_iff h₁ h r).mp hmsb), if_neg hmsb, and_mask h, hshift]

theorem iterate_shiftBit_setWidth (h₁ : 1 ≤ p.width) (h : p.width ≤ 64) (r : BitVec p.width)
    (n : ℕ) : p.shiftBit^[n] (r.setWidth 64) =
      ((up (p.poly.setWidth p.width))^[n] r).setWidth 64 := by
  induction n generalizing r with
  | zero => rfl
  | succ n ih =>
      rw [Function.iterate_succ_apply, Function.iterate_succ_apply, shiftBit_setWidth h₁ h, ih]

/-- A byte as it is aligned with the top of the register. -/
def alignedByte (p : CrcParams) (byte : UInt8) : BitVec p.width :=
  (if p.refin then byte.toBitVec.reverse else byte.toBitVec).setWidth p.width <<< (p.width - 8)

theorem aligned_and_mask (h : p.width ≤ 64) (byte : UInt8) :
    (p.inputByte byte <<< (p.width - 8)) &&& p.mask = (p.alignedByte byte).setWidth 64 := by
  have hinput : p.inputByte byte =
      (if p.refin then byte.toBitVec.reverse else byte.toBitVec).setWidth 64 := by
    unfold inputByte
    split <;> rfl
  rw [and_mask h, hinput, BitVec.setWidth_shiftLeft_of_le h, BitVec.setWidth_setWidth_of_le _ h]
  rfl

@[simp] theorem length_byteBits (byte : UInt8) : (p.byteBits byte).length = 8 := by
  simp [byteBits]

theorem reverse_alignedByte (h₈ : 8 ≤ p.width) (byte : UInt8) :
    (p.alignedByte byte).reverse = packed (p.byteBits byte) := by
  unfold alignedByte byteBits
  dsimp only
  generalize (if p.refin then byte.toBitVec.reverse else byte.toBitVec) = b
  apply BitVec.eq_of_getLsbD_eq
  intro i hi
  rw [BitVec.getLsbD_reverse, getLsbD_packed, BitVec.getMsbD_eq_getLsbD, BitVec.getLsbD_shiftLeft,
    BitVec.getLsbD_setWidth]
  by_cases hlow : i < 8
  · have hplace : p.width - 1 - i - (p.width - 8) = 7 - i := by omega
    rw [hplace, List.getD_eq_getElem _ _ (by simpa using hlow)]
    simp only [List.getElem_map, List.getElem_range, BitVec.getMsbD_eq_getLsbD]
    have h₁ : p.width - 1 - i < p.width := by omega
    have h₂ : ¬ p.width - 1 - i < p.width - 8 := by omega
    have h₃ : 7 - i < p.width := by omega
    simp [hi, h₁, h₂, h₃, hlow]
  · have h₂ : p.width - 1 - i < p.width - 8 := by omega
    rw [List.getD_eq_default _ _ (by simpa using hlow)]
    simp [h₂]

/-- One byte of the engine is eight bits of the model. -/
theorem feedByte_setWidth (h₈ : 8 ≤ p.width) (h : p.width ≤ 64) (r : BitVec p.width)
    (byte : UInt8) : p.feedByte (r.setWidth 64) byte =
      ((p.byteBits byte).foldl (feedUp (p.poly.setWidth p.width)) r).setWidth 64 := by
  have hbits : (up (p.poly.setWidth p.width))^[8] (r ^^^ p.alignedByte byte) =
      (p.byteBits byte).foldl (feedUp (p.poly.setWidth p.width)) r := by
    have hlen : 8 = (p.byteBits byte).length := (length_byteBits byte).symm
    have hmirror : ((up (p.poly.setWidth p.width))^[8] (r ^^^ p.alignedByte byte)).reverse =
        ((p.byteBits byte).foldl (feedUp (p.poly.setWidth p.width)) r).reverse := by
      rw [reverse_iterate_up, reverse_foldl_feedUp, reverse_xor, reverse_alignedByte h₈, hlen,
        iterate_down_packed _ _ _ (hlen ▸ h₈)]
    have htwice := congrArg BitVec.reverse hmirror
    rwa [BitVec.reverse_reverse_eq, BitVec.reverse_reverse_eq] at htwice
  rw [CrcParams.feedByte, aligned_and_mask h, ← BitVec.setWidth_xor,
    iterate_shiftBit_setWidth (by omega) h, hbits]

theorem foldl_feedByte (h₈ : 8 ≤ p.width) (h : p.width ≤ 64) (data : Bytes) (r : BitVec p.width) :
    data.foldl p.feedByte (r.setWidth 64) =
      ((p.messageBits data).foldl (feedUp (p.poly.setWidth p.width)) r).setWidth 64 := by
  induction data generalizing r with
  | nil => rfl
  | cons b data ih =>
      rw [List.foldl_cons, feedByte_setWidth h₈ h, ih]
      simp only [messageBits, List.flatMap_cons, List.foldl_append]

theorem reflect_setWidth (h : p.width ≤ 64) (r : BitVec p.width) :
    reflect (r.setWidth 64) p.width = r.reverse.setWidth 64 := by
  rw [reflect]
  apply BitVec.eq_of_getLsbD_eq
  intro i hi
  rw [BitVec.getLsbD_ushiftRight, BitVec.getLsbD_reverse, BitVec.getLsbD_setWidth,
    BitVec.getLsbD_reverse, BitVec.getMsbD_eq_getLsbD, BitVec.getMsbD_eq_getLsbD,
    BitVec.getLsbD_setWidth]
  by_cases hw : i < p.width
  · have hplace : 64 - 1 - (64 - p.width + i) = p.width - 1 - i := by omega
    have h₁ : 64 - p.width + i < 64 := by omega
    have h₂ : p.width - 1 - i < 64 := by omega
    simp [hplace, hw, hi, h₁, h₂]
  · simp [hw, show ¬ 64 - p.width + i < 64 by omega]

/-- The final reflection and XOR, in the register's own width. -/
theorem finish_setWidth (h : p.width ≤ 64) (r : BitVec p.width) :
    ((if p.refout then reflect (r.setWidth 64) p.width else r.setWidth 64) ^^^ p.xorout) &&&
        p.mask =
      ((if p.refout then r.reverse else r) ^^^ p.xorout.setWidth p.width).setWidth 64 := by
  rw [and_mask h]
  apply congrArg
  rw [BitVec.setWidth_xor]
  split
  · rw [reflect_setWidth h, setWidth_self h]
  · rw [setWidth_self h]

/-- The engine with its unchecked arithmetic computes the model, down to one byte's width. -/
theorem checksum_eq_rocksoft (h₈ : 8 ≤ p.width) (h : p.width ≤ 64) (data : Bytes) :
    p.checksum data = (p.rocksoft data).setWidth 64 := by
  rw [CrcParams.checksum, and_mask h p.init, foldl_feedByte h₈ h]
  exact finish_setWidth h (p.remainder data)

theorem checksum_nil (h : p.width ≤ 64) : p.checksum [] = (p.rocksoft []).setWidth 64 := by
  rw [CrcParams.checksum, List.foldl_nil, and_mask h p.init]
  exact finish_setWidth h (p.remainder [])

/-! ## Where the checked arithmetic succeeds -/

theorem topbit?_eq (h₁ : 1 ≤ p.width) (h : p.width ≤ 64) : p.topbit? = some p.topbit := by
  rw [topbit?, checkedSub_of_le h₁, Option.bind_some, shl?, if_pos (by omega)]
  rfl

theorem reflect?_eq (h₁ : 1 ≤ p.width) (h : p.width ≤ 64) (reg : BitVec 64) :
    reflect? reg p.width = some (reflect reg p.width) := by
  rw [reflect?, checkedSub_of_le h, Option.bind_some, shr?, if_pos (by omega)]
  rfl

theorem feedByte?_eq (h₈ : 8 ≤ p.width) (h : p.width ≤ 64) (reg : BitVec 64) (byte : UInt8) :
    p.feedByte? reg byte = some (p.feedByte reg byte) := by
  rw [feedByte?, checkedSub_of_le h₈, Option.bind_eq_bind, Option.bind_some, shl?,
    if_pos (by omega)]
  rfl

/-- A register narrower than a byte takes no byte. -/
theorem feedByte?_eq_none (h : p.width < 8) (reg : BitVec 64) (byte : UInt8) :
    p.feedByte? reg byte = none := by
  rw [feedByte?, checkedSub, if_neg (by omega)]
  rfl

theorem foldlM_feedByte? (h₈ : 8 ≤ p.width) (h : p.width ≤ 64) (data : Bytes) (reg : BitVec 64) :
    data.foldlM p.feedByte? reg = some (data.foldl p.feedByte reg) := by
  induction data generalizing reg with
  | nil => rfl
  | cons b data ih =>
      rw [List.foldlM_cons, feedByte?_eq h₈ h, Option.bind_eq_bind, Option.bind_some, ih,
        List.foldl_cons]

/-- Once the message is in the register, nothing else can fail. -/
theorem checksum?_of_foldlM (h₁ : 1 ≤ p.width) (h : p.width ≤ 64) {data : Bytes}
    (hfold : data.foldlM p.feedByte? (p.init &&& p.mask) =
      some (data.foldl p.feedByte (p.init &&& p.mask))) :
    p.checksum? data = some (p.checksum data) := by
  unfold checksum? checksum
  rw [topbit?_eq h₁ h, hfold]
  simp only [Option.bind_eq_bind, Option.bind_some, reflect?_eq h₁ h]
  cases p.refout <;> rfl

/-- In the documented range of widths the checksum is defined, and the model's value, exactly for
registers of a byte or more and for the empty message. -/
theorem checksum?_eq_rocksoft_iff (p : CrcParams) (h₁ : 1 ≤ p.width) (h : p.width ≤ 64)
    (data : Bytes) :
    p.checksum? data = some ((p.rocksoft data).setWidth 64) ↔ 8 ≤ p.width ∨ data = [] := by
  constructor
  · intro hsome
    by_contra hnot
    obtain ⟨hnarrow, hne⟩ := not_or.mp hnot
    obtain ⟨b, rest, rfl⟩ := List.exists_cons_of_ne_nil hne
    have hnone : p.checksum? (b :: rest) = none := by
      unfold checksum?
      rw [topbit?_eq h₁ h, List.foldlM_cons, feedByte?_eq_none (by omega)]
      rfl
    rw [hnone] at hsome
    cases hsome
  · rintro (h₈ | rfl)
    · rw [checksum?_of_foldlM h₁ h (foldlM_feedByte? h₈ h data _), checksum_eq_rocksoft h₈ h]
    · rw [checksum?_of_foldlM h₁ h rfl, checksum_nil h]

end CrcParams

/-- CRC-5/USB, whose width the documentation allows. -/
def crc5Usb : CrcParams where
  width := 5
  poly := 0x05#64
  init := 0x1F#64
  refin := true
  refout := true
  xorout := 0x1F#64
  name := "CRC-5/USB"

theorem checksum?_eq_rocksoft_iff_crc32 :
    crc32IsoHdlcParams.checksum? [0x61] =
        some ((crc32IsoHdlcParams.rocksoft [0x61]).setWidth 64) ↔
      8 ≤ crc32IsoHdlcParams.width ∨ ([0x61] : Bytes) = [] :=
  CrcParams.checksum?_eq_rocksoft_iff crc32IsoHdlcParams (by decide) (by decide) [0x61]

theorem crc5Usb_undefined :
    1 ≤ crc5Usb.width ∧ crc5Usb.width ≤ 64 ∧ crc5Usb.checksum? [0x61] = none := by
  decide

end VeraqisRecover.Crc
