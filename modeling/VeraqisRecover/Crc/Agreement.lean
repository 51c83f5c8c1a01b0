import VeraqisRecover.Crc.Rocksoft
import VeraqisRecover.Support.ShiftRegister

/-!
# The two engines compute one checksum

A register of the bit-at-a-time engine never leaves its low 32 bits, where it
is a shift register towards the high end.  The accumulator of the table-driven
engine is the same register seen in a mirror.  The simulation is carried over
bits, then bytes, then the whole input.
-/

namespace VeraqisRecover.Crc

open ShiftRegister

/-! ## The bit-at-a-time engine in 32 bits -/

@[simp] theorem setWidth_64_32 (r : BitVec 32) : (r.setWidth 64).setWidth 32 = r := by
  rw [BitVec.setWidth_setWidth_of_le _ (by decide), BitVec.setWidth_eq]

theorem and_mask (x : BitVec 64) :
    x &&& crc32IsoHdlcParams.mask = (x.setWidth 32).setWidth 64 := by
  have hmask : crc32IsoHdlcParams.mask = (BitVec.allOnes 32).setWidth 64 := by decide
  apply BitVec.eq_of_getLsbD_eq
  intro i hi
  rw [hmask]
  simp only [BitVec.getLsbD_and, BitVec.getLsbD_setWidth, BitVec.getLsbD_allOnes, hi, decide_true,
    Bool.true_and]
  rw [Bool.and_comm]

theorem topbit_iff (r : BitVec 32) :
    r.setWidth 64 &&& crc32IsoHdlcParams.topbit ≠ 0#64 ↔ r.msb = true := by
  have htop : crc32IsoHdlcParams.topbit = BitVec.twoPow 64 31 := by decide
  rw [htop, BitVec.and_twoPow, BitVec.getLsbD_setWidth, BitVec.msb_eq_getLsbD_last]
  cases r.getLsbD 31 with
  | false => simp
  | true => decide

theorem shiftBit_setWidth (r : BitVec 32) :
    crc32IsoHdlcParams.shiftBit (r.setWidth 64) = (up 0x04C11DB7#32 r).setWidth 64 := by
  have hshift : (r.setWidth 64 <<< 1).setWidth 32 = r <<< 1 := by
    rw [BitVec.setWidth_shiftLeft_of_le (by decide), setWidth_64_32]
  rw [CrcParams.shiftBit, up]
  by_cases hmsb : r.msb
  · rw [if_pos ((topbit_iff r).mpr hmsb), if_pos hmsb, and_mask, BitVec.setWidth_xor, hshift]
    rfl
  · rw [if_neg (mt (topbit_iff r).mp hmsb), if_neg hmsb, and_mask, hshift]

theorem iterate_shiftBit_setWidth (r : BitVec 32) (n : ℕ) :
    crc32IsoHdlcParams.shiftBit^[n] (r.setWidth 64) =
      ((up 0x04C11DB7#32)^[n] r).setWidth 64 := by
  induction n generalizing r with
  | zero => rfl
  | succ n ih =>
      rw [Function.iterate_succ_apply, Function.iterate_succ_apply, shiftBit_setWidth, ih]

/-- The reflected byte enters at the high end of the register. -/
theorem inputByte_setWidth (b : UInt8) :
    (crc32IsoHdlcParams.inputByte b <<< (crc32IsoHdlcParams.width - 8)) &&&
        crc32IsoHdlcParams.mask = ((b.toBitVec.setWidth 32).reverse).setWidth 64 := by
  rw [and_mask]
  apply congrArg
  change ((b.toBitVec.reverse.setWidth 64) <<< 24).setWidth 32 = _
  apply BitVec.eq_of_getLsbD_eq
  intro i hi
  rw [BitVec.setWidth_shiftLeft_of_le (by decide), BitVec.setWidth_setWidth_of_le _ (by decide)]
  simp only [BitVec.getLsbD_shiftLeft, BitVec.getLsbD_setWidth, BitVec.getLsbD_reverse,
    BitVec.getMsbD_setWidth]
  by_cases hlow : i < 24
  · simp [hi, hlow, BitVec.getMsbD_eq_getLsbD]
  · simp only [BitVec.getMsbD_eq_getLsbD]
    grind

theorem feedByte_setWidth (r : BitVec 32) (b : UInt8) :
    crc32IsoHdlcParams.feedByte (r.setWidth 64) b =
      ((up 0x04C11DB7#32)^[8] (r ^^^ (b.toBitVec.setWidth 32).reverse)).setWidth 64 := by
  rw [CrcParams.feedByte, inputByte_setWidth, ← BitVec.setWidth_xor, iterate_shiftBit_setWidth]

/-! ## The table -/

theorem tableStep_eq_down : tableStep = down 0xEDB88320#32 := by
  funext crc
  have hbit : crc &&& 1#32 = 1#32 ↔ crc.getLsbD 0 = true := by
    have hone : (1#32) = BitVec.twoPow 32 0 := by decide
    rw [hone, BitVec.and_twoPow]
    cases crc.getLsbD 0 with
    | false => decide
    | true => decide
  rw [tableStep, down]
  by_cases h : crc.getLsbD 0
  · rw [if_pos (hbit.mpr h), if_pos h]
  · rw [if_neg (mt hbit.mp h), if_neg h]

theorem buildTable_getD (x : BitVec 32) :
    buildTable.getD (x &&& 0xFF#32).toNat 0#32 = (down 0xEDB88320#32)^[8] (x &&& 0xFF#32) := by
  have hlt : (x &&& 0xFF#32).toNat < 256 := by
    rw [BitVec.toNat_and]
    exact lt_of_le_of_lt Nat.and_le_right (by decide)
  rw [buildTable, List.getD_eq_getElem?_getD, List.getElem?_map, List.getElem?_range hlt,
    tableStep_eq_down, Option.map_some, Option.getD_some, BitVec.ofNat_toNat, BitVec.setWidth_eq]

/-- One table lookup is eight turns of the bit loop. -/
theorem updateByte_eq (crc : BitVec 32) (b : UInt8) :
    Crc32.updateByte crc b = (down 0xEDB88320#32)^[8] (crc ^^^ b.toBitVec.setWidth 32) := by
  have hbyte : b.toBitVec.setWidth 32 >>> 8 = 0#32 := by
    apply BitVec.eq_of_getLsbD_eq
    intro i hi
    rw [BitVec.getLsbD_ushiftRight, BitVec.getLsbD_setWidth, BitVec.getLsbD_of_ge _ _ (by omega)]
    simp
  rw [Crc32.updateByte, buildTable_getD, iterate_down_split _ (crc ^^^ _),
    BitVec.ushiftRight_xor_distrib, hbyte, BitVec.xor_zero]
  rfl

/-! ## The simulation -/

theorem reverse_poly : (0x04C11DB7#32).reverse = 0xEDB88320#32 := by decide +kernel

theorem feedByte_reverse (crc : BitVec 32) (b : UInt8) :
    crc32IsoHdlcParams.feedByte (crc.reverse.setWidth 64) b =
      (Crc32.updateByte crc b).reverse.setWidth 64 := by
  have hmirror := reverse_iterate_up 0x04C11DB7#32
    (crc.reverse ^^^ (b.toBitVec.setWidth 32).reverse) 8
  rw [reverse_poly, reverse_xor, BitVec.reverse_reverse_eq, BitVec.reverse_reverse_eq] at hmirror
  rw [feedByte_setWidth, updateByte_eq, ← hmirror, BitVec.reverse_reverse_eq]

theorem foldl_feedByte (data : Bytes) (crc : BitVec 32) :
    data.foldl crc32IsoHdlcParams.feedByte (crc.reverse.setWidth 64) =
      (data.foldl Crc32.updateByte crc).reverse.setWidth 64 := by
  induction data generalizing crc with
  | nil => rfl
  | cons b data ih => rw [List.foldl_cons, List.foldl_cons, feedByte_reverse, ih]

theorem reflect_setWidth (r : BitVec 32) :
    reflect (r.reverse.setWidth 64) 32 = r.setWidth 64 := by
  rw [reflect]
  apply BitVec.eq_of_getLsbD_eq
  intro i hi
  rw [BitVec.getLsbD_ushiftRight, BitVec.getLsbD_reverse]
  simp only [BitVec.getMsbD_eq_getLsbD, BitVec.getLsbD_setWidth, BitVec.getLsbD_reverse]
  grind

theorem checksum_eq (data : Bytes) :
    crc32IsoHdlcParams.checksum data = (crc32 data).setWidth 64 := by
  have hinit : crc32IsoHdlcParams.init &&& crc32IsoHdlcParams.mask =
      (0xFFFFFFFF#32).reverse.setWidth 64 := by decide +kernel
  have hout : crc32IsoHdlcParams.xorout = (0xFFFFFFFF#32).setWidth 64 := by decide
  rw [CrcParams.checksum, hinit, foldl_feedByte]
  change (reflect ((data.foldl Crc32.updateByte 0xFFFFFFFF#32).reverse.setWidth 64) 32 ^^^
    crc32IsoHdlcParams.xorout) &&& crc32IsoHdlcParams.mask = _
  rw [reflect_setWidth, hout, ← BitVec.setWidth_xor, and_mask, setWidth_64_32]
  rfl

namespace Crc32

theorem update_append (c : Crc32) (xs ys : Bytes) :
    (c.update xs).update ys = c.update (xs ++ ys) := by
  rw [update, update, update, List.foldl_append]

theorem foldl_update (c : Crc32) (chunks : List Bytes) :
    chunks.foldl update c = c.update chunks.flatten := by
  induction chunks generalizing c with
  | nil => rfl
  | cons xs chunks ih => rw [List.foldl_cons, ih, update_append, List.flatten_cons]

end Crc32

/-- The bit-at-a-time checksum is the table-driven one, fed in any split. -/
theorem checksum_agrees :
    (∀ data : Bytes, crc32IsoHdlcParams.checksum data = (crc32 data).setWidth 64) ∧
      ∀ chunks : List Bytes,
        (chunks.foldl Crc32.update Crc32.new).finalize = crc32 chunks.flatten := by
  refine ⟨checksum_eq, ?_⟩
  intro chunks
  rw [Crc32.foldl_update, crc32]

end VeraqisRecover.Crc
