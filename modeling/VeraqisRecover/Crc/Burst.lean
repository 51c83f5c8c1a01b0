import VeraqisRecover.Crc.Width

/-!
# Burst errors

What an error adds to the register does not depend on the message.  With a
constant term in the polynomial an error within one register's width adds
something, and the reflection and the final XOR keep different registers apart.
-/

namespace VeraqisRecover.Crc

open ShiftRegister

namespace CrcParams

/-- Does the stored value match the checksum recomputed over `data`? -/
def verify (p : CrcParams) (data : Bytes) (stored : BitVec 64) : Bool :=
  p.checksum data = stored &&& p.mask

end CrcParams

/-- The bytes of `d` with the bits of `e` changed. -/
def applyError (d e : Bytes) : Bytes := List.zipWith (· ^^^ ·) d e

namespace CrcParams

variable {p : CrcParams}

theorem byteBits_xor (a b : UInt8) :
    p.byteBits (a ^^^ b) = List.zipWith (· ^^ ·) (p.byteBits a) (p.byteBits b) := by
  have hxor : (if p.refin then (a ^^^ b).toBitVec.reverse else (a ^^^ b).toBitVec) =
      (if p.refin then a.toBitVec.reverse else a.toBitVec) ^^^
        if p.refin then b.toBitVec.reverse else b.toBitVec := by
    rw [UInt8.toBitVec_xor]
    split
    · rw [reverse_xor]
    · rfl
  unfold byteBits
  dsimp only
  rw [hxor, List.zipWith_map, List.zipWith_self]
  exact List.map_congr_left fun i _ ↦ BitVec.getMsbD_xor

theorem length_messageBits (data : Bytes) : (p.messageBits data).length = 8 * data.length := by
  induction data with
  | nil => rfl
  | cons b data ih =>
      rw [messageBits, List.flatMap_cons, List.length_append, length_byteBits, ← messageBits, ih,
        List.length_cons]
      omega

theorem messageBits_applyError {d e : Bytes} (h : e.length = d.length) :
    p.messageBits (applyError d e) =
      List.zipWith (· ^^ ·) (p.messageBits d) (p.messageBits e) := by
  induction d generalizing e with
  | nil =>
      rw [List.length_eq_zero_iff.mp h]
      rfl
  | cons a d ih =>
      cases e with
      | nil => simp at h
      | cons b e =>
          have hrest := ih (e := e) (by simpa using h)
          simp only [messageBits, applyError, List.zipWith_cons_cons, List.flatMap_cons] at hrest ⊢
          rw [hrest, byteBits_xor, List.zipWith_append (by simp)]

theorem true_mem_byteBits {b : UInt8} (h : b ≠ 0) : true ∈ p.byteBits b := by
  by_contra hno
  have hclear : (if p.refin then b.toBitVec.reverse else b.toBitVec) = 0#8 := by
    apply BitVec.eq_of_getMsbD_eq
    intro i hi
    rw [BitVec.getMsbD_zero]
    refine Bool.eq_false_iff.mpr fun hbit ↦ hno ?_
    exact List.mem_map.mpr ⟨i, List.mem_range.mpr hi, hbit⟩
  have hzero : b.toBitVec = 0#8 := by
    cases hr : p.refin with
    | false => simpa [hr] using hclear
    | true =>
        have hmirror := congrArg BitVec.reverse hclear
        rw [show (0#8).reverse = 0#8 by decide] at hmirror
        simpa [hr] using hmirror
  exact h (UInt8.toBitVec_inj.mp hzero)

/-- An error within one register's width changes the remainder. -/
theorem remainder_ne_of_burst (h₁ : 1 ≤ p.width) (hpoly : p.poly.getLsbD 0 = true) {d e : Bytes}
    (hlen : e.length = d.length) {s : ℕ}
    (hspan : ∀ i, (p.messageBits e)[i]? = some true → s ≤ i ∧ i < s + p.width)
    (hne : ∃ b ∈ e, b ≠ 0) : p.remainder (applyError d e) ≠ p.remainder d := by
  obtain ⟨b, hb, hb0⟩ := hne
  have hone : true ∈ p.messageBits e :=
    List.mem_flatMap.mpr ⟨b, hb, true_mem_byteBits hb0⟩
  have hmask : (p.poly.setWidth p.width).reverse.msb = true := by
    rw [BitVec.msb_reverse, BitVec.getLsbD_setWidth, hpoly]
    simp [show 0 < p.width by omega]
  have hburst := foldl_feedDown_burst_ne_zero hmask hspan hone
  intro hsame
  have hmirror := congrArg BitVec.reverse hsame
  rw [remainder, remainder, reverse_foldl_feedUp, reverse_foldl_feedUp, messageBits_applyError hlen,
    ← BitVec.xor_zero (x := (p.init.setWidth p.width).reverse),
    foldl_feedDown_xor h₁ _ _ _ (by rw [length_messageBits, length_messageBits, hlen]),
    BitVec.xor_zero] at hmirror
  exact hburst (by simpa using hmirror)

theorem rocksoft_injective {d d' : Bytes} (h : p.rocksoft d = p.rocksoft d') :
    p.remainder d = p.remainder d' := by
  have hout := (BitVec.xor_left_inj _).mp h
  split at hout
  · have hmirror := congrArg BitVec.reverse hout
    rwa [BitVec.reverse_reverse_eq, BitVec.reverse_reverse_eq] at hmirror
  · exact hout

/-- No burst within the width of a checksum with a constant term verifies. -/
theorem verify_burst (h₈ : 8 ≤ p.width) (h : p.width ≤ 64) (hpoly : p.poly.getLsbD 0 = true)
    {d e : Bytes} (hlen : e.length = d.length) {s : ℕ}
    (hspan : ∀ i, (p.messageBits e)[i]? = some true → s ≤ i ∧ i < s + p.width)
    (hne : ∃ b ∈ e, b ≠ 0) : p.verify (applyError d e) (p.checksum d) = false := by
  refine decide_eq_false fun hsame ↦ ?_
  rw [and_mask h, checksum_eq_rocksoft h₈ h, checksum_eq_rocksoft h₈ h, setWidth_self h] at hsame
  have hrock := congrArg (BitVec.setWidth p.width) hsame
  rw [setWidth_self h, setWidth_self h] at hrock
  exact remainder_ne_of_burst (by omega) hpoly hlen hspan hne (rocksoft_injective hrock)

end CrcParams

/-- CRC-32 detects every error whose changed bits lie within 32 consecutive positions. -/
theorem crc32_verify_burst (d e : Bytes) (hlen : e.length = d.length) (s : ℕ)
    (hspan : ∀ i, (crc32IsoHdlcParams.messageBits e)[i]? = some true → s ≤ i ∧ i < s + 32)
    (hne : ∃ b ∈ e, b ≠ 0) :
    crc32IsoHdlcParams.verify (applyError d e) (crc32IsoHdlcParams.checksum d) = false :=
  CrcParams.verify_burst (by decide) (by decide) (by decide) hlen hspan hne

theorem crc32_verify_burst_across_bytes :
    crc32IsoHdlcParams.verify (applyError [0x61, 0x62, 0x63] [0x00, 0x80, 0x01])
      (crc32IsoHdlcParams.checksum [0x61, 0x62, 0x63]) = false :=
  crc32_verify_burst [0x61, 0x62, 0x63] [0x00, 0x80, 0x01] rfl 0
    (fun i hi ↦ ⟨Nat.zero_le i, by
      have hlt := (List.getElem?_eq_some_iff.mp hi).1
      rw [CrcParams.length_messageBits] at hlt
      exact hlt.trans (by decide)⟩)
    ⟨0x80, by decide, by decide⟩

end VeraqisRecover.Crc
