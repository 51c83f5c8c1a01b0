import VeraqisRecover.Crc.Agreement

/-!
# One changed byte changes the checksum

A turn of the accumulator is injective in the register, and in the byte.  From
a changed byte on the registers therefore differ to the end.
-/

namespace VeraqisRecover.Crc

open ShiftRegister

theorem iterate_down_injective :
    Function.Injective (down 0xEDB88320#32)^[8] :=
  (down_injective (by decide)).iterate 8

theorem updateByte_injective (b : UInt8) : Function.Injective (Crc32.updateByte · b) := by
  intro c c' h
  simp only [updateByte_eq] at h
  exact (BitVec.xor_left_inj _).mp (iterate_down_injective h)

theorem updateByte_byte_injective (c : BitVec 32) : Function.Injective (Crc32.updateByte c) := by
  intro b b' h
  rw [updateByte_eq, updateByte_eq] at h
  have hwide := (BitVec.xor_right_inj _).mp (iterate_down_injective h)
  have hbits := congrArg (BitVec.setWidth 8) hwide
  rw [BitVec.setWidth_setWidth_of_le _ (by decide), BitVec.setWidth_setWidth_of_le _ (by decide),
    BitVec.setWidth_eq, BitVec.setWidth_eq] at hbits
  exact UInt8.toBitVec_inj.mp hbits

theorem foldl_updateByte_injective (data : Bytes) :
    Function.Injective fun c ↦ data.foldl Crc32.updateByte c := by
  induction data with
  | nil => exact Function.injective_id
  | cons b data ih => exact ih.comp (updateByte_injective b)

theorem crc32_byte_injective (pre post : Bytes) :
    Function.Injective fun b ↦ crc32 (pre ++ b :: post) := by
  intro b b' h
  simp only [crc32, Crc32.finalize, Crc32.update, List.foldl_append, List.foldl_cons] at h
  exact updateByte_byte_injective _
    (foldl_updateByte_injective post ((BitVec.xor_left_inj _).mp h))

theorem crc32_set_ne {d : Bytes} {k : ℕ} {v w : UInt8} (hw : d[k]? = some w) (hv : v ≠ w) :
    crc32 (d.set k v) ≠ crc32 d := by
  obtain ⟨hk, rfl⟩ := List.getElem?_eq_some_iff.mp hw
  have hold : d = d.take k ++ d[k] :: d.drop (k + 1) := by
    rw [List.getElem_cons_drop, List.take_append_drop]
  intro hsame
  rw [List.set_eq_take_append_cons_drop, if_pos hk] at hsame
  exact hv (crc32_byte_injective _ _ (hsame.trans (congrArg crc32 hold)))

end VeraqisRecover.Crc
