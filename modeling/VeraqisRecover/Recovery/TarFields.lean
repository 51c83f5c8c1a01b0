import VeraqisRecover.Tar.Append
import VeraqisRecover.Tar.Build

/-!
# Octal fields as the TAR repairs read them

`octal_field` of `tar_repair.rs` and of `tar_size_resync.rs` takes the piece
before the first separator, where the salvager takes the first piece that is not
empty.  The two part ways only on a field that begins with a separator.
-/

namespace VeraqisRecover.Recovery

open ByteString VeraqisRecover.Tar

/-- A NUL- or space-terminated octal field. -/
def octalField (f : Bytes) : Option ℕ := do
  let s ← (f.splitOnP fun b ↦ b = 0 || b = 0x20).head?
  if s = [] then none
  else if LossyUtf8.isUtf8 s then Octal.fromStrRadix s else none

/-- The field begins with a NUL or a space. -/
def beginsClosed (f : Bytes) : Bool := f.head?.any fun b ↦ b = 0 || b = 0x20

theorem octalField_of_beginsClosed {f : Bytes} (h : beginsClosed f = true) :
    octalField f = none := by
  cases f with
  | nil => cases h
  | cons b f =>
      have hb : (b = 0 || b = 0x20 : Bool) = true := h
      rw [octalField, List.splitOnP_cons_eq_if_modifyHead, if_pos hb]
      rfl

/-- On a field that begins with anything else the repairs read what the salvager reads. -/
theorem octalField_eq_octal {f : Bytes} (h : beginsClosed f = false) :
    octalField f = octal f := by
  cases f with
  | nil => rfl
  | cons b f =>
      have hb : (b = 0 || b = 0x20 : Bool) = false := h
      obtain ⟨piece, pieces, hpieces⟩ := List.exists_cons_of_ne_nil
        (List.splitOnP_ne_nil (fun b : UInt8 ↦ b = 0 || b = 0x20) f)
      have hsplit : (b :: f).splitOnP (fun b ↦ b = 0 || b = 0x20) = (b :: piece) :: pieces := by
        rw [List.splitOnP_cons_eq_if_modifyHead, hb, hpieces]
        rfl
      rw [octalField, octal, hsplit, List.find?_cons_of_pos (by simp)]
      simp

theorem beginsClosed_padded (w v : ℕ) (rest : Bytes) :
    beginsClosed (Octal.padded w v ++ rest) = false := by
  obtain ⟨b, digits, hdigits⟩ := List.exists_cons_of_ne_nil (Octal.padded_ne_nil w v)
  have hdigit : Octal.isDigit b = true := by
    apply List.all_eq_true.mp (Octal.all_padded w v)
    rw [hdigits]
    exact List.mem_cons_self
  rw [hdigits]
  simp only [beginsClosed, List.cons_append, List.head?_cons, Option.any_some,
    Bool.or_eq_false_iff, decide_eq_false_iff_not]
  constructor
  · rintro rfl
    cases hdigit
  · rintro rfl
    cases hdigit

theorem octalField_padded (w : ℕ) {value : ℕ} (hv : value ≤ wordMax) {sep : UInt8}
    (hclose : (sep = 0 || sep = 0x20 : Bool) = true) (rest : Bytes) :
    octalField (Octal.padded w value ++ sep :: rest) = some value := by
  rw [octalField_eq_octal (beginsClosed_padded w value _), octal_padded w hv hclose]

/-! ## Blocks -/

def blockAt (data : Bytes) (q : ℕ) : Bytes := field data (q * block) block

theorem block_le_of_lt {data : Bytes} {q : ℕ} (h : q < data.length / block) :
    q * block + block ≤ data.length := by
  have hle := (Nat.mul_le_mul_right block h).trans (Nat.div_mul_le_self data.length block)
  rwa [Nat.succ_mul] at hle

theorem length_blockAt {data : Bytes} {q : ℕ} (h : q < data.length / block) :
    (blockAt data q).length = block :=
  length_field (block_le_of_lt h)

/-- Every whole block of the data satisfies `P`. -/
def AllBlocks (P : Bytes → Prop) (data : Bytes) : Prop :=
  ∀ q < data.length / block, P (blockAt data q)

instance (P : Bytes → Prop) [DecidablePred P] (data : Bytes) : Decidable (AllBlocks P data) :=
  inferInstanceAs (Decidable (∀ q < data.length / block, P (blockAt data q)))

theorem blockAt_append_left {a : Bytes} {q : ℕ} (h : q < a.length / block) (b : Bytes) :
    blockAt (a ++ b) q = blockAt a q := field_append_left b (block_le_of_lt h)

theorem blockAt_append_right {a : Bytes} {k : ℕ} (ha : a.length = k * block) (b : Bytes) (q : ℕ) :
    blockAt (a ++ b) (k + q) = blockAt b q := by
  rw [blockAt, Nat.add_mul, ← ha, field_append]
  rfl

theorem div_length_append {a b : Bytes} {k : ℕ} (ha : a.length = k * block) :
    (a ++ b).length / block = k + b.length / block := by
  rw [List.length_append, ha, Nat.add_comm, Nat.add_mul_div_right _ _ (by decide), Nat.add_comm]

theorem allBlocks_append {P : Bytes → Prop} {a b : Bytes} (ha : block ∣ a.length) :
    AllBlocks P (a ++ b) ↔ AllBlocks P a ∧ AllBlocks P b := by
  obtain ⟨k, hk⟩ := ha
  rw [Nat.mul_comm] at hk
  have hdiv : a.length / block = k := by rw [hk, Nat.mul_div_cancel k (by decide)]
  constructor
  · intro hall
    rw [AllBlocks, div_length_append hk] at hall
    constructor
    · intro q hq
      rw [← blockAt_append_left hq b]
      rw [hdiv] at hq
      exact hall q (Nat.lt_add_right _ hq)
    · intro q hq
      rw [← blockAt_append_right hk b q]
      exact hall (k + q) (Nat.add_lt_add_left hq k)
  · rintro ⟨hleft, hright⟩ q hq
    rw [div_length_append hk] at hq
    by_cases hlt : q < k
    · have hin : q < a.length / block := by rwa [hdiv]
      rw [blockAt_append_left hin]
      exact hleft q hin
    · obtain ⟨r, rfl⟩ := Nat.exists_eq_add_of_le (not_lt.mp hlt)
      rw [blockAt_append_right hk]
      exact hright r (Nat.lt_of_add_lt_add_left hq)

/-! ## Checksums -/

theorem computeChecksum_lt {b : Bytes} (h : b.length = block) : computeChecksum b < 8 ^ 6 := by
  have hlen : b.length = 512 := h
  have hbefore := byteSum_le (field b 0 148)
  have hafter := byteSum_le (field b 156 356)
  rw [length_field (by omega)] at hbefore hafter
  rw [computeChecksum_eq h]
  omega

/-- The checksum does not read its own field. -/
theorem computeChecksum_overwrite {b s : Bytes} (h : b.length = block) (hs : s.length = 8) :
    computeChecksum (overwrite b 148 s) = computeChecksum b := by
  have hlen : b.length = 512 := h
  have hover : (overwrite b 148 s).length = block := by
    rw [length_overwrite (by omega), h]
  have hbefore : field (overwrite b 148 s) 0 148 = field b 0 148 :=
    field_overwrite_of_apart (by omega) (.inl le_rfl)
  have hafter : field (overwrite b 148 s) 156 356 = field b 156 356 :=
    field_overwrite_of_apart (by omega) (.inr (by omega))
  rw [computeChecksum_eq hover, computeChecksum_eq h, hbefore, hafter]

/-- What both repairs write into the field: six octal digits, a space and a NUL. -/
def checksumBytes (computed : ℕ) : Bytes := (Octal.padded 6 computed ++ [0x20, 0]).take 8

theorem checksumBytes_eq {c : ℕ} (hc : c < 8 ^ 6) :
    checksumBytes c = Octal.padded 6 c ++ [0x20, 0] ∧ (checksumBytes c).length = 8 := by
  have hlen := Octal.length_padded (w := 6) (by decide) hc
  have htake : checksumBytes c = Octal.padded 6 c ++ [0x20, 0] := by
    apply List.take_of_length_le
    rw [List.length_append, hlen]
    rfl
  refine ⟨htake, ?_⟩
  rw [htake, List.length_append, hlen]
  rfl

section Summed

variable {b : Bytes}

theorem length_checksumBytes (h : b.length = block) :
    (checksumBytes (computeChecksum b)).length = 8 :=
  (checksumBytes_eq (computeChecksum_lt h)).2

theorem computeChecksum_le_wordMax (h : b.length = block) : computeChecksum b ≤ wordMax := by
  have hlt := computeChecksum_lt h
  have hword : 8 ^ 6 ≤ wordMax := by decide
  omega

theorem mod_computeChecksum (h : b.length = block) :
    computeChecksum b % 2 ^ 32 = computeChecksum b :=
  Nat.mod_eq_of_lt ((computeChecksum_lt h).trans (by decide))

/-- The block with its checksum in place. -/
def summed (b : Bytes) : Bytes := overwrite b 148 (checksumBytes (computeChecksum b))

theorem length_summed (h : b.length = block) : (summed b).length = block := by
  have hlen : b.length = 512 := h
  rw [summed, length_overwrite (by rw [length_checksumBytes h]; omega), h]

/-- Outside of the checksum field nothing changes. -/
theorem field_summed (h : b.length = block) {a n : ℕ} (hapart : a + n ≤ 148 ∨ 156 ≤ a) :
    field (summed b) a n = field b a n := by
  have hlen : b.length = 512 := h
  apply field_overwrite_of_apart (by omega)
  rw [length_checksumBytes h]
  exact hapart

theorem field_checksum_summed (h : b.length = block) :
    field (summed b) 148 8 = Octal.padded 6 (computeChecksum b) ++ [0x20, 0] := by
  have hlen : b.length = 512 := h
  have hwritten := length_checksumBytes h
  rw [summed, field_overwrite_self (by omega) hwritten.ge, List.take_of_length_le hwritten.le]
  exact (checksumBytes_eq (computeChecksum_lt h)).1

theorem computeChecksum_summed (h : b.length = block) :
    computeChecksum (summed b) = computeChecksum b :=
  computeChecksum_overwrite h (length_checksumBytes h)

/-- The salvager accepts the checksum. -/
theorem checksumHolds_summed (h : b.length = block) : checksumHolds (summed b) = true := by
  rw [checksumHolds, readChecksum, field_checksum_summed h,
    octal_padded 6 (computeChecksum_le_wordMax h) rfl, computeChecksum_summed h,
    Option.map_some, mod_computeChecksum h]
  exact decide_eq_true rfl

end Summed

end VeraqisRecover.Recovery
