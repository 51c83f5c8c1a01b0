import VeraqisRecover.Rar.RoundTrip

/-!
# When the parser abstains

Every integer of the loop is read with an early return.  The inventory is lost,
with all that was entered before, exactly when the walk meets a block with an
integer that cannot be read.
-/

namespace VeraqisRecover.Rar

open ByteString Reader

/-- The inventory is returned, with every file whose verified header was walked. -/
def Reports (file : Bytes) : Prop :=
  ∃ inv, readInventory file = some inv ∧
    ∀ p ∈ blockStarts file, ∀ b, readBlock file p = some (some b) → b.crcOk = true →
      ∀ e, b.entry file = some e → e ∈ inv.files

/-- None of the ten bytes from `p` on ends a variable-length integer. -/
def Unterminated (d : Bytes) (p : ℕ) : Prop := ∀ b ∈ (d.drop p).take 10, b &&& 0x80 ≠ 0

/-- An integer of the block that starts at `p` cannot be read: the CRC field, the header
size, or, of a header that fits into the file, one of the fields. -/
inductive Unreadable (file : Bytes) (p : ℕ) : Prop where
  | crc : u32le file p = none → Unreadable file p
  | size {crc hsStart : ℕ} : u32le file p = some (crc, hsStart) → Unterminated file hsStart →
      Unreadable file p
  | field {crc hsStart headerSize bodyStart bodyEnd : ℕ} : u32le file p = some (crc, hsStart) →
      vint file hsStart = some (headerSize, bodyStart) →
      checkedAdd bodyStart headerSize = some bodyEnd → bodyEnd ≤ file.length →
      blockFields file bodyStart = none → Unreadable file p

theorem readBlock_eq_none {file : Bytes} {p : ℕ} :
    readBlock file p = none ↔ Unreadable file p := by
  cases hcrc : u32le file p with
  | none => exact ⟨fun _ ↦ Unreadable.crc hcrc, fun _ ↦ by rw [readBlock, hcrc]; rfl⟩
  | some c =>
      obtain ⟨crc, hsStart⟩ := c
      cases hsize : vint file hsStart with
      | none =>
          refine ⟨fun _ ↦ Unreadable.size hcrc (vint_eq_none.mp hsize), fun _ ↦ ?_⟩
          simp [readBlock, hcrc, hsize]
      | some s =>
          obtain ⟨headerSize, bodyStart⟩ := s
          have hread : Unreadable file p ↔ ∃ bodyEnd,
              checkedAdd bodyStart headerSize = some bodyEnd ∧ bodyEnd ≤ file.length ∧
                blockFields file bodyStart = none := by
            constructor
            · rintro (h | ⟨h, hun⟩ | ⟨h, hs, hstop, hle, hfields⟩)
              · simp [hcrc] at h
              · simp only [hcrc, Option.some.injEq, Prod.mk.injEq] at h
                obtain ⟨-, rfl⟩ := h
                rw [vint_eq_none.mpr hun] at hsize
                cases hsize
              · simp only [hcrc, Option.some.injEq, Prod.mk.injEq] at h
                obtain ⟨-, rfl⟩ := h
                simp only [hsize, Option.some.injEq, Prod.mk.injEq] at hs
                obtain ⟨rfl, rfl⟩ := hs
                exact ⟨_, hstop, hle, hfields⟩
            · rintro ⟨bodyEnd, hstop, hle, hfields⟩
              exact Unreadable.field hcrc hsize hstop hle hfields
          rw [hread]
          cases hstop : checkedAdd bodyStart headerSize with
          | none => simp [readBlock, hcrc, hsize, hstop]
          | some bodyEnd =>
              by_cases hlong : file.length < bodyEnd
              · simp [readBlock, hcrc, hsize, hstop, hlong]
              · cases hfields : blockFields file bodyStart with
                | none => simp [readBlock, hcrc, hsize, hstop, hlong, hfields, not_lt.mp hlong]
                | some f => simp [readBlock, hcrc, hsize, hstop, hlong, hfields]

/-- The parser keeps what it found exactly when the walk meets no unreadable block. -/
theorem reports_iff {file : Bytes} (h : HasSignature file) :
    Reports file ↔ ∀ p ∈ blockStarts file, ¬Unreadable file p := by
  constructor
  · rintro ⟨inv, hinv, -⟩ p hp hbad
    have hnone := (readInventory_eq_none h).mpr ⟨p, hp, readBlock_eq_none.mpr hbad⟩
    rw [hinv] at hnone
    cases hnone
  · intro hgood
    have hsome : readInventory file ≠ none := by
      intro hnone
      obtain ⟨p, hp, hbad⟩ := (readInventory_eq_none h).mp hnone
      exact hgood p hp (readBlock_eq_none.mp hbad)
    obtain ⟨inv, hinv⟩ := Option.ne_none_iff_exists'.mp hsome
    refine ⟨inv, hinv, ?_⟩
    intro p hp b hread hcrc e he
    apply (mem_files_iff hinv).mpr
    refine ⟨p, hp, ?_⟩
    simp [factsAt, hread, hcrc, Block.facts, he]

theorem reports_iff_twoFiles : Reports (archive twoFiles) ↔
    ∀ p ∈ blockStarts (archive twoFiles), ¬Unreadable (archive twoFiles) p :=
  reports_iff hasSignature_archive

/-- A sound file block, and the first five bytes of a block with a two-byte header size. -/
def cutInSize : Bytes := signature5 ++ fileBlock ⟨['a'], [1]⟩ ++ [0, 0, 0, 0, 0x80]

/-- The file before the cut is lost with it. -/
theorem cutInSize_not_reports : HasSignature cutInSize ∧ ¬Reports cutInSize := by
  refine ⟨by decide, ?_⟩
  rintro ⟨inv, hinv, -⟩
  have hnone : readInventory cutInSize = none := by decide +kernel
  rw [hnone] at hinv
  cases hinv

end VeraqisRecover.Rar
