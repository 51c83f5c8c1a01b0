import VeraqisRecover.Recovery.TarChecksumFix

/-!
# Repairer and salvager on sound headers

What the repair rewrites the salvager accepts, and a second repair changes
nothing.  The other way round, the repair rewrites a header the salvager accepts
where the checksum field begins with a separator.
-/

namespace VeraqisRecover.Recovery

open ByteString VeraqisRecover.Tar

namespace TarChecksumFix

/-- Repairer and salvager agree on what a valid header is. -/
structure Agrees (source output : Bytes) : Prop where
  kept : ∀ q < source.length / block, headerAt source (q * block) = true →
    blockAt output q = blockAt source q
  accepted : ∀ q < source.length / block, blockAt output q ≠ blockAt source q →
    headerAt output (q * block) = true
  again : ∃ report, apply output = .ok (output, report) ∧ report.success = true

/-! ## The output -/

theorem of_apply {source output : Bytes} {report : RecoveryReport}
    (h : apply source = .ok (output, report)) (hwritten : report.success = true) :
    output = (walked source).data ∧ ¬((walked source).fixed = 0 ∧ isZero output = true) := by
  simp only [apply] at h
  split at h
  · obtain ⟨-, rfl⟩ := Prod.mk.inj (Except.ok.inj h)
    cases hwritten
  · rename_i hfixed
    obtain ⟨rfl, -⟩ := Prod.mk.inj (Except.ok.inj h)
    exact ⟨rfl, hfixed⟩

theorem exists_apply {source : Bytes}
    (h : ¬((walked source).fixed = 0 ∧ isZero (walked source).data = true)) :
    ∃ report, apply source = .ok ((walked source).data, report) ∧ report.success = true := by
  rw [apply]
  dsimp only
  rw [if_neg h]
  exact ⟨_, rfl, rfl⟩

section Walked

variable (source : Bytes)

theorem length_walked : (walked source).data.length = source.length :=
  (walk_spec _ 0 ⟨source, 0⟩ rfl).1

theorem blockAt_walked {q : ℕ} (h : q < source.length / block) :
    blockAt (walked source).data q =
      if q ∈ headers source 0 then fixBlock (blockAt source q) else blockAt source q :=
  (walk_spec _ 0 ⟨source, 0⟩ rfl).2 q h

theorem isZero_fixBlock {b : Bytes} (h : b.length = block) (hmagic : hasMagic b = true) :
    isZero (fixBlock b) = isZero b := by
  have hfixed := hasMagic_fixBlock h
  rw [hmagic] at hfixed
  rw [isZero_of_hasMagic hfixed, isZero_of_hasMagic hmagic]

/-- The walk over the output goes where the walk over the source went. -/
theorem headers_walked : headers (walked source).data 0 = headers source 0 := by
  apply headers_congr (length_walked source)
  intro q _ hlt
  rw [length_walked] at hlt
  have hlen := length_blockAt hlt
  rw [blockAt_walked source hlt]
  split
  · rename_i hmem
    have hmagic := (of_mem_headers q hmem).2.2
    exact ⟨isZero_fixBlock hlen hmagic, hasMagic_fixBlock hlen, dataBlocks_fixBlock hlen⟩
  · exact ⟨rfl, rfl, rfl⟩

theorem walked_walked : walked (walked source).data = ⟨(walked source).data, 0⟩ := by
  apply walk_eq_self _ 0 ⟨(walked source).data, 0⟩ rfl
  intro q hq
  rw [headers_walked] at hq
  have hlt := (of_mem_headers q hq).2.1
  dsimp only
  rw [blockAt_walked source hlt, if_pos hq]
  exact ustarChecksumRead_fixBlock (length_blockAt hlt)

theorem headers_zeros {data : Bytes} (h : isZero data = true) : headers data 0 = [] := by
  by_cases hlt : 0 < data.length / block
  · apply headers_terminator hlt
    apply List.all_eq_true.mpr
    intro b hb
    exact List.all_eq_true.mp h b (List.mem_of_mem_drop (List.mem_of_mem_take hb))
  · exact headers_end hlt

/-- An output of zeros has had nothing fixed. -/
theorem walked_fixed_of_isZero (h : isZero (walked source).data = true) :
    (walked source).fixed = 0 := by
  have hnone : headers source 0 = [] := by
    rw [← headers_walked]
    exact headers_zeros h
  have hself : walked source = ⟨source, 0⟩ := by
    apply walk_eq_self _ 0 ⟨source, 0⟩ rfl
    intro q hq
    rw [hnone] at hq
    cases hq
  rw [hself]

end Walked

/-! ## Agreement -/

/-- The salvager's checksum test passes, and the field does not begin with a separator. -/
def ReadAlike (b : Bytes) : Prop :=
  checksumHolds b = true → beginsClosed (field b 148 8) = false

theorem headerAt_eq_blockAt (data : Bytes) (q : ℕ) :
    headerAt data (q * block) = (hasMagic (blockAt data q) && checksumHolds (blockAt data q)) :=
  rfl

theorem accepted_walked {source : Bytes} {q : ℕ} (hlt : q < source.length / block)
    (hne : blockAt (walked source).data q ≠ blockAt source q) :
    headerAt (walked source).data (q * block) = true := by
  have hlen := length_blockAt hlt
  have hblock := blockAt_walked source hlt
  by_cases hmem : q ∈ headers source 0
  · rw [if_pos hmem] at hblock
    have hread : ustarChecksumRead (blockAt source q) ≠
        ustarChecksumCompute (blockAt source q) := by
      intro hread
      apply hne
      rw [hblock, fixBlock, if_pos hread]
    rw [headerAt_eq_blockAt, hblock, hasMagic_fixBlock hlen, (of_mem_headers q hmem).2.2,
      checksumHolds_rewritten hlen hread]
    rfl
  · rw [if_neg hmem] at hblock
    exact absurd hblock hne

theorem kept_walked_iff {source : Bytes} {q : ℕ} (hmem : q ∈ headers source 0) :
    (headerAt source (q * block) = true → blockAt (walked source).data q = blockAt source q) ↔
      ReadAlike (blockAt source q) := by
  obtain ⟨-, hlt, hmagic⟩ := of_mem_headers q hmem
  have hlen := length_blockAt hlt
  rw [headerAt_eq_blockAt, hmagic, Bool.true_and, blockAt_walked source hlt, if_pos hmem,
    ReadAlike]
  apply imp_congr_right
  intro hholds
  rw [← ustarChecksumRead_eq_iff hlen hholds]
  constructor
  · intro hkept
    by_contra hread
    exact fixBlock_ne_of_read_ne hlen hread hkept
  · intro hread
    rw [fixBlock, if_pos hread]

/-- Repairer and salvager agree exactly when no header the walk meets, and the salvager accepts,
has a checksum field that begins with a separator. -/
theorem apply_agrees_iff (source output : Bytes) (report : RecoveryReport)
    (h : apply source = .ok (output, report)) (hwritten : report.success = true) :
    Agrees source output ↔ ∀ q ∈ headers source 0, ReadAlike (blockAt source q) := by
  obtain ⟨rfl, hfixed⟩ := of_apply h hwritten
  constructor
  · intro hagrees q hmem
    exact (kept_walked_iff hmem).mp (hagrees.kept q (of_mem_headers q hmem).2.1)
  · intro halike
    refine ⟨?_, fun q hlt hne ↦ accepted_walked hlt hne, ?_⟩
    · intro q hlt hheader
      by_cases hmem : q ∈ headers source 0
      · exact (kept_walked_iff hmem).mpr (halike q hmem) hheader
      · rw [blockAt_walked source hlt, if_neg hmem]
    · have hnonzero : ¬((walked (walked source).data).fixed = 0 ∧
          isZero (walked (walked source).data).data = true) := by
        rw [walked_walked]
        rintro ⟨-, hzero⟩
        exact hfixed ⟨walked_fixed_of_isZero source hzero, hzero⟩
      obtain ⟨report', hagain, hwritten'⟩ := exists_apply hnonzero
      rw [walked_walked] at hagain
      exact ⟨report', hagain, hwritten'⟩

/-! ## Two headers -/

/-- A header without a name whose checksum field is `field`. -/
def bareHeader (checksum : Bytes) : Bytes :=
  List.replicate 148 0 ++ checksum ++ List.replicate 101 0 ++ ustar ++ List.replicate 250 0

/-- Nothing stands in the checksum field. -/
def unsummed : Bytes := bareHeader (List.replicate 8 0)

theorem unsummed_agrees_iff : ∃ output report, apply unsummed = .ok (output, report) ∧
    report.success = true ∧
      (Agrees unsummed output ↔ ∀ q ∈ headers unsummed 0, ReadAlike (blockAt unsummed q)) := by
  obtain ⟨report, happly, hwritten⟩ := @exists_apply unsummed (by decide +kernel)
  exact ⟨_, report, happly, hwritten, apply_agrees_iff unsummed _ report happly hwritten⟩

/-- The right checksum, 1457 octal, filled up with blanks as old writers do. -/
def blankPadded : Bytes := bareHeader ([0x20, 0x20] ++ Octal.padded 4 0x32f ++ [0, 0x20])

/-- The salvager accepts the header and the repair rewrites it. -/
theorem blankPadded_not_agrees : ∃ output report, apply blankPadded = .ok (output, report) ∧
    report.success = true ∧ ¬Agrees blankPadded output := by
  obtain ⟨report, happly, hwritten⟩ := @exists_apply blankPadded (by decide +kernel)
  refine ⟨_, report, happly, hwritten, ?_⟩
  intro hagrees
  have hkept := hagrees.kept 0 (by decide +kernel) (by decide +kernel)
  revert hkept
  decide +kernel

end TarChecksumFix

end VeraqisRecover.Recovery
