import VeraqisRecover.Zip.Repointing

/-!
# Where stored records land

A directory judged complete is returned without a look at the embedded archives and without
sorting.  Whether that shows depends on the records as they are stored and on where each of them
lands: at its own offset, under the shift of a directory that was found by scanning, or where the
offset map of all the records leads it.
-/

namespace VeraqisRecover.Zip

open ByteString LossyUtf8

section Landing

variable (data : Bytes) (policy : ZipRecoveryPolicy)

/-- The shift a surviving directory was accepted with; there is none where the EOCD leads to a
record. -/
def acceptedShift : Option ℤ :=
  if (followEocd data policy (ContainerOwnershipMap.detect data policy)).out.entries ≠ [] then none
  else ((CdScan.scanSurvivingCd data).acceptedCandidate.bind (·.acceptedDelta)).filter (· ≠ 0)

/-- The stored record with the shift on its offset. -/
def shifted (r : ZipEntry) : ZipEntry := adopt (acceptedShift data policy) r

/-- The header a stored record leads to: the one at its shifted offset, unless none of its name is
there and the offset map of all the records proposes one that is. -/
def landing (r : ZipEntry) : ℕ :=
  let records := (listedRecords data policy).map (shifted data policy)
  (reconciled data policy records (shifted data policy r)).localHeaderOffset

/-- The stored record, pointing to where it lands. -/
def landedRecord (r : ZipEntry) : ZipEntry := { r with localHeaderOffset := landing data policy r }

/-- How many records the EOCD declares. -/
def declaredCount : Option ℕ := do
  let eocdOff ← findEocd data
  let _ ← u32le data (eocdOff + 12)
  let _ ← u32le data (eocdOff + 16)
  u16le data (eocdOff + 10)

/-- Where the adopted directory begins. -/
def adoptedStart : Option ℕ :=
  let containers := ContainerOwnershipMap.detect data policy
  (recoverSurvivingCd data policy containers (followEocd data policy containers)).cdRegionStart

/-- The payload areas of the landed records, in order. -/
def landedRanges : List (ℕ × ℕ) :=
  let entries := (listedRecords data policy).map (landedRecord data policy)
  (entries.filterMap (payloadRange data)).insertionSort rangeLe

/-- The stored records account for the archive: there are as many as the EOCD declares, a header is
where each of them lands, and no hole of thirty bytes is left before the directory. -/
structure Accounted : Prop where
  counted : declaredCount data = some (listedRecords data policy).length
  nonempty : listedRecords data policy ≠ []
  present : ∀ r ∈ listedRecords data policy, localHeaderPresent data (landing data policy r) = true
  covered : (sweepRanges 0 (landedRanges data policy)).1 = false
  abuts : (adoptedStart data policy).getD data.length -
    (sweepRanges 0 (landedRanges data policy)).2 < 30

end Landing

variable {data : Bytes} {policy : ZipRecoveryPolicy}

/-! ## The stored records and the adopted ones -/

theorem adoptCandidate_shifted {st : ParseState} (c : CdScan.CdCandidate)
    (hnil : st.out.entries = []) :
    (adoptCandidate data policy c st).out.entries =
      ((parseCentralDirectoryBounded (slice data c.start c.stop) c.recordCount policy).1).map
        (adopt ((some c).bind (·.acceptedDelta) |>.filter (· ≠ 0))) := by
  unfold adoptCandidate
  dsimp only
  split
  · rename_i hempty
    simp [hempty, hnil]
  · cases hd : c.acceptedDelta with
    | none => simp [hd]
    | some delta =>
        by_cases hzero : delta = 0
        · simp [hd, hzero, Option.filter_some]
        · simp [hd, hzero, Option.filter_some]

/-- Every adopted record is a stored one under the accepted shift. -/
theorem adoptedRecords_shifted (data : Bytes) (policy : ZipRecoveryPolicy) :
    adoptedRecords data policy = (listedRecords data policy).map (shifted data policy) := by
  unfold adoptedRecords listedRecords shifted acceptedShift recoverSurvivingCd
  dsimp only
  have hnone := followEocd_cdOffsetShift data policy (ContainerOwnershipMap.detect data policy)
  generalize ContainerOwnershipMap.detect data policy = containers at hnone ⊢
  generalize followEocd data policy containers = st at hnone ⊢
  by_cases hent : st.out.entries ≠ []
  · rw [if_pos hent, if_pos hent, if_pos hent]
    exact (List.map_id _).symm
  · rw [if_neg hent, if_neg hent, if_neg hent]
    cases (CdScan.scanSurvivingCd data).acceptedCandidate with
    | none => exact not_not.mp hent
    | some c =>
        dsimp only
        split
        · exact not_not.mp hent
        · exact adoptCandidate_shifted c (not_not.mp hent)

/-- The adopted records, reconciled, are the stored ones where they land. -/
theorem readDirectory_landed (data : Bytes) (policy : ZipRecoveryPolicy) :
    (readDirectory data policy).out.entries =
      (listedRecords data policy).map (landedRecord data policy) := by
  rw [readDirectory_entries, adoptedRecords_shifted, List.map_map]
  refine List.map_congr_left fun r _ ↦ ?_
  rw [Function.comp_apply, reconciled_movesOnly]
  have hshift := adopt_movesOnly (acceptedShift data policy) r
  rw [landedRecord, landing, shifted, hshift]

/-- A record is re-pointed only where no header of its name is, and only to one that is there. -/
theorem landing_cases (data : Bytes) (policy : ZipRecoveryPolicy) (r : ZipEntry) :
    landing data policy r = (shifted data policy r).localHeaderOffset ∨
      headerNamedAt data (shifted data policy r).localHeaderOffset (asBytes r.name) = false ∧
        headerNamedAt data (landing data policy r) (asBytes r.name) = true := by
  have hname : (shifted data policy r).name = r.name := by
    rw [shifted, adopt_movesOnly]
  have hlands := reconciled_lands data policy
    ((listedRecords data policy).map (shifted data policy)) (shifted data policy r)
  rw [← landing, hname] at hlands
  cases hhere : headerNamedAt data (shifted data policy r).localHeaderOffset (asBytes r.name) with
  | true =>
      left
      rw [← hname] at hhere
      rw [landing, reconciled_of_named hhere]
  | false => exact hlands.imp_right fun hthere ↦ ⟨rfl, hthere⟩

/-! ## Completeness, of the stored records -/

theorem reconcileDirectory_kept (data : Bytes) (policy : ZipRecoveryPolicy) (st : ParseState) :
    (reconcileDirectory data policy st).out.cdFound = st.out.cdFound ∧
      (reconcileDirectory data policy st).declaredCount = st.declaredCount ∧
      (reconcileDirectory data policy st).cdRegionStart = st.cdRegionStart := by
  unfold reconcileDirectory
  dsimp only
  split
  · exact ⟨rfl, rfl, rfl⟩
  · exact ⟨rfl, rfl, rfl⟩

@[simp] theorem noteLimit_cdFound (out : ZipParse) (l : Option LimitHit) :
    (out.noteLimit l).cdFound = out.cdFound := by
  cases l <;> rfl

/-- A directory is found exactly where there are records. -/
def FoundWithRecords (st : ParseState) : Prop := st.out.cdFound = true ↔ st.out.entries ≠ []

theorem declaredCount_eq_some {data : Bytes} {eocdOff total : ℕ}
    (h : findEocd data = some eocdOff) : declaredCount data = some total ↔ ∃ cdSize cdOffset,
      u32le data (eocdOff + 12) = some cdSize ∧ u32le data (eocdOff + 16) = some cdOffset ∧
        u16le data (eocdOff + 10) = some total := by
  simp only [declaredCount, h, Option.bind_eq_bind, Option.bind_some, Option.bind_eq_some_iff]
  constructor
  · rintro ⟨cdSize, hsize, cdOffset, hoffset, hcount⟩
    exact ⟨cdSize, cdOffset, hsize, hoffset, hcount⟩
  · rintro ⟨cdSize, cdOffset, hsize, hoffset, hcount⟩
    exact ⟨cdSize, hsize, cdOffset, hoffset, hcount⟩

theorem followEocd_spec (data : Bytes) (policy : ZipRecoveryPolicy)
    (containers : ContainerOwnershipMap) :
    FoundWithRecords (followEocd data policy containers) ∧
      (followEocd data policy containers).declaredCount = declaredCount data := by
  unfold followEocd FoundWithRecords
  dsimp only
  split
  · rename_i hnone
    rw [declaredCount, hnone]
    exact ⟨by simp, rfl⟩
  · rename_i eocdOff heocd
    split
    · rename_i cdSize cdOffset total hsize hoffset hcount
      rw [(declaredCount_eq_some heocd).mpr ⟨cdSize, cdOffset, hsize, hoffset, hcount⟩]
      split
      · split
        · exact ⟨by simp, rfl⟩
        · exact ⟨by simpa using ‹_›, rfl⟩
      · exact ⟨by simp, rfl⟩
    · rename_i hshort
      refine ⟨by simp, (Option.eq_none_iff_forall_ne_some.mpr fun total htotal ↦ ?_).symm⟩
      obtain ⟨cdSize, cdOffset, hsize, hoffset, hcount⟩ := (declaredCount_eq_some heocd).mp htotal
      exact hshort cdSize cdOffset total hsize hoffset hcount

theorem recoverSurvivingCd_spec {containers : ContainerOwnershipMap} {st : ParseState}
    (h : FoundWithRecords st) :
    FoundWithRecords (recoverSurvivingCd data policy containers st) ∧
      (recoverSurvivingCd data policy containers st).declaredCount = st.declaredCount := by
  unfold recoverSurvivingCd
  split
  · exact ⟨h, rfl⟩
  · split
    · exact ⟨h, rfl⟩
    · split
      · exact ⟨h, rfl⟩
      · rename_i c hfound howned
        unfold adoptCandidate FoundWithRecords
        dsimp only
        split
        · refine ⟨?_, rfl⟩
          rw [noteLimit_cdFound, noteLimit_entries]
          exact h
        · rename_i hrecords
          refine ⟨iff_of_true rfl ?_, rfl⟩
          dsimp only
          split
          · exact hrecords
          · exact mt List.map_eq_nil_iff.mp hrecords

/-- Completeness is decided by the stored records and where they land. -/
theorem cdComplete_iff (data : Bytes) (policy : ZipRecoveryPolicy) :
    cdComplete data (readDirectory data policy) = true ↔ Accounted data policy := by
  have hentries := readDirectory_landed data policy
  have hkept := reconcileDirectory_kept data policy (recoverSurvivingCd data policy
    (ContainerOwnershipMap.detect data policy)
    (followEocd data policy (ContainerOwnershipMap.detect data policy)))
  obtain ⟨hfollow, hdeclared⟩ :=
    followEocd_spec data policy (ContainerOwnershipMap.detect data policy)
  obtain ⟨hadopted, hcount⟩ := @recoverSurvivingCd_spec data policy
    (ContainerOwnershipMap.detect data policy) _ hfollow
  have hfound : (readDirectory data policy).out.cdFound = true ↔
      listedRecords data policy ≠ [] := by
    rw [readDirectory, hkept.1]
    refine Iff.trans hadopted ?_
    change adoptedRecords data policy ≠ [] ↔ _
    rw [adoptedRecords_shifted, ne_eq, List.map_eq_nil_iff]
  have hdeclares : (readDirectory data policy).declaredCount = declaredCount data := by
    rw [readDirectory, hkept.2.1, hcount, hdeclared]
  have hstart : (readDirectory data policy).cdRegionStart = adoptedStart data policy :=
    hkept.2.2
  unfold cdComplete countsAgree unaccountedGap
  rw [hentries, hdeclares, hstart, List.length_map]
  by_cases hne : listedRecords data policy = []
  · have hnot : ¬ Accounted data policy := fun h ↦ h.nonempty hne
    simp [hne, hnot]
  · have hmap : (listedRecords data policy).map (landedRecord data policy) ≠ [] :=
      mt List.map_eq_nil_iff.mp hne
    rw [hfound.mpr hne, decide_eq_true hmap, ← landedRanges]
    simp only [Bool.true_and, Bool.and_eq_true, decide_eq_true_eq, List.all_map,
      List.all_eq_true, Function.comp_apply, Bool.not_eq_true', Bool.or_eq_false_iff,
      decide_eq_false_iff_not, not_le]
    constructor
    · rintro ⟨⟨hcount, hpresent⟩, hcovered, habuts⟩
      exact ⟨hcount, hne, hpresent, hcovered, habuts⟩
    · rintro ⟨hcount, -, hpresent, hcovered, habuts⟩
      exact ⟨⟨hcount, hpresent⟩, hcovered, habuts⟩

/-! ## Embedded archives -/

/-- Members of embedded archives are withheld exactly when no record of a directory that accounts
for the archive lands inside one. -/
theorem parse_outside_iff (data : Bytes) (policy : ZipRecoveryPolicy) :
    (∀ e ∈ (parseZipWithPolicy data policy).entries, Outside data policy e) ↔
      (Accounted data policy → ∀ r ∈ listedRecords data policy,
        ∀ a ∈ (ContainerOwnershipMap.detect data policy).archives,
          a.contains (landing data policy r) = false) := by
  rw [← cdComplete_iff]
  cases hc : cdComplete data (readDirectory data policy) with
  | true =>
      rw [parseZipWithPolicy_of_complete hc, noteCount_entries, readDirectory_landed,
        List.forall_mem_map]
      exact ⟨fun h _ ↦ h, fun h ↦ h rfl⟩
  | false =>
      rw [parseZipWithPolicy_of_incomplete hc]
      exact iff_of_true (mergeScan_outside data policy _) nofun

theorem nestedRecordArchive_exposes :
    ∃ e ∈ (parseZip nestedRecordArchive).entries,
      ¬ Outside nestedRecordArchive .default e := by
  have h : ∃ e ∈ (parseZip nestedRecordArchive).entries,
      ∃ a ∈ (ContainerOwnershipMap.detect nestedRecordArchive .default).archives,
        a.contains e.localHeaderOffset = true := by decide +kernel
  obtain ⟨e, he, a, ha, hc⟩ := h
  exact ⟨e, he, fun hout ↦ by simp [hout a ha] at hc⟩

/-! ## The order -/

/-- The parse is in physical order exactly when the records of no directory that accounts for the
archive land out of that order. -/
theorem parse_inOffsetOrder_iff (data : Bytes) (policy : ZipRecoveryPolicy) :
    InOffsetOrder (parseZipWithPolicy data policy).entries ↔
      (Accounted data policy →
        ((listedRecords data policy).map (landing data policy)).Pairwise (· ≤ ·)) := by
  rw [← cdComplete_iff]
  cases hc : cdComplete data (readDirectory data policy) with
  | true =>
      rw [parseZipWithPolicy_of_complete hc, noteCount_entries, readDirectory_landed,
        InOffsetOrder, List.pairwise_map, List.pairwise_map]
      exact ⟨fun h _ ↦ h, fun h ↦ h rfl⟩
  | false =>
      rw [parseZipWithPolicy_of_incomplete hc]
      exact iff_of_true (mergeScan_inOffsetOrder data policy _) nofun

/-- Two members, listed last first. -/
def swappedRecordsArchive : Bytes :=
  let fl := storedFlate
  let a : Part := ⟨['a'], [0x61]⟩
  let b : Part := ⟨['b'], [0x62]⟩
  let body := localRecord fl a ++ localRecord fl b
  let cd := centralRecord fl b (localRecord fl a).length ++ centralRecord fl a 0
  body ++ cd ++ endRecord 2 cd.length body.length

theorem swappedRecordsArchive_out_of_order :
    ¬ InOffsetOrder (parseZip swappedRecordsArchive).entries := by
  decide +kernel

end VeraqisRecover.Zip
