import VeraqisRecover.Support.SkippingScan
import VeraqisRecover.Zip.Directoryless

/-!
# The header index beside the scan

Both walk forward from signature to signature and step over what they take.  The
index takes less: a header without a name, or one that does not fit in the file, it
passes byte by byte, and finds in its payload what the scan has stepped over.
-/

namespace VeraqisRecover.Zip

open ByteString LossyUtf8

/-- Behind the name and the extra field of the header at `i`. -/
def headerEnd (data : Bytes) (i : ℕ) : ℕ :=
  i + 30 + (u16le data (i + 26)).getD 0 + (u16le data (i + 28)).getD 0

/-- The lengths of the header at `i` reach neither of the limits set for them. -/
def LengthsAdmitted (data : Bytes) (policy : ZipRecoveryPolicy) (i : ℕ) : Prop :=
  (u16le data (i + 26)).getD 0 ≤ policy.maxNameBytes ∧
    (u16le data (i + 28)).getD 0 ≤ policy.maxExtraBytes

/-- Below this position both look for signatures. -/
def scanEnd (data : Bytes) (policy : ZipRecoveryPolicy) : ℕ :=
  min data.length policy.maxScanBytes - 29

/-- The local-header scan, by where it resumes. -/
def headerScan (data : Bytes) : SkippingScan where
  stop i := if u32le data i = some lfhSig then some (resumeAt data i) else none
  lt := by
    intro i q h
    split at h
    · rw [← Option.some.inj h]
      exact lt_resumeAt data i
    · cases h

/-- The forward pass of the index, by where it resumes. -/
def indexScan (data : Bytes) (policy : ZipRecoveryPolicy) : SkippingScan where
  stop i :=
    if u32le data i = some lfhSig then
      (LocalHeaderIndex.plausibleHeader data policy i).map fun q ↦
        if i < q.2.next then q.2.next else i + 1
    else none
  lt := by
    intro i q h
    split at h
    · obtain ⟨r, -, rfl⟩ := Option.map_eq_some_iff.mp h
      split <;> omega
    · cases h

variable {data : Bytes} {policy : ZipRecoveryPolicy} {i : ℕ}

/-! ## Headers -/

theorem lt_headerEnd (data : Bytes) (i : ℕ) : i < headerEnd data i := by
  unfold headerEnd
  omega

theorem slice?_name (hfits : headerEnd data i ≤ data.length) :
    slice? data (i + 30) (i + 30 + (u16le data (i + 26)).getD 0) =
      some ((data.drop (i + 30)).take ((u16le data (i + 26)).getD 0)) := by
  unfold headerEnd at hfits
  rw [slice?_eq_some, Nat.add_sub_cancel_left]
  exact ⟨⟨by omega, by omega⟩, rfl⟩

/-- What a record of the index says about the header it was read from. -/
theorem plausibleHeader_fields {name : Bytes} {r : LocalHeaderRecord}
    (h : LocalHeaderIndex.plausibleHeader data policy i = some (name, r)) :
    ((u16le data (i + 26)).getD 0 ≠ 0 ∧ LengthsAdmitted data policy i ∧
      headerEnd data i ≤ data.length) ∧
      r.dataStart = headerEnd data i ∧ r.compSize = (u32le data (i + 18)).getD 0 := by
  simp only [LocalHeaderIndex.plausibleHeader, Option.bind_eq_bind, Option.bind_eq_some_iff,
    Option.ite_none_left_eq_some, Option.some.injEq, Prod.mk.injEq, checkedAdd_eq_some] at h
  obtain ⟨hlimits, _, ⟨-, rfl⟩, _, ⟨-, rfl⟩, hfits, _, -, -, rfl⟩ := h
  push Not at hlimits
  exact ⟨⟨hlimits.1, hlimits.2, Nat.le_of_not_lt hfits⟩, rfl, rfl⟩

theorem plausibleHeader_isSome (hd : data.length ≤ wordMax) :
    (LocalHeaderIndex.plausibleHeader data policy i).isSome = true ↔
      (u16le data (i + 26)).getD 0 ≠ 0 ∧ LengthsAdmitted data policy i ∧
        headerEnd data i ≤ data.length := by
  constructor
  · intro h
    obtain ⟨⟨name, r⟩, hr⟩ := Option.isSome_iff_exists.mp h
    exact (plausibleHeader_fields hr).1
  · rintro ⟨hname, ⟨hmaxName, hmaxExtra⟩, hfits⟩
    have hslice := slice?_name hfits
    unfold headerEnd at hfits
    simp only [LocalHeaderIndex.plausibleHeader, Option.bind_eq_bind]
    rw [if_neg (by omega), checkedAdd_of_le (by omega), Option.bind_some,
      checkedAdd_of_le (by omega), Option.bind_some, if_neg (by omega), hslice]
    rfl

theorem fromUtf8Lossy_eq_nil {bs : Bytes} : fromUtf8Lossy bs = [] ↔ bs = [] := by
  cases bs with
  | nil => simp [fromUtf8Lossy]
  | cons b bs => simp [fromUtf8Lossy]

/-- A scanned header has a name where it carries one that fits in the file. -/
theorem scanned_name_ne_nil (hfits : headerEnd data i ≤ data.length) :
    (scannedHeaderAt data i).1.name ≠ [] ↔ (u16le data (i + 26)).getD 0 ≠ 0 := by
  have hslice := slice?_name hfits
  have hlen := length_of_slice? hslice
  rw [Nat.add_sub_cancel_left] at hlen
  simp only [scannedHeaderAt, hslice, Option.map_some, Option.getD_some, ne_eq,
    fromUtf8Lossy_eq_nil]
  rw [← List.length_eq_zero_iff, hlen]

/-! ## One steps further than the other -/

/-- The scan resumes at the next signature or behind the payload. -/
theorem scannedHeaderAt_next (data : Bytes) (i : ℕ) :
    (scannedHeaderAt data i).2 =
      if 0 < (u32le data (i + 18)).getD 0 then
        saturatingAdd (headerEnd data i) ((u32le data (i + 18)).getD 0)
      else (nextSignature data (headerEnd data i)).getD data.length := rfl

theorem nextSignature_quiet {j x : ℕ} (hj : (nextSignature data i).getD data.length = j)
    (hix : i ≤ x) (hxj : x < j) : u32le data x ≠ some lfhSig := by
  fun_induction nextSignature data i with
  | case1 i =>
      rw [Option.getD_some] at hj
      omega
  | case2 i _ _ hnone ih =>
      rcases Nat.eq_or_lt_of_le hix with rfl | hlt
      · exact fun hsig ↦ hnone (Or.inl hsig)
      · exact ih hj hlt
  | case3 i hshort =>
      intro hsig
      have hlen := le_length_of_u32le hsig
      omega

theorem indexScan_stop {q : ℕ} (h : (indexScan data policy).stop i = some q) :
    u32le data i = some lfhSig ∧ headerEnd data i ≤ data.length ∧
      q = if 0 < (u32le data (i + 18)).getD 0 then resumeAt data i else headerEnd data i := by
  simp only [indexScan, Option.ite_none_right_eq_some, Option.map_eq_some_iff] at h
  obtain ⟨hsig, ⟨name, r⟩, hr, rfl⟩ := h
  obtain ⟨⟨-, -, hfits⟩, hstart, hcomp⟩ := plausibleHeader_fields hr
  refine ⟨hsig, hfits, ?_⟩
  simp only [LocalHeaderRecord.next, hstart, hcomp, resumeAt, scannedHeaderAt_next]
  split
  · rfl
  · rw [if_pos (lt_headerEnd data i)]

theorem headerEnd_le_resumeAt (hfits : headerEnd data i ≤ data.length)
    (hcomp : ¬ 0 < (u32le data (i + 18)).getD 0) :
    headerEnd data i ≤ resumeAt data i ∧
      resumeAt data i = (nextSignature data (headerEnd data i)).getD data.length := by
  have hnext : headerEnd data i ≤ (nextSignature data (headerEnd data i)).getD data.length := by
    cases hsig : nextSignature data (headerEnd data i) with
    | none => exact hfits
    | some j => exact le_nextSignature hsig
  have hlt := lt_headerEnd data i
  rw [resumeAt, scannedHeaderAt_next, if_neg hcomp, if_pos (by omega)]
  exact ⟨hnext, rfl⟩

/-- The scan starts wherever the index does, and steps over nothing that the index would take. -/
theorem indexScan_follows : (indexScan data policy).Follows (headerScan data) where
  start := by
    intro p q h
    obtain ⟨hsig, hfits, rfl⟩ := indexScan_stop h
    refine ⟨resumeAt data p, if_pos hsig, ?_⟩
    split
    · exact le_rfl
    · rename_i hcomp
      exact (headerEnd_le_resumeAt hfits hcomp).1
  quiet := by
    intro p q r x h hr hqx hxr
    obtain ⟨hsig, hfits, rfl⟩ := indexScan_stop h
    obtain rfl := Option.some.inj ((if_pos hsig).symm.trans hr)
    split at hqx
    · omega
    · rename_i hcomp
      have hquiet := nextSignature_quiet (headerEnd_le_resumeAt hfits hcomp).2.symm hqx hxr
      exact if_neg hquiet

/-! ## What they list -/

theorem scanLocalFrom_run {horizon : ℕ} {entries : List ZipEntry}
    (h : (scanLocalFrom data policy horizon i entries).2 = none) :
    (scanLocalFrom data policy horizon i entries).1.map ZipEntry.localHeaderOffset =
      entries.map ZipEntry.localHeaderOffset ++ (headerScan data).run (horizon - 29) i := by
  fun_induction scanLocalFrom data policy horizon i entries with
  | case1 => cases h
  | case2 i entries hi _ hsig ih =>
      have hin : i < horizon - 29 := by omega
      rw [ih h, SkippingScan.run_of_none hin (if_neg hsig)]
  | case3 i entries hi _ hsig e next hscan ih =>
      have hresume : (if i < next then next else i + 1) = resumeAt data i := by
        rw [resumeAt, hscan]
      have hoff : e.localHeaderOffset = i := by
        rw [show e = (scannedHeaderAt data i).1 from (congrArg Prod.fst hscan).symm]
        rfl
      have hin : i < horizon - 29 := by omega
      simp only [dite_eq_ite, hresume] at ih h ⊢
      rw [ih h, SkippingScan.run_of_stop hin (if_pos (not_not.mp hsig)), List.map_append,
        List.map_singleton, hoff, List.append_assoc, List.singleton_append]
  | case4 i entries hi => rw [SkippingScan.run_of_le (by omega), List.append_nil]

namespace LocalHeaderIndex

theorem buildFrom_run {horizon reads : ℕ} {idx : LocalHeaderIndex}
    (hcap : idx.records.length ≤ policy.maxCandidateRecords) :
    (buildFrom data policy horizon i reads idx).1.records.map (·.offset) =
      (idx.records.map (·.offset) ++ (indexScan data policy).run (horizon - 29) i).take
        policy.maxCandidateRecords := by
  fun_induction buildFrom data policy horizon i reads idx with
  | case1 i reads idx hi hsig ih =>
      have hin : i < horizon - 29 := by omega
      rw [ih hcap, SkippingScan.run_of_none hin (if_neg hsig)]
  | case2 i reads idx hi hsig hfull =>
      rw [List.take_left' (by rw [List.length_map]; omega)]
  | case3 i reads idx hi hsig hroom hnone ih =>
      have hstop : (indexScan data policy).stop i = none := by
        simp only [indexScan, hnone, Option.map_none, ite_self]
      rw [ih hcap, SkippingScan.run_of_none (by omega) hstop]
  | case4 i reads idx hi hsig hroom name r hsome ih =>
      have hstop : (indexScan data policy).stop i =
          some (if i < r.next then r.next else i + 1) := by
        simp only [indexScan, hsome, Option.map_some]
        exact if_pos (not_not.mp hsig)
      simp only [dite_eq_ite] at ih ⊢
      rw [SkippingScan.run_of_stop (by omega) hstop, ih ?_]
      · simp [push, (plausibleHeader_rawName hsome).2]
      · simp only [push, List.length_append, List.length_singleton]
        omega
  | case5 i reads idx hi =>
      rw [SkippingScan.run_of_le (by omega), List.append_nil, List.take_of_length_le]
      rwa [List.length_map]

theorem build_run (data : Bytes) (policy : ZipRecoveryPolicy) :
    (build data policy).records.map (·.offset) =
      ((indexScan data policy).run (scanEnd data policy) 0).take policy.maxCandidateRecords :=
  buildFrom_run (Nat.zero_le _)

end LocalHeaderIndex

/-! ## What the index misses of the scan -/

/-- A scanned header at `o` that has a name and fits in the file. -/
def Seen (data : Bytes) (policy : ZipRecoveryPolicy) (o : ℕ) : Prop :=
  ∃ e ∈ (scanLocalHeadersBounded data policy).1,
    e.localHeaderOffset = o ∧ e.name ≠ [] ∧ headerEnd data o ≤ data.length

/-- A header that the scan stops at and the index rejects covers one that the index accepts. -/
def RejectedCovers (data : Bytes) (policy : ZipRecoveryPolicy) : Prop :=
  (headerScan data).Hides (indexScan data policy) (scanEnd data policy)

theorem indexScan_isSome (hd : data.length ≤ wordMax) :
    ((indexScan data policy).stop i).isSome = true ↔
      u32le data i = some lfhSig ∧ (u16le data (i + 26)).getD 0 ≠ 0 ∧
        LengthsAdmitted data policy i ∧ headerEnd data i ≤ data.length := by
  rw [← plausibleHeader_isSome hd]
  simp only [indexScan]
  split
  · rename_i hsig
    rw [Option.isSome_map, and_iff_right hsig]
  · rename_i hsig
    exact iff_of_false Bool.false_ne_true fun h ↦ hsig h.1

section Complete

variable (hcap : (scanLocalHeadersBounded data policy).2 = none)

include hcap

theorem scanned_offsets :
    (scanLocalHeadersBounded data policy).1.map ZipEntry.localHeaderOffset =
      (headerScan data).run (scanEnd data policy) 0 :=
  scanLocalFrom_run hcap

theorem headerScan_length_le :
    ((headerScan data).run (scanEnd data policy) 0).length ≤ policy.maxCandidateRecords := by
  rw [← scanned_offsets hcap, List.length_map]
  exact scanLocalFrom_length_le (Nat.zero_le _)

theorem seen_iff (hd : data.length ≤ wordMax)
    (hlimits : ∀ e ∈ (scanLocalHeadersBounded data policy).1,
      LengthsAdmitted data policy e.localHeaderOffset) {o : ℕ} :
    Seen data policy o ↔ o ∈ (headerScan data).run (scanEnd data policy) 0 ∧
      ((indexScan data policy).stop o).isSome = true := by
  rw [← scanned_offsets hcap, List.mem_map, indexScan_isSome hd]
  constructor
  · rintro ⟨e, he, rfl, hname, hfits⟩
    obtain ⟨hsig, hread⟩ := scanLocalHeadersBounded_sound e he
    rw [hread] at hname
    exact ⟨⟨e, he, rfl⟩, hsig, (scanned_name_ne_nil hfits).mp hname, hlimits e he, hfits⟩
  · rintro ⟨⟨e, he, rfl⟩, -, hname, -, hfits⟩
    obtain ⟨-, hread⟩ := scanLocalHeadersBounded_sound e he
    refine ⟨e, he, rfl, ?_, hfits⟩
    rw [hread]
    exact (scanned_name_ne_nil hfits).mpr hname

end Complete

/-- Where no limit is reached, the index records the scanned headers that have a name and fit in
the file, unless a header that the scan steps over and the index does not covers another. -/
theorem build_sees_scan_iff (hd : data.length ≤ wordMax)
    (hcap : (scanLocalHeadersBounded data policy).2 = none)
    (hlimits : ∀ e ∈ (scanLocalHeadersBounded data policy).1,
      LengthsAdmitted data policy e.localHeaderOffset) :
    (∀ o, (∃ r ∈ (LocalHeaderIndex.build data policy).records, r.offset = o) ↔
      Seen data policy o) ↔ ¬ RejectedCovers data policy := by
  rw [RejectedCovers, ← SkippingScan.take_run_agrees_iff indexScan_follows
    (headerScan_length_le hcap)]
  refine forall_congr' fun o ↦ ?_
  rw [← LocalHeaderIndex.build_run, List.mem_map, seen_iff hcap hd hlimits]

/-! ## Files shorter than the cap on candidates -/

theorem scanLocalFrom_unlimited {horizon : ℕ} {entries : List ZipEntry}
    (hshort : horizon ≤ policy.maxCandidateRecords) (h : entries.length ≤ i) :
    (scanLocalFrom data policy horizon i entries).2 = none := by
  fun_induction scanLocalFrom data policy horizon i entries with
  | case1 i entries hi hfull => omega
  | case2 i entries _ _ _ ih => exact ih (h.trans (Nat.le_succ i))
  | case3 i entries _ _ _ e next hscan ih =>
      refine ih ?_
      rw [List.length_append, List.length_singleton]
      split <;> omega
  | case4 => rfl

theorem scan_unlimited (h : data.length ≤ policy.maxCandidateRecords) :
    (scanLocalHeadersBounded data policy).2 = none :=
  scanLocalFrom_unlimited ((min_le_left _ _).trans h) (Nat.zero_le _)

theorem u16le_getD_le (data : Bytes) (o : ℕ) : (u16le data o).getD 0 ≤ 65535 := by
  cases h : u16le data o with
  | none => exact Nat.zero_le _
  | some v => exact Nat.le_of_lt_succ (u16le_lt h)

theorem lengthsAdmitted_default (data : Bytes) (i : ℕ) :
    LengthsAdmitted data ZipRecoveryPolicy.default i :=
  ⟨u16le_getD_le data (i + 26), u16le_getD_le data (i + 28)⟩

/-- A local header with the given sizes and no bytes behind it. -/
def bareHeader (compSize nameLen : ℕ) : Bytes :=
  le32 lfhSig ++ le16 20 ++ le16 0 ++ le16 0 ++ le32 0 ++ le32 0 ++
    le32 compSize ++ le32 compSize ++ le16 nameLen ++ le16 0

theorem build_sees_scan_iff_single :
    (∀ o, (∃ r ∈ (LocalHeaderIndex.build (bareHeader 0 1 ++ [0x62]) .default).records,
      r.offset = o) ↔ Seen (bareHeader 0 1 ++ [0x62]) .default o) ↔
      ¬ RejectedCovers (bareHeader 0 1 ++ [0x62]) .default :=
  build_sees_scan_iff (by decide) (scan_unlimited (by decide)) fun _ _ ↦ lengthsAdmitted_default _ _

/-- A header without a name, and the header of a named entry for its payload. -/
def nameless : Bytes := bareHeader 31 0 ++ (bareHeader 0 1 ++ [0x62])

theorem nameless_payload_indexed :
    ((scanLocalHeadersBounded nameless .default).2 = none ∧
      ∀ i, LengthsAdmitted nameless .default i) ∧
      (∃ r ∈ (LocalHeaderIndex.build nameless .default).records, r.offset = 30) ∧
        ¬ Seen nameless .default 30 := by
  have hcap : (scanLocalHeadersBounded nameless .default).2 = none := scan_unlimited (by decide)
  refine ⟨⟨hcap, lengthsAdmitted_default nameless⟩, List.mem_map.mp ?_, fun hseen ↦ ?_⟩
  · have hbefore : ∀ q < 30, (indexScan nameless .default).stop q = none := by decide
    have hexposed : (indexScan nameless .default).Exposed 30 := by
      refine SkippingScan.exposed_iff.mpr fun q hq r hr ↦ ?_
      cases (hbefore q hq).symm.trans hr
    rw [LocalHeaderIndex.build_run, List.take_of_length_le]
    · exact SkippingScan.mem_run.mpr ⟨by decide, by decide, hexposed⟩
    · exact (SkippingScan.length_run_le _ _).trans (by decide)
  · obtain ⟨hrun, -⟩ := (seen_iff hcap (by decide) fun _ _ ↦ lengthsAdmitted_default _ _).mp hseen
    obtain ⟨-, -, hexposed⟩ := SkippingScan.mem_run.mp hrun
    have hstop : (headerScan nameless).stop 0 = some 61 := by decide
    exact absurd (hexposed.le SkippingScan.exposed_zero (by decide) hstop) (by decide)

end VeraqisRecover.Zip
