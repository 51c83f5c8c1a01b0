import VeraqisRecover.Zip.IndexLookup
import VeraqisRecover.Zip.OffsetMonotone
import VeraqisRecover.Zip.Order

/-!
# What re-pointing may do to a record

A record's offset is rewritten at most twice: by the shift of a directory that
was found by scanning, and through the offset map.  The map only proposes.  An
offset it leads to is taken over when the header standing there carries the
record's own name, and a record that points at such a header already is left
alone.
-/

namespace VeraqisRecover.Zip

open ByteString LossyUtf8

/-! ## Stored offsets -/

theorem parseCentralFrom_offset_lt {cd : Bytes} {policy : ZipRecoveryPolicy} {region o : ℕ}
    {entries : List ZipEntry} {metadata : ℕ} (h : ∀ e ∈ entries, e.localHeaderOffset < 2 ^ 32) :
    ∀ e ∈ (parseCentralFrom cd policy region o entries metadata).1,
      e.localHeaderOffset < 2 ^ 32 := by
  fun_induction parseCentralFrom cd policy region o entries metadata with
  | case1 => exact h
  | case2 => exact h
  | case3 => exact h
  | case4 => exact h
  | case5 o entries _ _ _ _ r hr _ _ _ ih =>
      refine ih fun e he ↦ ?_
      rcases List.mem_append.mp he with he | he
      · exact h e he
      · simp only [centralRecordAt, Option.bind_eq_bind, Option.bind_eq_some_iff,
          Option.ite_none_left_eq_some, Option.some.injEq] at hr
        obtain ⟨-, _, -, _, -, _, -, -, rfl⟩ := hr
        rw [List.mem_singleton.mp he]
        cases hu : u32le cd (o + 42) with
        | none => exact Nat.two_pow_pos 32
        | some v => exact u32le_lt hu
  | case6 => exact h

/-- A record's offset field is 32 bits wide. -/
theorem parseCentral_offset_lt {cd : Bytes} {n : ℕ} {policy : ZipRecoveryPolicy} :
    ∀ e ∈ (parseCentralDirectoryBounded cd n policy).1, e.localHeaderOffset < 2 ^ 32 :=
  parseCentralFrom_offset_lt (by simp)

/-- The records as the bytes of the adopted directory give them: of the one the EOCD leads to, or
else of the one that is found by scanning. -/
def listedRecords (data : Bytes) (policy : ZipRecoveryPolicy) : List ZipEntry :=
  let containers := ContainerOwnershipMap.detect data policy
  let followed := (followEocd data policy containers).out.entries
  if followed ≠ [] then followed
  else match (CdScan.scanSurvivingCd data).acceptedCandidate with
    | none => []
    | some c =>
        if (containers.ownerOf c.start).isSome then []
        else (parseCentralDirectoryBounded (slice data c.start c.stop) c.recordCount policy).1

/-- A record of an adopted directory, under the shift the scan accepted, if any. -/
def adopt (shift : Option ℤ) (r : ZipEntry) : ZipEntry := (shift.map shiftEntry).getD id r

@[simp] theorem adopt_none : adopt none = id := rfl

@[simp] theorem adopt_some (delta : ℤ) : adopt (some delta) = shiftEntry delta := rfl

/-! ## Adoption -/

@[simp] theorem noteLimit_cdOffsetShift (out : ZipParse) (l : Option LimitHit) :
    (out.noteLimit l).cdOffsetShift = out.cdOffsetShift := by
  cases l <;> rfl

theorem followEocd_cdOffsetShift (data : Bytes) (policy : ZipRecoveryPolicy)
    (containers : ContainerOwnershipMap) :
    (followEocd data policy containers).out.cdOffsetShift = none := by
  unfold followEocd
  dsimp only
  split
  · rfl
  · split
    · split
      · dsimp only
        split <;> simp
      · rfl
    · rfl

/-- Adopting a candidate shifts its records by the delta it was accepted with. -/
theorem adoptCandidate_entries {data : Bytes} {policy : ZipRecoveryPolicy} {st : ParseState}
    (c : CdScan.CdCandidate) (hshift : st.out.cdOffsetShift = none) (hnil : st.out.entries = []) :
    (adoptCandidate data policy c st).out.entries =
        ((parseCentralDirectoryBounded (slice data c.start c.stop) c.recordCount policy).1).map
          (adopt (adoptCandidate data policy c st).out.cdOffsetShift) ∧
      ∀ delta, (adoptCandidate data policy c st).out.cdOffsetShift = some delta →
        c.acceptedDelta = some delta := by
  unfold adoptCandidate
  dsimp only
  split
  · rename_i hempty
    simp [hempty, hshift, hnil]
  · by_cases hzero : c.acceptedDelta.getD 0 = 0
    · simp [hzero, hshift]
    · cases hd : c.acceptedDelta with
      | none => simp [hd] at hzero
      | some delta =>
          rw [hd, Option.getD_some] at hzero
          simp [hzero]

/-- Every offset adopted is a stored one, under one shift. -/
theorem adoptedRecords_eq (data : Bytes) (policy : ZipRecoveryPolicy) :
    let shift := (readDirectory data policy).out.cdOffsetShift
    adoptedRecords data policy = (listedRecords data policy).map (adopt shift) ∧
      ∀ delta, shift = some delta → ∃ c,
        (CdScan.scanSurvivingCd data).acceptedCandidate = some c ∧
          c.acceptedDelta = some delta := by
  have hkeep : (readDirectory data policy).out.cdOffsetShift =
      (recoverSurvivingCd data policy (ContainerOwnershipMap.detect data policy)
        (followEocd data policy
          (ContainerOwnershipMap.detect data policy))).out.cdOffsetShift := by
    unfold readDirectory reconcileDirectory
    dsimp only
    split <;> rfl
  dsimp only
  rw [hkeep]
  unfold adoptedRecords listedRecords
  dsimp only
  have hnone := followEocd_cdOffsetShift data policy (ContainerOwnershipMap.detect data policy)
  generalize ContainerOwnershipMap.detect data policy = containers at hnone ⊢
  generalize followEocd data policy containers = st at hnone ⊢
  unfold recoverSurvivingCd
  by_cases hent : st.out.entries ≠ []
  · rw [if_pos hent, if_pos hent, hnone]
    exact ⟨by simp, by simp⟩
  · rw [if_neg hent, if_neg hent]
    have hnil := not_not.mp hent
    cases (CdScan.scanSurvivingCd data).acceptedCandidate with
    | none => exact ⟨by simp [hnil], by simp [hnone]⟩
    | some c =>
        dsimp only
        split
        · exact ⟨by simp [hnil, ZipParse.warn], by simp [hnone, ZipParse.warn]⟩
        · obtain ⟨hentries, hdelta⟩ := @adoptCandidate_entries data policy _ c hnone hnil
          exact ⟨hentries, fun delta h ↦ ⟨c, rfl, hdelta delta h⟩⟩

/-- Both paths hand the shift on. -/
theorem parse_cdOffsetShift (data : Bytes) (policy : ZipRecoveryPolicy) :
    (parseZipWithPolicy data policy).cdOffsetShift =
      (readDirectory data policy).out.cdOffsetShift := by
  have hcount : ∀ st, (noteCount st).cdOffsetShift = st.out.cdOffsetShift := by
    intro st
    unfold noteCount
    dsimp only
    split
    · split <;> rfl
    · rfl
  cases hc : cdComplete data (readDirectory data policy) with
  | true => rw [parseZipWithPolicy_of_complete hc, hcount]
  | false =>
      rw [parseZipWithPolicy_of_incomplete hc]
      simp [mergeScan, ZipParse.warn, hcount]

/-! ## Reconciliation -/

/-- An offset the map leads a record to has a header with the record's name. -/
theorem repointTarget_named {data : Bytes} {policy : ZipRecoveryPolicy} {entries : List ZipEntry}
    {map : OffsetMap} {e : ZipEntry} {phys : ℕ}
    (h : repointTarget data (inferMap data policy entries).2 map e = some phys) :
    headerNamedAt data phys (asBytes e.name) = true := by
  obtain ⟨-, htables⟩ := inferMap_eq data policy entries
  unfold repointTarget at h
  split at h
  · cases h
  · obtain ⟨-, hname⟩ := Option.filter_eq_some_iff.mp h
    rw [decide_eq_true_eq, htables.atOffset, Option.bind_eq_some_iff] at hname
    obtain ⟨r, hr, hraw⟩ := hname
    obtain ⟨hmem, rfl⟩ := LocalHeaderIndex.atOffset_some
      (LocalHeaderIndex.build_wellIndexed data policy) hr
    exact LocalHeaderIndex.build_named hmem hraw

theorem reconciled_lands (data : Bytes) (policy : ZipRecoveryPolicy) (entries : List ZipEntry)
    (e : ZipEntry) : (reconciled data policy entries e).localHeaderOffset = e.localHeaderOffset ∨
      headerNamedAt data (reconciled data policy entries e).localHeaderOffset
        (asBytes e.name) = true := by
  unfold reconciled
  dsimp only
  split
  · unfold repoint
    split
    · rename_i phys hphys
      exact .inr (repointTarget_named hphys)
    · exact .inl rfl
  · exact .inl rfl

/-- What the whole treatment of offsets may make of a stored record. -/
structure Repointed (data : Bytes) (shift : Option ℤ) (r e : ZipEntry) : Prop where
  moves : e = { r with localHeaderOffset := e.localHeaderOffset }
  lands : e.localHeaderOffset = (adopt shift r).localHeaderOffset ∨
    headerNamedAt data e.localHeaderOffset (asBytes e.name) = true
  stays : headerNamedAt data (adopt shift r).localHeaderOffset (asBytes e.name) = true →
    e.localHeaderOffset = (adopt shift r).localHeaderOffset
  adopted : shift = none ∧ (adopt shift r).localHeaderOffset = r.localHeaderOffset ∨
    ∃ delta, shift = some delta ∧
      (((adopt shift r).localHeaderOffset : ℤ) = r.localHeaderOffset + delta ∨
        (adopt shift r).localHeaderOffset = offsetMax)

theorem with_offset_eq (x : ℕ) (e : ZipEntry) :
    ({ e with localHeaderOffset := x } : ZipEntry) =
      { e with localHeaderOffset :=
        ({ e with localHeaderOffset := x } : ZipEntry).localHeaderOffset } :=
  rfl

theorem adopt_movesOnly (shift : Option ℤ) : MovesOnly (adopt shift) := by
  intro e
  cases shift with
  | none => rfl
  | some delta =>
      rw [adopt_some]
      unfold shiftEntry
      exact with_offset_eq _ e

/-- A shifted offset is the sum, or the mark of a removed header. -/
theorem adopt_offset (shift : Option ℤ) {r : ZipEntry} (h : r.localHeaderOffset < 2 ^ 32) :
    shift = none ∧ (adopt shift r).localHeaderOffset = r.localHeaderOffset ∨
      ∃ delta, shift = some delta ∧
        (((adopt shift r).localHeaderOffset : ℤ) = r.localHeaderOffset + delta ∨
          (adopt shift r).localHeaderOffset = offsetMax) := by
  cases shift with
  | none => exact .inl ⟨rfl, rfl⟩
  | some delta =>
      refine .inr ⟨delta, rfl, ?_⟩
      have hwrap : wrapI64 r.localHeaderOffset = r.localHeaderOffset :=
        wrapI64_of_small (by omega) (by omega)
      rw [adopt_some, shiftEntry]
      generalize hsum : checkedAddI64 (wrapI64 r.localHeaderOffset) delta = sum
      cases sum with
      | none => exact .inr rfl
      | some x =>
          rw [hwrap] at hsum
          obtain ⟨-, hadd⟩ := checkedAddI64_eq_some.mp hsum
          dsimp only
          by_cases hpos : 0 ≤ x
          · rw [if_pos hpos, hadd]
            exact .inl (Int.toNat_of_nonneg hpos)
          · rw [if_neg hpos]
            exact .inr rfl

theorem listedRecords_offset_lt (data : Bytes) (policy : ZipRecoveryPolicy) :
    ∀ r ∈ listedRecords data policy, r.localHeaderOffset < 2 ^ 32 := by
  have hfollow : ∀ r ∈ (followEocd data policy
      (ContainerOwnershipMap.detect data policy)).out.entries, r.localHeaderOffset < 2 ^ 32 := by
    intro r hr
    unfold followEocd at hr
    dsimp only at hr
    split at hr
    · cases hr
    · split at hr
      · split at hr
        · dsimp only at hr
          split at hr
          · simp at hr
          · exact parseCentral_offset_lt r hr
        · cases hr
      · cases hr
  intro r hr
  unfold listedRecords at hr
  dsimp only at hr
  split at hr
  · exact hfollow r hr
  · split at hr
    · cases hr
    · split at hr
      · cases hr
      · exact parseCentral_offset_lt r hr

/-- Re-pointing is safe on every input: the records of the directory are taken over one by one,
each at its stored offset under the one accepted shift or at a header carrying its name; one that
points at such a header stays; and nothing but offsets is changed. -/
theorem parse_repointed (data : Bytes) (policy : ZipRecoveryPolicy) :
    let parsed := parseZipWithPolicy data policy
    (∃ moved, List.Forall₂ (Repointed data parsed.cdOffsetShift) (listedRecords data policy) moved ∧
      ∀ e ∈ parsed.entries, e.fromCentralDir = true → e ∈ moved) ∧
    ∀ delta, parsed.cdOffsetShift = some delta → ∃ c,
      (CdScan.scanSurvivingCd data).acceptedCandidate = some c ∧ c.acceptedDelta = some delta := by
  obtain ⟨hadopted, hshift⟩ := adoptedRecords_eq data policy
  dsimp only
  rw [parse_cdOffsetShift]
  generalize (readDirectory data policy).out.cdOffsetShift = shift at hadopted hshift
  refine ⟨⟨(readDirectory data policy).out.entries, ?_, fun e ↦ mem_directory_of_parse⟩, hshift⟩
  rw [readDirectory_entries, hadopted, List.map_map]
  apply List.forall₂_map_right_iff.mpr
  apply List.forall₂_same.mpr
  intro r hr
  generalize (listedRecords data policy).map (adopt shift) = entries
  have hadopt := adopt_movesOnly shift r
  have hname : (adopt shift r).name = r.name := by rw [hadopt]
  have hmoves := reconciled_movesOnly data policy entries (adopt shift r)
  have hname' : (reconciled data policy entries (adopt shift r)).name = r.name := by
    rw [hmoves]
    exact hname
  have hlands := reconciled_lands data policy entries (adopt shift r)
  refine ⟨?_, ?_, fun hnamed ↦ ?_, adopt_offset shift (listedRecords_offset_lt data policy r hr)⟩
  · rw [Function.comp_apply, hmoves, hadopt]
  · rw [Function.comp_apply, hname', ← hname]
    exact hlands
  · rw [Function.comp_apply, hname', ← hname] at hnamed
    rw [Function.comp_apply, reconciled_of_named hnamed]

end VeraqisRecover.Zip
