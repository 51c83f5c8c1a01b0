import VeraqisRecover.Zip.Ownership

/-!
# What a merged parse can contain

The local-header scan reports headers, never directory records; the merge
returns directory records and scanned headers and nothing else, and leaves the
directory's count as the completeness decision saw it.
-/

namespace VeraqisRecover.Zip

open ByteString

theorem scanLocalFrom_fromCentralDir {data : Bytes} {policy : ZipRecoveryPolicy} {horizon i : ℕ}
    {entries : List ZipEntry} (h : ∀ e ∈ entries, e.fromCentralDir = false) :
    ∀ e ∈ (scanLocalFrom data policy horizon i entries).1, e.fromCentralDir = false := by
  fun_induction scanLocalFrom data policy horizon i entries with
  | case1 => exact h
  | case2 i entries _ _ _ ih => exact ih h
  | case3 i entries hlt hcap hsig e next hscan ih =>
      refine ih fun e' he' ↦ ?_
      rcases List.mem_append.mp he' with he' | he'
      · exact h e' he'
      · obtain rfl := List.mem_singleton.mp he'
        exact (congrArg (fun s ↦ s.1.fromCentralDir) hscan).symm
  | case4 => exact h

/-- Scanned headers are never directory records. -/
theorem scanLocalHeadersBounded_fromCentralDir (data : Bytes) (policy : ZipRecoveryPolicy) :
    ∀ e ∈ (scanLocalHeadersBounded data policy).1, e.fromCentralDir = false :=
  scanLocalFrom_fromCentralDir (by simp)

namespace ReconcileState

variable {data : Bytes} {containers : ContainerOwnershipMap} {policy : ZipRecoveryPolicy}

theorem mem_considerAll {s : ReconcileState} {scanned : List ZipEntry} {e : ZipEntry}
    (h : e ∈ (considerAll data containers policy s scanned).entries) :
    e ∈ s.entries ∨ e ∈ scanned := by
  induction scanned generalizing s with
  | nil => exact .inl h
  | cons cand rest ih =>
      rw [considerAll] at h
      split at h
      · exact .inl h
      · rcases ih h with h | h
        · rcases consider_entries data containers s cand with
            heq | ⟨heq, -⟩
          · exact .inl (heq ▸ h)
          · rw [heq] at h
            rcases List.mem_append.mp h with h | h
            · exact .inl h
            · exact .inr (List.mem_singleton.mp h ▸ List.mem_cons_self)
        · exact .inr (List.mem_cons_of_mem cand h)

/-- The candidate loop drops nothing it started from. -/
theorem subset_considerAll {s : ReconcileState} {scanned : List ZipEntry} {e : ZipEntry}
    (h : e ∈ s.entries) : e ∈ (considerAll data containers policy s scanned).entries := by
  induction scanned generalizing s with
  | nil => exact h
  | cons cand rest ih =>
      rw [considerAll]
      split
      · exact h
      · refine ih ?_
        rcases consider_entries data containers s cand with
          heq | ⟨heq, -⟩
        · exact heq ▸ h
        · exact heq ▸ List.mem_append_left _ h

end ReconcileState

@[simp] theorem noteLimit_entries (out : ZipParse) (l : Option LimitHit) :
    (out.noteLimit l).entries = out.entries := by
  cases l <;> rfl

@[simp] theorem noteLimit_cdCountConsistent (out : ZipParse) (l : Option LimitHit) :
    (out.noteLimit l).cdCountConsistent = out.cdCountConsistent := by
  cases l <;> rfl

/-- Every merged entry is a directory record or a scanned header. -/
theorem mem_mergeScan {data : Bytes} {policy : ZipRecoveryPolicy} {st : ParseState} {e : ZipEntry}
    (h : e ∈ (mergeScan data policy st).entries) :
    e ∈ st.out.entries ∨ e ∈ (scanLocalHeadersBounded data policy).1 := by
  have hmem := (List.mem_insertionSort ZipEntry.Before).mp h
  rcases ReconcileState.mem_considerAll hmem with he | he
  · refine .inl ?_
    have := List.mem_of_mem_filter he
    simpa [ZipParse.warn] using this
  · exact .inr he

/-- A merged entry that claims to come from the directory does. -/
theorem mem_directory_of_mergeScan {data : Bytes} {policy : ZipRecoveryPolicy} {st : ParseState}
    {e : ZipEntry} (h : e ∈ (mergeScan data policy st).entries) (hcd : e.fromCentralDir = true) :
    e ∈ st.out.entries := by
  rcases mem_mergeScan h with he | he
  · exact he
  · rw [scanLocalHeadersBounded_fromCentralDir data policy e he] at hcd
    simp at hcd

/-- Both paths return only directory records under the directory's name. -/
theorem mem_directory_of_parse {data : Bytes} {policy : ZipRecoveryPolicy} {e : ZipEntry}
    (h : e ∈ (parseZipWithPolicy data policy).entries) (hcd : e.fromCentralDir = true) :
    e ∈ (readDirectory data policy).out.entries := by
  cases hc : cdComplete data (readDirectory data policy) with
  | true => simpa [parseZipWithPolicy_of_complete hc] using h
  | false =>
      rw [parseZipWithPolicy_of_incomplete hc] at h
      exact mem_directory_of_mergeScan h hcd

/-- The count is judged on the directory as read, on either path. -/
theorem parse_cdCountConsistent (data : Bytes) (policy : ZipRecoveryPolicy) :
    (parseZipWithPolicy data policy).cdCountConsistent =
      (noteCount (readDirectory data policy)).cdCountConsistent := by
  cases hc : cdComplete data (readDirectory data policy) with
  | true => rw [parseZipWithPolicy_of_complete hc]
  | false =>
      rw [parseZipWithPolicy_of_incomplete hc]
      simp [mergeScan, ZipParse.warn]

end VeraqisRecover.Zip
