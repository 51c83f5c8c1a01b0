import VeraqisRecover.Zip.MobileZip

/-!
# What a recovery run hands out

Every entry the in-memory run emits comes from one parsed entry with a safe
path, verified against its checksum, and is either attested by the directory or
found where no directory speaks for the whole archive.
-/

namespace VeraqisRecover.Zip

open ByteString LossyUtf8

namespace RecoveryRun

/-- `x` is what the run makes of a parsed entry it emits. -/
structure Emits (run : RecoveryRun) (parsed : ZipParse) (entry : ZipEntry)
    (x : MobileZipEntry) : Prop where
  path : safeRelativePath entry.name run.limits.maxPathBytes run.limits.maxDepth =
    some x.safePath
  verified : (extractEntry run.fl run.data entry).status = .verifiedCrc
  bytes : x.bytes = (extractEntry run.fl run.data entry).bytes
  attested : run.cdProvenance.entryIsAttested entry.fromCentralDir = true ∨
    run.directoryEnumeratesArchive parsed = false

variable {run : RecoveryRun} {parsed : ZipParse}

theorem emits_of_verify {total : ℕ} {safePath : Text} {entry : ZipEntry} {x : MobileZipEntry}
    (hpath : safeRelativePath entry.name run.limits.maxPathBytes run.limits.maxDepth =
      some safePath)
    (h : run.verify parsed total safePath entry = .ok x) : run.Emits parsed entry x := by
  unfold verify at h
  dsimp only at h
  split at h
  · simp at h
  · split at h
    · simp at h
    · rename_i hstatus
      split at h
      · simp at h
      · rename_i hattest
        split at h
        · simp at h
        · split at h
          · simp at h
          · obtain rfl := Except.ok.inj h
            refine ⟨hpath, not_not.mp hstatus, rfl, ?_⟩
            cases ha : run.cdProvenance.entryIsAttested entry.fromCentralDir with
            | true => exact .inl rfl
            | false => exact .inr (by simpa [ha] using hattest)

/-- One parsed entry adds at most one emitted entry. -/
theorem step_collect (parsed : ZipParse) (s : LoopState (List MobileZipEntry)) (entry : ZipEntry) :
    ∃ s', run.step collect parsed s entry = .ok s' ∧
      (s'.sink = s.sink ∨ ∃ x, s'.sink = s.sink ++ [x] ∧ run.Emits parsed entry x) := by
  unfold step
  split
  · exact ⟨_, rfl, .inl rfl⟩
  · split
    · exact ⟨_, rfl, .inl rfl⟩
    · split
      · exact ⟨_, rfl, .inl rfl⟩
      · rename_i safePath hpath
        split
        · exact ⟨_, rfl, .inl rfl⟩
        · dsimp only
          split
          · exact ⟨_, rfl, .inl rfl⟩
          · rename_i x hx
            exact ⟨_, rfl, .inr ⟨x, rfl, emits_of_verify hpath hx⟩⟩

theorem foldlM_step_collect (parsed : ZipParse) (entries : List ZipEntry)
    (s : LoopState (List MobileZipEntry)) :
    ∃ s', entries.foldlM (run.step collect parsed) s = .ok s' ∧
      ∀ x ∈ s'.sink, x ∈ s.sink ∨ ∃ entry ∈ entries, run.Emits parsed entry x := by
  induction entries generalizing s with
  | nil => exact ⟨s, rfl, fun x hx ↦ .inl hx⟩
  | cons entry entries ih =>
      obtain ⟨s₁, hs₁, hsink⟩ := run.step_collect parsed s entry
      obtain ⟨s₂, hs₂, hmem⟩ := ih s₁
      refine ⟨s₂, ?_, fun x hx ↦ ?_⟩
      · rw [List.foldlM_cons, hs₁]
        exact hs₂
      · rcases hmem x hx with hx | ⟨e, he, hem⟩
        · rcases hsink with heq | ⟨y, heq, hy⟩
          · exact .inl (heq ▸ hx)
          · rw [heq] at hx
            rcases List.mem_append.mp hx with hx | hx
            · exact .inl hx
            · exact .inr ⟨entry, List.mem_cons_self, List.mem_singleton.mp hx ▸ hy⟩
        · exact .inr ⟨e, List.mem_cons_of_mem entry he, hem⟩

/-- The in-memory run never fails, and emits nothing but parsed entries. -/
theorem recoverVerifiedEntries_emits (run : RecoveryRun) :
    ∃ r, run.recoverVerifiedEntries = .ok r ∧
      ∀ x ∈ r.entries, ∃ entry ∈ (parseZip run.data).entries,
        run.Emits (parseZip run.data) entry x := by
  obtain ⟨s, hs, hmem⟩ := run.foldlM_step_collect (parseZip run.data)
    ((parseZip run.data).entries.take run.limits.maxEntries) { sink := [] }
  have hrun : ∃ r, run.recoverVerifiedEntries = .ok r ∧ r.entries = s.sink := by
    unfold recoverVerifiedEntries recoverVerifiedEntriesTo
    simp only [hs, bind, Except.bind]
    exact ⟨_, rfl, rfl⟩
  obtain ⟨r, hr, hsink⟩ := hrun
  refine ⟨r, hr, fun x hx ↦ ?_⟩
  rcases hmem x (hsink ▸ hx) with hx | ⟨e, he, hem⟩
  · simp at hx
  · exact ⟨e, List.mem_of_mem_take he, hem⟩

end RecoveryRun

end VeraqisRecover.Zip
