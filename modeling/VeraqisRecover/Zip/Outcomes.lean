import VeraqisRecover.Zip.Emission
import VeraqisRecover.Zip.SafePath

/-!
# One outcome for each parsed entry

What becomes of an entry depends on the bytes handed out and the paths taken
before it, never on the caller's sink.  The run is therefore a list of
outcomes, one for each parsed entry in order, whose emitted entries are handed
to the sink one by one.
-/

namespace VeraqisRecover.Zip

open ByteString LossyUtf8

/-- An entry is skipped for a reason or emitted. -/
inductive Outcome
  | skipped (x : MobileZipSkipped)
  | emitted (x : MobileZipEntry)
  deriving DecidableEq, Repr

namespace Outcome

def entry? : Outcome → Option MobileZipEntry
  | skipped _ => none
  | emitted x => some x

def skip? : Outcome → Option MobileZipSkipped
  | skipped x => some x
  | emitted _ => none

end Outcome

def emittedOf (outcomes : List Outcome) : List MobileZipEntry := outcomes.filterMap Outcome.entry?

def skippedOf (outcomes : List Outcome) : List MobileZipSkipped :=
  outcomes.filterMap Outcome.skip?

@[simp] theorem emittedOf_nil : emittedOf [] = [] := rfl

@[simp] theorem emittedOf_skipped (x : MobileZipSkipped) (outcomes : List Outcome) :
    emittedOf (.skipped x :: outcomes) = emittedOf outcomes := rfl

@[simp] theorem emittedOf_emitted (x : MobileZipEntry) (outcomes : List Outcome) :
    emittedOf (.emitted x :: outcomes) = x :: emittedOf outcomes := rfl

@[simp] theorem skippedOf_nil : skippedOf [] = [] := rfl

@[simp] theorem skippedOf_skipped (x : MobileZipSkipped) (outcomes : List Outcome) :
    skippedOf (.skipped x :: outcomes) = x :: skippedOf outcomes := rfl

@[simp] theorem skippedOf_emitted (x : MobileZipEntry) (outcomes : List Outcome) :
    skippedOf (.emitted x :: outcomes) = skippedOf outcomes := rfl

def emittedBytes (outcomes : List Outcome) : ℕ :=
  ((emittedOf outcomes).map (·.bytes.length)).sum

def MobileZipEntry.summary (x : MobileZipEntry) : MobileZipEntrySummary :=
  ⟨x.safePath, x.bytes.length, x.crc32, x.verdict⟩

/-- Bytes handed out and paths taken so far. -/
structure Ledger where
  total : ℕ := 0
  names : List Text := []

namespace RecoveryRun

/-- The path an entry competes for, when it gets as far as competing for one. -/
def pathOf (run : RecoveryRun) (entry : ZipEntry) : Except String Text :=
  if ¬ entry.nameValidUtf8 then .error "invalid_utf8_path"
  else if entry.name.getLast? = some '/' ∨ entry.name.getLast? = some '\\' then
    .error "directory"
  else
    match safeRelativePath entry.name run.limits.maxPathBytes run.limits.maxDepth with
    | none => .error "unsafe_path"
    | some safePath => .ok safePath

/-- What becomes of an entry, and the ledger after it. -/
def judge (run : RecoveryRun) (parsed : ZipParse) (l : Ledger) (entry : ZipEntry) :
    Outcome × Ledger :=
  match run.pathOf entry with
  | .error reason => (.skipped (.new entry.name reason), l)
  | .ok safePath =>
      if run.toLowercase safePath ∈ l.names then
        (.skipped (.new entry.name "duplicate_path"), l)
      else
        let names := l.names ++ [run.toLowercase safePath]
        match run.verify parsed l.total safePath entry with
        | .error reason => (.skipped (.new entry.name reason), { l with names })
        | .ok x => (.emitted x, ⟨l.total + x.bytes.length, names⟩)

def judgeAll (run : RecoveryRun) (parsed : ZipParse) : Ledger → List ZipEntry → List Outcome
  | _, [] => []
  | l, entry :: rest => (run.judge parsed l entry).1 :: judgeAll run parsed
      (run.judge parsed l entry).2 rest

variable {run : RecoveryRun} {parsed : ZipParse} {σ : Type}

/-- One step of the loop hands over what the ledger decides. -/
theorem step_eq_judge (emit : σ → MobileZipEntry → Except String σ) (s : LoopState σ)
    (entry : ZipEntry) :
    run.step emit parsed s entry =
      match run.judge parsed ⟨s.total, s.names⟩ entry with
      | (.skipped x, l) =>
          .ok { s with skipped := s.skipped ++ [x], total := l.total, names := l.names }
      | (.emitted x, l) => (emit s.sink x).map fun sink ↦
          { s with
            sink
            total := l.total
            names := l.names
            recovered := s.recovered ++ [x.summary] } := by
  unfold step judge pathOf
  split
  · rfl
  · split
    · rfl
    · cases safeRelativePath entry.name run.limits.maxPathBytes run.limits.maxDepth with
      | none => rfl
      | some safePath =>
          dsimp only
          split
          · rfl
          · cases run.verify parsed s.total safePath entry with
            | error reason => rfl
            | ok x =>
                dsimp only
                cases emit s.sink x with
                | error reason => rfl
                | ok sink => rfl

/-- The loop hands the emitted entries to the sink in order, and stops where the sink does. -/
theorem foldlM_step_eq (emit : σ → MobileZipEntry → Except String σ) (entries : List ZipEntry)
    (s : LoopState σ) :
    (entries.foldlM (run.step emit parsed) s).map (fun t ↦ (t.sink, t.recovered, t.skipped)) =
      let outcomes := run.judgeAll parsed ⟨s.total, s.names⟩ entries
      ((emittedOf outcomes).foldlM emit s.sink).map fun sink ↦
        (sink, s.recovered ++ (emittedOf outcomes).map MobileZipEntry.summary,
          s.skipped ++ skippedOf outcomes) := by
  induction entries generalizing s with
  | nil => simp [judgeAll, Except.map, pure, Except.pure]
  | cons entry entries ih =>
      rw [List.foldlM_cons, step_eq_judge]
      dsimp only [judgeAll]
      rcases run.judge parsed ⟨s.total, s.names⟩ entry with ⟨x | x, total, names⟩
      · have hrest := ih { s with skipped := s.skipped ++ [x], total, names }
        simpa [bind, Except.bind] using hrest
      · dsimp only
        rw [emittedOf_emitted, List.foldlM_cons]
        cases emit s.sink x with
        | error reason => rfl
        | ok sink =>
            have hrest := ih { s with
              sink, total, names, recovered := s.recovered ++ [x.summary] }
            simpa [bind, Except.bind, Except.map] using hrest

/-! ## The whole run -/

def outcomes (run : RecoveryRun) : List Outcome :=
  run.judgeAll (parseZip run.data) {} ((parseZip run.data).entries.take run.limits.maxEntries)

/-- What the run reports when the sink takes everything. -/
def summary (run : RecoveryRun) : MobileZipRecoverySummary :=
  let parsed := parseZip run.data
  { usedLocalScan := parsed.usedLocalScan
    centralDirectoryFound := parsed.cdFound
    entriesSeen := parsed.entries.length
    entries := (emittedOf run.outcomes).map MobileZipEntry.summary
    skipped := skippedOf run.outcomes ++ if run.limits.maxEntries < parsed.entries.length then
      [.new [] "entry_count_limit"] else []
    warnings := parsed.warnings }

theorem recoverVerifiedEntriesTo_eq (run : RecoveryRun)
    (emit : σ → MobileZipEntry → Except String σ) (sink : σ) :
    run.recoverVerifiedEntriesTo emit sink =
      ((emittedOf run.outcomes).foldlM emit sink).map fun sink ↦ (sink, run.summary) := by
  have hloop : (((parseZip run.data).entries.take run.limits.maxEntries).foldlM
      (run.step emit (parseZip run.data)) { sink }).map
        (fun t ↦ (t.sink, t.recovered, t.skipped)) =
      ((emittedOf run.outcomes).foldlM emit sink).map fun t ↦
        (t, (emittedOf run.outcomes).map MobileZipEntry.summary, skippedOf run.outcomes) :=
    foldlM_step_eq emit _ _
  have hresult : run.recoverVerifiedEntriesTo emit sink =
      ((((parseZip run.data).entries.take run.limits.maxEntries).foldlM
        (run.step emit (parseZip run.data)) { sink }).map
          fun t ↦ (t.sink, t.recovered, t.skipped)).map fun r ↦
        (r.1, { run.summary with
          entries := r.2.1
          skipped := r.2.2 ++ if run.limits.maxEntries < (parseZip run.data).entries.length then
            [.new [] "entry_count_limit"] else [] }) := by
    unfold recoverVerifiedEntriesTo
    dsimp only
    cases ((parseZip run.data).entries.take run.limits.maxEntries).foldlM
        (run.step emit (parseZip run.data)) { sink } with
    | error reason => rfl
    | ok s => rfl
  rw [hresult, hloop]
  cases (emittedOf run.outcomes).foldlM emit sink with
  | error reason => rfl
  | ok t => rfl

/-! ## What each outcome says -/

/-- What an emitted entry rests on. -/
structure EmittedFrom (run : RecoveryRun) (parsed : ZipParse) (entry : ZipEntry)
    (x : MobileZipEntry) : Prop extends Emits run parsed entry x where
  nonempty : x.bytes ≠ [] ∨ run.cdProvenance.entryIsAttested entry.fromCentralDir = true
  listed : parsed.cdCountConsistent = true → run.cdProvenance.attestsExistence = true →
    entry.fromCentralDir = true
  size : x.bytes.length ≤ run.limits.maxEntryBytes

/-- The outcome speaks about this entry. -/
def Judged (run : RecoveryRun) (parsed : ZipParse) (entry : ZipEntry) : Outcome → Prop
  | .skipped x => x.name = entry.name
  | .emitted x => EmittedFrom run parsed entry x

theorem emittedFrom_of_verify {total : ℕ} {safePath : Text} {entry : ZipEntry}
    {x : MobileZipEntry}
    (hpath : safeRelativePath entry.name run.limits.maxPathBytes run.limits.maxDepth =
      some safePath)
    (h : run.verify parsed total safePath entry = .ok x) :
    EmittedFrom run parsed entry x ∧ x.safePath = safePath ∧
      total + x.bytes.length ≤ run.limits.maxTotalBytes := by
  have hemits := emits_of_verify hpath h
  unfold verify at h
  dsimp only at h
  split at h
  · simp at h
  · split at h
    · simp at h
    · split at h
      · simp at h
      · split at h
        · simp at h
        · rename_i hempty
          split at h
          · simp at h
          · rename_i hlimit
            obtain rfl := Except.ok.inj h
            simp only [not_or, not_lt, Option.all_eq_true, not_forall] at hlimit
            obtain ⟨hsize, next, hnext, hle⟩ := hlimit
            obtain ⟨-, rfl⟩ := checkedAdd_eq_some.mp hnext
            refine ⟨⟨hemits, ?_, fun hcount hattest ↦ ?_, hsize⟩, rfl, by simpa using hle⟩
            · rw [not_and_or, Bool.not_eq_false] at hempty
              exact hempty
            · rcases hemits.attested with ha | ha
              · exact (Bool.and_eq_true _ _ ▸ ha).1
              · simp [directoryEnumeratesArchive, hcount, hattest] at ha

theorem pathOf_eq_ok {entry : ZipEntry} {p : Text} (h : run.pathOf entry = .ok p) :
    safeRelativePath entry.name run.limits.maxPathBytes run.limits.maxDepth = some p := by
  unfold pathOf at h
  split at h
  · simp at h
  · split at h
    · simp at h
    · split at h
      · simp at h
      · rename_i hp
        rw [hp, Except.ok.inj h]

/-- An emitted entry takes a path of its own and adds its bytes. -/
theorem judge_emitted {l l' : Ledger} {entry : ZipEntry} {x : MobileZipEntry}
    (h : run.judge parsed l entry = (.emitted x, l')) :
    EmittedFrom run parsed entry x ∧ run.pathOf entry = .ok x.safePath ∧
      run.toLowercase x.safePath ∉ l.names ∧ l'.total = l.total + x.bytes.length ∧
      l'.names = l.names ++ [run.toLowercase x.safePath] ∧
      l'.total ≤ run.limits.maxTotalBytes := by
  unfold judge at h
  split at h
  · simp at h
  · rename_i safePath hpath
    split at h
    · simp at h
    · rename_i hfresh
      dsimp only at h
      split at h
      · simp at h
      · rename_i y hy
        obtain ⟨hx, rfl⟩ := Prod.mk.inj h
        obtain rfl := Outcome.emitted.inj hx
        obtain ⟨hfrom, rfl, htotal⟩ := emittedFrom_of_verify (pathOf_eq_ok hpath) hy
        exact ⟨hfrom, hpath, hfresh, rfl, rfl, htotal⟩

/-- A skipped entry is named, hands out nothing and frees no path. -/
theorem judge_skipped {l l' : Ledger} {entry : ZipEntry} {x : MobileZipSkipped}
    (h : run.judge parsed l entry = (.skipped x, l')) :
    x.name = entry.name ∧ l'.total = l.total ∧ ∀ n ∈ l.names, n ∈ l'.names := by
  unfold judge at h
  split at h
  · obtain ⟨hx, rfl⟩ := Prod.mk.inj h
    obtain rfl := Outcome.skipped.inj hx
    exact ⟨rfl, rfl, fun _ hn ↦ hn⟩
  · split at h
    · obtain ⟨hx, rfl⟩ := Prod.mk.inj h
      obtain rfl := Outcome.skipped.inj hx
      exact ⟨rfl, rfl, fun _ hn ↦ hn⟩
    · dsimp only at h
      split at h
      · obtain ⟨hx, rfl⟩ := Prod.mk.inj h
        obtain rfl := Outcome.skipped.inj hx
        exact ⟨rfl, rfl, fun _ hn ↦ List.mem_append_left _ hn⟩
      · simp at h

/-- What a stretch of outcomes keeps, from the ledger it starts with. -/
theorem judgeAll_keeps (l : Ledger) (hl : l.total ≤ run.limits.maxTotalBytes)
    (entries : List ZipEntry) :
    List.Forall₂ (run.Judged parsed) entries (run.judgeAll parsed l entries) ∧
      (∀ x ∈ emittedOf (run.judgeAll parsed l entries), run.toLowercase x.safePath ∉ l.names) ∧
      (emittedOf (run.judgeAll parsed l entries)).Pairwise
        (fun x y ↦ run.toLowercase x.safePath ≠ run.toLowercase y.safePath) ∧
      l.total + emittedBytes (run.judgeAll parsed l entries) ≤ run.limits.maxTotalBytes := by
  induction entries generalizing l with
  | nil => simpa [judgeAll, emittedBytes] using hl
  | cons entry entries ih =>
      rw [judgeAll]
      rcases hjudge : run.judge parsed l entry with ⟨x | x, l'⟩
      · obtain ⟨hname, htotal, hnames⟩ := judge_skipped hjudge
        obtain ⟨hall, hfresh, hdistinct, hsum⟩ := ih l' (htotal ▸ hl)
        refine ⟨.cons hname hall, fun y hy hmem ↦ hfresh y hy (hnames _ hmem), hdistinct, ?_⟩
        rw [← htotal]
        exact hsum
      · obtain ⟨hfrom, -, hnew, htotal, hnames, hle⟩ := judge_emitted hjudge
        obtain ⟨hall, hfresh, hdistinct, hsum⟩ := ih l' hle
        have hlater : ∀ y ∈ emittedOf (run.judgeAll parsed l' entries),
            run.toLowercase y.safePath ∉ l.names ∧
              run.toLowercase x.safePath ≠ run.toLowercase y.safePath := by
          intro y hy
          have hy' := hfresh y hy
          rw [hnames, List.mem_append, not_or, List.mem_singleton] at hy'
          exact ⟨hy'.1, fun heq ↦ hy'.2 heq.symm⟩
        refine ⟨.cons hfrom hall, fun y hy ↦ ?_, ?_, ?_⟩
        · rw [emittedOf_emitted] at hy
          rcases List.mem_cons.mp hy with rfl | hy
          · exact hnew
          · exact (hlater y hy).1
        · exact List.pairwise_cons.mpr ⟨fun y hy ↦ (hlater y hy).2, hdistinct⟩
        · rw [htotal] at hsum
          simpa [emittedBytes, Nat.add_assoc] using hsum

/-- What a caller that writes the emitted entries to disk relies on. -/
structure EmissionContract (run : RecoveryRun) (outcomes : List Outcome) : Prop where
  inOrder : List.Forall₂ (run.Judged (parseZip run.data))
    ((parseZip run.data).entries.take run.limits.maxEntries) outcomes
  safe : ∀ x ∈ emittedOf outcomes, SafePath run.limits x.safePath
  distinct : (emittedOf outcomes).Pairwise fun x y ↦
    run.toLowercase x.safePath ≠ run.toLowercase y.safePath
  total : emittedBytes outcomes ≤ run.limits.maxTotalBytes

theorem exists_judged_of_mem_emittedOf {entries : List ZipEntry} {outcomes : List Outcome}
    (h : List.Forall₂ (run.Judged parsed) entries outcomes) {x : MobileZipEntry}
    (hx : x ∈ emittedOf outcomes) : ∃ entry ∈ entries, EmittedFrom run parsed entry x := by
  induction h with
  | nil => simp at hx
  | @cons entry o entries outcomes hjudged hrest ih =>
      cases o with
      | skipped y =>
          obtain ⟨e, he, hfrom⟩ := ih hx
          exact ⟨e, List.mem_cons_of_mem entry he, hfrom⟩
      | emitted y =>
          rw [emittedOf_emitted] at hx
          rcases List.mem_cons.mp hx with rfl | hx
          · exact ⟨entry, List.mem_cons_self, hjudged⟩
          · obtain ⟨e, he, hfrom⟩ := ih hx
            exact ⟨e, List.mem_cons_of_mem entry he, hfrom⟩

/-- Every run hands its sink, in parse order and up to where the sink fails, entries that keep the
contract, and accounts for each parsed entry once. -/
theorem recoverVerifiedEntriesTo_contract (run : RecoveryRun) :
    ∃ outcomes, EmissionContract run outcomes ∧
      ∀ (σ : Type) (emit : σ → MobileZipEntry → Except String σ) (sink : σ),
        run.recoverVerifiedEntriesTo emit sink =
          ((emittedOf outcomes).foldlM emit sink).map fun sink ↦
            (sink,
              { usedLocalScan := (parseZip run.data).usedLocalScan
                centralDirectoryFound := (parseZip run.data).cdFound
                entriesSeen := (parseZip run.data).entries.length
                entries := (emittedOf outcomes).map MobileZipEntry.summary
                skipped := skippedOf outcomes ++
                  if run.limits.maxEntries < (parseZip run.data).entries.length then
                    [.new [] "entry_count_limit"] else []
                warnings := (parseZip run.data).warnings }) := by
  obtain ⟨hall, -, hdistinct, htotal⟩ := @judgeAll_keeps run (parseZip run.data) {}
    (Nat.zero_le _) ((parseZip run.data).entries.take run.limits.maxEntries)
  refine ⟨run.outcomes,
    ⟨hall, fun x hx ↦ ?_, hdistinct, le_of_eq_of_le (Nat.zero_add _).symm htotal⟩,
    fun σ emit sink ↦ recoverVerifiedEntriesTo_eq run emit sink⟩
  obtain ⟨entry, -, hfrom⟩ := exists_judged_of_mem_emittedOf hall hx
  exact safeRelativePath_safe hfrom.path

end RecoveryRun

end VeraqisRecover.Zip
