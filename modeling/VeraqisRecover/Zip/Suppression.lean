import VeraqisRecover.Zip.Outcomes
import VeraqisRecover.Zip.StoredCodec
import VeraqisRecover.Zip.Build

/-!
# Which entry of a path is recovered

An entry takes its path before its bytes are checked, so only the first parsed
entry of a path is ever extracted.  A recoverable entry is lost exactly when
an entry of the same path comes before it and fails.
-/

namespace VeraqisRecover.Zip

open ByteString LossyUtf8

namespace RecoveryRun

variable {run : RecoveryRun} {parsed : ZipParse}

/-- What the run would emit for this entry were it the only parsed one. -/
def emitsAlone (run : RecoveryRun) (parsed : ZipParse) (entry : ZipEntry) :
    Option MobileZipEntry :=
  match [entry].foldlM (run.step collect { parsed with entries := [entry] }) { sink := [] } with
  | .ok s => s.sink.head?
  | .error _ => none

/-- The path, without regard to case, that an entry competes for. -/
def keyOf (run : RecoveryRun) (entry : ZipEntry) : Option Text :=
  (run.pathOf entry).toOption.map run.toLowercase

/-! ## Verification does not depend on what came before -/

theorem all_checkedAdd_iff {a b max : ℕ} :
    (checkedAdd a b).all (max < ·) = true ↔ ¬ (a + b ≤ wordMax ∧ a + b ≤ max) := by
  unfold checkedAdd
  split
  · rename_i h
    simp [h]
  · rename_i h
    simp [h]

theorem verify_eq_ok_iff {total : ℕ} {p : Text} {entry : ZipEntry} {x : MobileZipEntry} :
    run.verify parsed total p entry = .ok x ↔
      run.verify parsed 0 p entry = .ok x ∧ total + x.bytes.length ≤ wordMax ∧
        total + x.bytes.length ≤ run.limits.maxTotalBytes := by
  unfold verify
  dsimp only
  simp only [all_checkedAdd_iff]
  split_ifs with huncomp hstatus hattest hempty htotal hfirst hfirst
  · simp
  · simp
  · simp
  · simp
  · simp
  · -- alone it fits, after `total` bytes it does not
    simp only [false_iff, not_and]
    rintro hx hword hmax
    obtain rfl := Except.ok.inj hx
    rcases htotal with htotal | htotal
    · exact hfirst (.inl htotal)
    · exact htotal ⟨hword, hmax⟩
  · exact absurd hfirst (by
      simp only [not_or, not_not] at htotal ⊢
      exact ⟨htotal.1, by omega, by omega⟩)
  · simp only [not_or, not_not] at htotal
    constructor
    · intro hx
      obtain rfl := Except.ok.inj hx
      exact ⟨rfl, htotal.2⟩
    · exact fun hx ↦ hx.1

theorem emitsAlone_eq_some_iff {entry : ZipEntry} {x : MobileZipEntry} :
    run.emitsAlone parsed entry = some x ↔
      ∃ p, run.pathOf entry = .ok p ∧ run.verify parsed 0 p entry = .ok x := by
  have hstep := @step_eq_judge run { parsed with entries := [entry] } _ collect
    { sink := [] } entry
  have hverify : ∀ p, run.verify { parsed with entries := [entry] } 0 p entry =
      run.verify parsed 0 p entry := fun _ ↦ rfl
  unfold emitsAlone
  rw [List.foldlM_cons, hstep]
  unfold judge
  cases hpath : run.pathOf entry with
  | error reason => simp [bind, Except.bind, pure, Except.pure]
  | ok p =>
      dsimp only
      rw [if_neg List.not_mem_nil, hverify p]
      cases hv : run.verify parsed 0 p entry with
      | error reason => simp [bind, Except.bind, pure, Except.pure, hv]
      | ok y => simp [bind, Except.bind, pure, Except.pure, Except.map, collect, hv]

/-! ## The ledger along a run -/

/-- The ledger after a stretch of entries. -/
def ledgerAfter (run : RecoveryRun) (parsed : ZipParse) (l : Ledger) (entries : List ZipEntry) :
    Ledger :=
  entries.foldl (fun l entry ↦ (run.judge parsed l entry).2) l

theorem judgeAll_append (l : Ledger) (pre rest : List ZipEntry) :
    run.judgeAll parsed l (pre ++ rest) =
      run.judgeAll parsed l pre ++ run.judgeAll parsed (run.ledgerAfter parsed l pre) rest := by
  induction pre generalizing l with
  | nil => rfl
  | cons entry pre ih =>
      rw [List.cons_append, judgeAll, judgeAll, ih]
      rfl

theorem exists_of_mem_judgeAll {l : Ledger} {entries : List ZipEntry} {o : Outcome}
    (h : o ∈ run.judgeAll parsed l entries) : ∃ pre entry rest, entries = pre ++ entry :: rest ∧
      o = (run.judge parsed (run.ledgerAfter parsed l pre) entry).1 := by
  induction entries generalizing l with
  | nil => simp [judgeAll] at h
  | cons entry entries ih =>
      rw [judgeAll] at h
      rcases List.mem_cons.mp h with rfl | h
      · exact ⟨[], entry, entries, rfl, rfl⟩
      · obtain ⟨pre, e, rest, rfl, ho⟩ := ih h
        exact ⟨entry :: pre, e, rest, rfl, ho⟩

theorem mem_judgeAll (l : Ledger) (pre : List ZipEntry) (entry : ZipEntry) (rest : List ZipEntry) :
    (run.judge parsed (run.ledgerAfter parsed l pre) entry).1 ∈
      run.judgeAll parsed l (pre ++ entry :: rest) := by
  rw [judgeAll_append, judgeAll]
  exact List.mem_append_right _ List.mem_cons_self

/-- An entry takes the path it competes for, whatever becomes of it. -/
theorem mem_names_judge {l : Ledger} {entry : ZipEntry} {k : Text} :
    k ∈ (run.judge parsed l entry).2.names ↔ k ∈ l.names ∨ run.keyOf entry = some k := by
  unfold judge keyOf
  cases run.pathOf entry with
  | error reason => simp [Except.toOption]
  | ok p =>
      dsimp only [Except.toOption, Option.map_some]
      split
      · rename_i hmem
        constructor
        · exact .inl
        · rintro (hk | hk)
          · exact hk
          · rwa [← Option.some.inj hk]
      · cases run.verify parsed l.total p entry with
        | error reason => simp [eq_comm]
        | ok x => simp [eq_comm]

theorem mem_names_ledgerAfter {l : Ledger} {entries : List ZipEntry} {k : Text} :
    k ∈ (run.ledgerAfter parsed l entries).names ↔
      k ∈ l.names ∨ ∃ entry ∈ entries, run.keyOf entry = some k := by
  induction entries generalizing l with
  | nil => simp [ledgerAfter]
  | cons entry entries ih =>
      have htail := ih (l := (run.judge parsed l entry).2)
      rw [mem_names_judge] at htail
      refine htail.trans ?_
      simp [or_assoc]

theorem bytes_of_verify {total : ℕ} {p : Text} {entry : ZipEntry} {x : MobileZipEntry}
    (hp : run.pathOf entry = .ok p) (h : run.verify parsed total p entry = .ok x) :
    x.bytes = (extractEntry run.fl run.data entry).bytes :=
  (emits_of_verify (pathOf_eq_ok hp) h).bytes

/-- The length of what an entry extracts to. -/
def extractedLength (run : RecoveryRun) (entry : ZipEntry) : ℕ :=
  (extractEntry run.fl run.data entry).bytes.length

theorem total_judge_le (l : Ledger) (entry : ZipEntry) :
    (run.judge parsed l entry).2.total ≤ l.total + run.extractedLength entry := by
  unfold judge
  cases hp : run.pathOf entry with
  | error reason => simp
  | ok p =>
      dsimp only
      split
      · simp
      · cases hv : run.verify parsed l.total p entry with
        | error reason => simp
        | ok x =>
            dsimp only
            rw [bytes_of_verify hp hv]
            exact le_rfl

theorem total_ledgerAfter_le (l : Ledger) (entries : List ZipEntry) :
    (run.ledgerAfter parsed l entries).total ≤
      l.total + (entries.map run.extractedLength).sum := by
  induction entries generalizing l with
  | nil => simp [ledgerAfter]
  | cons entry entries ih =>
      have htail := ih (run.judge parsed l entry).2
      have hhead := @total_judge_le run parsed l entry
      rw [List.map_cons, List.sum_cons]
      exact htail.trans (by omega)

/-! ## Who is emitted and who is dropped as a duplicate -/

/-- Every parsed entry is looked at, and all they extract to fits the total. -/
structure LimitsNotReached (run : RecoveryRun) : Prop where
  count : (parseZip run.data).entries.length ≤ run.limits.maxEntries
  total : ((parseZip run.data).entries.map run.extractedLength).sum ≤ run.limits.maxTotalBytes
  word : run.limits.maxTotalBytes ≤ wordMax

theorem outcomes_eq (h : run.LimitsNotReached) :
    run.outcomes = run.judgeAll (parseZip run.data) {} (parseZip run.data).entries := by
  unfold outcomes
  rw [List.take_of_length_le h.count]

theorem mem_emittedOf {outcomes : List Outcome} {x : MobileZipEntry} :
    x ∈ emittedOf outcomes ↔ .emitted x ∈ outcomes := by
  unfold emittedOf
  rw [List.mem_filterMap]
  constructor
  · rintro ⟨o, ho, hx⟩
    cases o with
    | skipped y => simp [Outcome.entry?] at hx
    | emitted y => rwa [← Option.some.inj hx]
  · exact fun hx ↦ ⟨_, hx, rfl⟩

theorem mem_skippedOf {outcomes : List Outcome} {x : MobileZipSkipped} :
    x ∈ skippedOf outcomes ↔ .skipped x ∈ outcomes := by
  unfold skippedOf
  rw [List.mem_filterMap]
  constructor
  · rintro ⟨o, ho, hx⟩
    cases o with
    | skipped y => rwa [← Option.some.inj hx]
    | emitted y => simp [Outcome.skip?] at hx
  · exact fun hx ↦ ⟨_, hx, rfl⟩

theorem keyOf_of_pathOf {entry : ZipEntry} {p : Text} (h : run.pathOf entry = .ok p) :
    run.keyOf entry = some (run.toLowercase p) := by
  simp [keyOf, h, Except.toOption]

theorem exists_pathOf_of_keyOf {entry : ZipEntry} {k : Text} (h : run.keyOf entry = some k) :
    ∃ p, run.pathOf entry = .ok p ∧ run.toLowercase p = k := by
  unfold keyOf at h
  cases hp : run.pathOf entry with
  | error reason => simp [hp, Except.toOption] at h
  | ok p => exact ⟨p, rfl, by simpa [hp, Except.toOption] using h⟩

theorem emitsAlone_key {entry : ZipEntry} {x : MobileZipEntry}
    (h : run.emitsAlone parsed entry = some x) :
    run.keyOf entry = some (run.toLowercase x.safePath) ∧
      x.bytes.length = run.extractedLength entry := by
  obtain ⟨p, hp, hv⟩ := emitsAlone_eq_some_iff.mp h
  have hpath := (emits_of_verify (pathOf_eq_ok hp) hv).path
  obtain rfl := Option.some.inj ((pathOf_eq_ok hp).symm.trans hpath)
  exact ⟨keyOf_of_pathOf hp, by rw [bytes_of_verify hp hv, extractedLength]⟩

/-- The first entry of a path that is recoverable by itself is emitted. -/
theorem emitted_of_first (h : run.LimitsNotReached) {pre rest : List ZipEntry} {entry : ZipEntry}
    {x : MobileZipEntry} (hentries : (parseZip run.data).entries = pre ++ entry :: rest)
    (halone : run.emitsAlone (parseZip run.data) entry = some x)
    (hfirst : ∀ d ∈ pre, run.keyOf d ≠ run.keyOf entry) : x ∈ emittedOf run.outcomes := by
  obtain ⟨hkey, hlen⟩ := emitsAlone_key halone
  obtain ⟨p, hp, hv⟩ := emitsAlone_eq_some_iff.mp halone
  have hsum := h.total
  have hword := h.word
  have htotal := (@total_ledgerAfter_le run (parseZip run.data) {} pre).trans_eq
    (Nat.zero_add _)
  rw [hentries, List.map_append, List.map_cons, List.sum_append, List.sum_cons] at hsum
  have hfresh : run.toLowercase p ∉ (run.ledgerAfter (parseZip run.data) {} pre).names := by
    rw [mem_names_ledgerAfter]
    rintro (hmem | ⟨d, hd, hdk⟩)
    · simp at hmem
    · exact hfirst d hd (hdk.trans (keyOf_of_pathOf hp).symm)
  have hjudge : (run.judge (parseZip run.data) (run.ledgerAfter (parseZip run.data) {} pre)
      entry).1 = .emitted x := by
    have hlater := verify_eq_ok_iff.mpr
      (⟨hv, by omega, by omega⟩ : _ ∧ (run.ledgerAfter (parseZip run.data) {} pre).total +
        x.bytes.length ≤ wordMax ∧ _)
    unfold judge
    rw [hp]
    dsimp only
    rw [if_neg hfresh, hlater]
  rw [mem_emittedOf, outcomes_eq h, hentries, ← hjudge]
  exact mem_judgeAll {} pre entry rest

/-- What is emitted is the first parsed entry of its path, and recoverable by itself. -/
theorem first_of_emitted (h : run.LimitsNotReached) {y : MobileZipEntry}
    (hy : y ∈ emittedOf run.outcomes) :
    ∃ pre entry rest, (parseZip run.data).entries = pre ++ entry :: rest ∧
      run.emitsAlone (parseZip run.data) entry = some y ∧
      run.keyOf entry = some (run.toLowercase y.safePath) ∧
      ∀ d ∈ pre, run.keyOf d ≠ some (run.toLowercase y.safePath) := by
  rw [mem_emittedOf, outcomes_eq h] at hy
  obtain ⟨pre, entry, rest, hentries, hjudge⟩ := exists_of_mem_judgeAll hy
  refine ⟨pre, entry, rest, hentries, ?_⟩
  have hpair : run.judge (parseZip run.data) (run.ledgerAfter (parseZip run.data) {} pre) entry =
      (.emitted y, (run.judge (parseZip run.data)
        (run.ledgerAfter (parseZip run.data) {} pre) entry).2) := Prod.ext hjudge.symm rfl
  obtain ⟨-, hp, hnew, -⟩ := judge_emitted hpair
  have hv : run.verify (parseZip run.data) (run.ledgerAfter (parseZip run.data) {} pre).total
      y.safePath entry = .ok y := by
    unfold judge at hjudge
    rw [hp] at hjudge
    dsimp only at hjudge
    rw [if_neg hnew] at hjudge
    split at hjudge
    · simp at hjudge
    · rename_i z hz
      rw [hz, Outcome.emitted.inj hjudge]
  refine ⟨emitsAlone_eq_some_iff.mpr ⟨_, hp, (verify_eq_ok_iff.mp hv).1⟩, keyOf_of_pathOf hp,
    fun d hd hdk ↦ hnew ?_⟩
  exact mem_names_ledgerAfter.mpr (.inr ⟨d, hd, hdk⟩)

theorem skipped_of_later (h : run.LimitsNotReached) {pre rest : List ZipEntry}
    {entry d : ZipEntry} {k : Text}
    (hentries : (parseZip run.data).entries = pre ++ entry :: rest) (hd : d ∈ pre)
    (hdk : run.keyOf d = some k) (hk : run.keyOf entry = some k) :
    .new entry.name "duplicate_path" ∈ skippedOf run.outcomes := by
  obtain ⟨p, hp, rfl⟩ := exists_pathOf_of_keyOf hk
  have htaken : run.toLowercase p ∈ (run.ledgerAfter (parseZip run.data) {} pre).names :=
    mem_names_ledgerAfter.mpr (.inr ⟨d, hd, hdk⟩)
  have hjudge : (run.judge (parseZip run.data) (run.ledgerAfter (parseZip run.data) {} pre)
      entry).1 = .skipped (.new entry.name "duplicate_path") := by
    unfold judge
    rw [hp]
    dsimp only
    rw [if_pos htaken]
  rw [mem_skippedOf, outcomes_eq h, hentries, ← hjudge]
  exact mem_judgeAll {} pre entry rest

theorem pathOf_ne_duplicate {entry : ZipEntry} {reason : String}
    (h : run.pathOf entry = .error reason) : reason ≠ "duplicate_path" := by
  unfold pathOf at h
  split at h
  · rw [← Except.error.inj h]
    decide
  · split at h
    · rw [← Except.error.inj h]
      decide
    · split at h
      · rw [← Except.error.inj h]
        decide
      · simp at h

theorem statusReason_ne_duplicate (s : ExtractStatus) : statusReason s ≠ "duplicate_path" := by
  cases s <;> simp [statusReason]

theorem verify_ne_duplicate {total : ℕ} {p : Text} {entry : ZipEntry} {reason : String}
    (h : run.verify parsed total p entry = .error reason) : reason ≠ "duplicate_path" := by
  unfold verify at h
  dsimp only at h
  split at h
  · rw [← Except.error.inj h]
    decide
  · split at h
    · rw [← Except.error.inj h]
      exact statusReason_ne_duplicate _
    · split at h
      · rw [← Except.error.inj h]
        decide
      · split at h
        · rw [← Except.error.inj h]
          decide
        · split at h
          · rw [← Except.error.inj h]
            decide
          · simp at h

/-- An entry reported as a duplicate comes after another of its path. -/
theorem later_of_skipped (h : run.LimitsNotReached) {s : MobileZipSkipped}
    (hs : s ∈ skippedOf run.outcomes) (hreason : s.reason = "duplicate_path") :
    ∃ pre entry rest, (parseZip run.data).entries = pre ++ entry :: rest ∧
      s.name = entry.name ∧ ∃ p, run.pathOf entry = .ok p ∧
        ∃ d ∈ pre, run.keyOf d = some (run.toLowercase p) := by
  rw [mem_skippedOf, outcomes_eq h] at hs
  obtain ⟨pre, entry, rest, hentries, hjudge⟩ := exists_of_mem_judgeAll hs
  refine ⟨pre, entry, rest, hentries, ?_⟩
  unfold judge at hjudge
  cases hp : run.pathOf entry with
  | error reason =>
      rw [hp] at hjudge
      rw [Outcome.skipped.inj hjudge] at hreason
      exact absurd hreason (pathOf_ne_duplicate hp)
  | ok p =>
      rw [hp] at hjudge
      dsimp only at hjudge
      split at hjudge
      · rename_i htaken
        rw [Outcome.skipped.inj hjudge]
        refine ⟨rfl, p, rfl, ?_⟩
        rcases mem_names_ledgerAfter.mp htaken with hmem | hd
        · simp at hmem
        · exact hd
      · split at hjudge
        · rename_i reason hv
          rw [Outcome.skipped.inj hjudge] at hreason
          exact absurd hreason (verify_ne_duplicate hv)
        · simp at hjudge

/-! ## Suppression -/

/-- Every entry recoverable by itself leaves an emitted entry of its path, and an entry is dropped
as a duplicate only of an emitted one. -/
structure KeepsRecoverable (run : RecoveryRun) (r : MobileZipRecovery) : Prop where
  recovered : ∀ entry ∈ (parseZip run.data).entries, ∀ x,
    run.emitsAlone (parseZip run.data) entry = some x →
      ∃ y ∈ r.entries, run.toLowercase y.safePath = run.toLowercase x.safePath
  duplicates : ∀ s ∈ r.skipped, s.reason = "duplicate_path" →
    ∃ p, safeRelativePath s.name run.limits.maxPathBytes run.limits.maxDepth = some p ∧
      ∃ y ∈ r.entries, run.toLowercase y.safePath = run.toLowercase p

/-- Wherever several parsed entries compete for a path, the first of them is recoverable by
itself. -/
def FirstRecoverable (run : RecoveryRun) : Prop :=
  ∀ k, 2 ≤ (parseZip run.data).entries.countP (run.keyOf · = some k) →
    ∀ entry, (parseZip run.data).entries.find? (run.keyOf · = some k) = some entry →
      (run.emitsAlone (parseZip run.data) entry).isSome = true

theorem recoverVerifiedEntries_eq (run : RecoveryRun) :
    ∃ r, run.recoverVerifiedEntries = .ok r ∧ r.entries = emittedOf run.outcomes ∧
      r.skipped = run.summary.skipped := by
  have hcollect : ∀ (xs entries : List MobileZipEntry),
      xs.foldlM collect entries = .ok (entries ++ xs) := by
    intro xs
    induction xs with
    | nil => simp [pure, Except.pure]
    | cons x xs ih =>
        intro entries
        rw [List.foldlM_cons, collect]
        refine (ih (entries ++ [x])).trans ?_
        simp
  unfold recoverVerifiedEntries
  rw [recoverVerifiedEntriesTo_eq, hcollect]
  exact ⟨_, rfl, rfl, rfl⟩

/-- The entry at which a path is first competed for, with what comes before it. -/
theorem exists_first {entries : List ZipEntry} {entry : ZipEntry} {k : Text}
    (he : entry ∈ entries) (hk : run.keyOf entry = some k) :
    ∃ first pre rest, entries.find? (run.keyOf · = some k) = some first ∧
      run.keyOf first = some k ∧ entries = pre ++ first :: rest ∧
      ∀ d ∈ pre, run.keyOf d ≠ some k := by
  cases hfind : entries.find? (run.keyOf · = some k) with
  | none =>
      have hnone := List.find?_eq_none.mp hfind entry he
      simp [hk] at hnone
  | some first =>
      obtain ⟨hfirst, pre, rest, rfl, hpre⟩ := List.find?_eq_some_iff_append.mp hfind
      exact ⟨first, pre, rest, rfl, by simpa using hfirst, rfl,
        fun d hd ↦ by simpa using hpre d hd⟩

theorem keepsRecoverable_of_first (h : run.LimitsNotReached) (hfirst : run.FirstRecoverable)
    {r : MobileZipRecovery} (hentries : r.entries = emittedOf run.outcomes)
    (hskipped : r.skipped = run.summary.skipped) : run.KeepsRecoverable r := by
  -- of two entries of one path, the first is recoverable and so emitted
  have hpair : ∀ (pre mid rest : List ZipEntry) (d e : ZipEntry) (k : Text),
      (parseZip run.data).entries = pre ++ d :: mid ++ e :: rest → run.keyOf d = some k →
        run.keyOf e = some k → ∃ y ∈ emittedOf run.outcomes, run.toLowercase y.safePath = k := by
    intro pre mid rest d e k hsplit hd he
    obtain ⟨first, before, after, hfind, hkey, hdec, hbefore⟩ := exists_first
      (show d ∈ (parseZip run.data).entries by simp [hsplit]) hd
    have hcount : 2 ≤ (parseZip run.data).entries.countP (run.keyOf · = some k) := by
      rw [hsplit]
      simp only [List.countP_append, List.countP_cons, hd, he, decide_true, if_true]
      omega
    obtain ⟨x, hx⟩ := Option.isSome_iff_exists.mp (hfirst k hcount first hfind)
    refine ⟨x, emitted_of_first h hdec hx (fun b hb ↦ hkey ▸ hbefore b hb), ?_⟩
    exact Option.some.inj ((emitsAlone_key hx).1.symm.trans hkey)
  constructor
  · intro entry he x hx
    obtain ⟨hkey, -⟩ := emitsAlone_key hx
    rw [hentries]
    obtain ⟨pre, rest, hsplit⟩ := List.append_of_mem he
    by_cases hbefore : ∃ d ∈ pre, run.keyOf d = run.keyOf entry
    · obtain ⟨d, hd, hdk⟩ := hbefore
      obtain ⟨pre', mid, rfl⟩ := List.append_of_mem hd
      exact hpair pre' mid rest d entry _ hsplit (hdk.trans hkey) hkey
    · refine ⟨x, emitted_of_first h hsplit hx (fun d hd hdk ↦ hbefore ⟨d, hd, hdk⟩), rfl⟩
  · intro s hs hreason
    have hmem : s ∈ skippedOf run.outcomes := by
      rw [hskipped] at hs
      rcases List.mem_append.mp hs with hs | hs
      · exact hs
      · split at hs
        · rw [List.mem_singleton.mp hs] at hreason
          exact absurd hreason (by decide)
        · simp at hs
    obtain ⟨pre, entry, rest, hsplit, hname, p, hp, d, hd, hdk⟩ := later_of_skipped h hmem hreason
    refine ⟨p, hname ▸ pathOf_eq_ok hp, ?_⟩
    obtain ⟨pre', mid, rfl⟩ := List.append_of_mem hd
    rw [hentries]
    exact hpair pre' mid rest d entry _ hsplit hdk (keyOf_of_pathOf hp)

theorem first_of_keepsRecoverable (h : run.LimitsNotReached) {r : MobileZipRecovery}
    (hentries : r.entries = emittedOf run.outcomes)
    (hskipped : r.skipped = run.summary.skipped) (hkeeps : run.KeepsRecoverable r) :
    run.FirstRecoverable := by
  intro k hcount first hfind
  obtain ⟨hfirst, pre, rest, hsplit, hpre⟩ := List.find?_eq_some_iff_append.mp hfind
  have hfk : run.keyOf first = some k := by simpa using hfirst
  have hnone : pre.countP (run.keyOf · = some k) = 0 :=
    List.countP_eq_zero.mpr fun d hd ↦ by simpa using hpre d hd
  have hrest : 0 < rest.countP (run.keyOf · = some k) := by
    rw [hsplit, List.countP_append, List.countP_cons, hnone, if_pos hfirst] at hcount
    omega
  obtain ⟨e, he, hek⟩ := List.countP_pos_iff.mp hrest
  have hek' : run.keyOf e = some k := by simpa using hek
  obtain ⟨mid, post, rfl⟩ := List.append_of_mem he
  -- the second entry of the path is a duplicate, so the path was emitted
  have hlater : (parseZip run.data).entries = (pre ++ first :: mid) ++ e :: post := by
    simp [hsplit]
  have hskip := skipped_of_later h hlater (by simp) hfk hek'
  obtain ⟨p, hp, y, hy, hyp⟩ := hkeeps.duplicates _
    (by rw [hskipped]; exact List.mem_append_left _ hskip) rfl
  obtain ⟨q, hq, hqk⟩ := exists_pathOf_of_keyOf hek'
  obtain rfl := Option.some.inj ((pathOf_eq_ok hq).symm.trans hp)
  rw [hentries] at hy
  obtain ⟨pre', entry, rest', hsplit', halone, hkey, hpre'⟩ := first_of_emitted h hy
  have hfind' : (parseZip run.data).entries.find? (run.keyOf · = some k) = some entry := by
    rw [List.find?_eq_some_iff_append]
    refine ⟨by simp [hkey, hyp, hqk], pre', rest', hsplit', fun d hd ↦ ?_⟩
    have hne := hpre' d hd
    rw [hyp, hqk] at hne
    simp [hne]
  rw [hfind] at hfind'
  rw [Option.some.inj hfind', halone]
  rfl

/-- Below the limits no recoverable entry is suppressed exactly when the first of every group of
entries that share a path is itself recoverable. -/
theorem recoverVerifiedEntries_keeps_iff (run : RecoveryRun) (h : run.LimitsNotReached) :
    ∃ r, run.recoverVerifiedEntries = .ok r ∧
      (run.KeepsRecoverable r ↔ run.FirstRecoverable) := by
  obtain ⟨r, hr, hentries, hskipped⟩ := run.recoverVerifiedEntries_eq
  exact ⟨r, hr, first_of_keepsRecoverable h hentries hskipped,
    fun hfirst ↦ keepsRecoverable_of_first h hfirst hentries hskipped⟩

end RecoveryRun

/-- Two members of one name and no directory; the first does not match its checksum. -/
def damagedThenSound : RecoveryRun where
  fl := storedFlate
  toLowercase := id
  data :=
    let fl := storedFlate
    let a : Part := ⟨['a'], [0x61]⟩
    let b : Part := ⟨['a'], [0x62]⟩
    (localRecord fl a).set 31 0x00 ++ localRecord fl b
  limits := {}
  cdProvenance := .originalSurviving

theorem damagedThenSound_limitsNotReached : damagedThenSound.LimitsNotReached :=
  ⟨by decide +kernel, by decide +kernel, by decide⟩

theorem damagedThenSound_keeps_iff :
    ∃ r, damagedThenSound.recoverVerifiedEntries = .ok r ∧
      (damagedThenSound.KeepsRecoverable r ↔ damagedThenSound.FirstRecoverable) :=
  RecoveryRun.recoverVerifiedEntries_keeps_iff damagedThenSound damagedThenSound_limitsNotReached

theorem damagedThenSound_suppresses : damagedThenSound.LimitsNotReached ∧
    ∃ r, damagedThenSound.recoverVerifiedEntries = .ok r ∧
      ¬ damagedThenSound.KeepsRecoverable r := by
  refine ⟨damagedThenSound_limitsNotReached, ?_⟩
  have hnone : damagedThenSound.recoverVerifiedEntries.toOption.map (·.entries) = some [] := by
    decide +kernel
  have hsound : ∃ e ∈ (parseZip damagedThenSound.data).entries,
      (damagedThenSound.emitsAlone (parseZip damagedThenSound.data) e).isSome = true := by
    decide +kernel
  obtain ⟨r, hr, -⟩ := damagedThenSound.recoverVerifiedEntries_eq
  refine ⟨r, hr, fun hkeeps ↦ ?_⟩
  have hempty : r.entries = [] := by simpa [hr, Except.toOption] using hnone
  obtain ⟨e, he, hx⟩ := hsound
  obtain ⟨x, hx⟩ := Option.isSome_iff_exists.mp hx
  obtain ⟨y, hy, -⟩ := hkeeps.recovered e he x hx
  simp [hempty] at hy

end VeraqisRecover.Zip
