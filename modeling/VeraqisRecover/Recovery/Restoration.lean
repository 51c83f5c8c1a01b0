import VeraqisRecover.Analyze.Healthy
import VeraqisRecover.Recovery.Stream

/-!
# Restored streams

One rule about stream recovery: where the first strategy asked makes of the
input a file without defects, that file is what is returned.  The damage and
the repair are then a matter of the format alone, and everything in between
(the findings, what they cost, the selection, the gate) is the rule's.
-/

namespace VeraqisRecover.Recovery

open ByteString Checked

variable {tools : Toolbox} {input : Analyze.DataSource} {label : FilePath}
  {options : RecoveryOptions} {result : Analyze.AnalysisResult} {s : RecoveryStrategy}

/-! ## Files without defects -/

/-- The content tells the format whatever the name, and in that format the file is readable and
shows no defect. -/
structure Pristine (env : Analyze.Environment) (file : Analyze.DataSource)
    (format : Analyze.ArchiveFormat) : Prop where
  identified : ∀ path, Analyze.FormatDetection.detect file path = .ok format
  readable : Analyze.Engine.refusal file format = .ok (.ok ())
  clean : Analyze.ReportsNoDefect env.inflate file format

/-- A file that opens with the magic of a format is of that format, under any name. -/
theorem detect_of_opening {file : Analyze.DataSource} {format : Analyze.ArchiveFormat}
    (rule : FormatId.Signature) (hrule : rule ∈ FormatId.openings)
    (hmagic : rule.magic <+: file.bytes) (hlong : rule.minLen ≤ file.bytes.length)
    (hformat : Analyze.FormatDetection.fromShared rule.format = some format) (path : Text) :
    Analyze.FormatDetection.detect file path = .ok format := by
  obtain ⟨hsmall, -⟩ := FormatId.small_of_mem rule (FormatId.opening_mem hrule)
  have hword : 16 ≤ wordMax := by decide
  have hfits : rule.Fits file := by
    refine Bool.and_eq_true_iff.mpr ⟨decide_eq_true hlong, decide_eq_true ?_⟩
    rw [FormatId.start_of_opening rule hrule, FormatId.window_start (by omega)]
    exact ⟨hmagic, by rw [Nat.zero_add]; exact hmagic.length_le⟩
  have hidentify : FormatId.identify (.whole file.bytes) = some rule.format :=
    FormatId.identify_of_opening hrule hfits fun other hother hfires ↦
      FormatId.opening_unique hother hrule hfires hfits
  rw [Analyze.FormatDetection.detect_eq, hidentify, Option.bind_some, hformat]
  rfl

/-- No manifest stands next to the label. -/
def Unlisted (env : Analyze.Environment) (label : FilePath) : Prop :=
  env.readToString (Analyze.sidecarPath label.toList .sha256) = none

theorem integrity_of_unlisted {env : Analyze.Environment} (h : Unlisted env label)
    (file : Analyze.DataSource) : Analyze.Integrity.scan env file label.toList {} =
      .ok (Analyze.Integrity.run env file .sha256) := by
  unfold Analyze.Integrity.scan Analyze.Integrity.runWithManifest
  dsimp only
  rw [h]

/-- What an analysis makes of a finding, as recovery reads it. -/
def Corruption.ofDetected (d : Analyze.Detected) : Corruption :=
  match Analyze.rule (d.ruleIdOverride.getD d.kind.ruleId) with
  | some entry => ⟨.ofAnalyze entry.category, .ofAnalyze entry.defaultSeverity,
      d.byteRange.map fun r ↦ ⟨r.start, r.stop⟩, entry.id⟩
  | none => ⟨.structuralCorruption, .benign, none, ""⟩

theorem ofAnalyze_of_reports {c : Analyze.Corruption} {d : Analyze.Detected} (h : c.Reports d) :
    Corruption.ofAnalyze c = Corruption.ofDetected d := by
  obtain ⟨-, hrange, entry, hentry, hid, hcategory, hseverity⟩ := h
  rw [Corruption.ofDetected, hentry, Corruption.ofAnalyze, hrange, hid, hcategory, hseverity]

theorem map_ofAnalyze_of_reports {cs : List Analyze.Corruption} {found : List Analyze.Detected}
    (h : List.Forall₂ Analyze.Corruption.Reports cs found) :
    cs.map Corruption.ofAnalyze = found.map Corruption.ofDetected := by
  induction h with
  | nil => rfl
  | cons hr _ ih => rw [List.map_cons, List.map_cons, ofAnalyze_of_reports hr, ih]

/-- The analysis of a stream that no manifest is about: its findings, and their price. -/
theorem analyzed_of_detect {env : Analyze.Environment} {path : Text}
    {format : Analyze.ArchiveFormat} {found : List Analyze.Detected} {capped : Bool}
    (hbare : Unlisted env label)
    (hformat : Analyze.FormatDetection.detect input path = .ok format)
    (hrefusal : Analyze.Engine.refusal input format = .ok (.ok ()))
    (hdetect : Analyze.detect env.inflate (env.wal path) input format
      (Analyze.Integrity.run env input .sha256) true 1000 = .ok (found, capped)) :
    ∃ result, Analyze.Engine.analyzeSource env input path label.toList {} = .ok (.ok result) ∧
      AnalysisResult.ofAnalyze result = ⟨some (.ofAnalyze format),
        .ofAnalyze .sha256 (Analyze.Integrity.run env input .sha256),
        found.map Corruption.ofDetected, result.healthScore.overall⟩ ∧
      (result.healthScore.overall = 100 ↔ found = []) := by
  obtain ⟨result, hresult, hall, hformat', hintegrity, hhash, hhealth⟩ : ∃ r,
      Analyze.Engine.analyzeSource env input path label.toList {} = .ok (.ok r) ∧ _ :=
    Analyze.Engine.analyzeSource_of_detect rfl (by decide) hformat hrefusal
      (integrity_of_unlisted hbare input) hdetect
  refine ⟨result, hresult, ?_, fun hfull ↦ ?_, ?_⟩
  · rw [AnalysisResult.ofAnalyze, hformat', hintegrity, hhash, map_ofAnalyze_of_reports hall]
    rfl
  · by_contra hne
    refine (Analyze.Engine.overall_lt_of_ne_nil rfl hresult fun hnil ↦ hne ?_).ne hfull
    rw [hnil] at hall
    exact List.forall₂_nil_left_iff.mp hall
  · rintro rfl
    obtain ⟨-, hnil⟩ := Analyze.Health.score_eq_ok_iff.mp Analyze.Health.score_nil
    rw [hhealth, List.forall₂_nil_right_iff.mp hall, hnil]

theorem integrity_unlisted (env : Analyze.Environment) (file : Analyze.DataSource) :
    (Analyze.Integrity.run env file .sha256).manifestPresent = false := rfl

/-- Analyzed again, a file without defects has full marks. -/
theorem reanalyzeHealth_of_pristine {file : Analyze.DataSource} {format : Analyze.ArchiveFormat}
    (hbare : Unlisted tools.env label) (h : Pristine tools.env file format) :
    reanalyzeHealth tools.env label file.bytes = .ok (some 100) := by
  obtain ⟨capped, hdetect⟩ := h.clean (tools.env.wal "recovered".toList)
    (Analyze.Integrity.run tools.env file .sha256) 1000 (integrity_unlisted _ _)
  obtain ⟨result, hresult, -, hfull⟩ := analyzed_of_detect hbare (h.identified "recovered".toList)
    h.readable hdetect
  rw [reanalyzeHealth, dif_pos file.addressable]
  refine bind_eq_ok.mpr ⟨_, hresult, ?_⟩
  dsimp only
  rw [hfull.mpr rfl]
  rfl

/-! ## The rule -/

/-- One strategy is credited with the output, at full marks. -/
structure CreditedTo (s : RecoveryStrategy) (report : RecoveryReport) : Prop where
  applied : report.strategiesApplied = [s.name]
  rolledBack : report.rolledBack = []
  success : report.success = true
  healthAfter : report.healthAfter = some 100

/-- The analysis of the input and the selection that follows from it. -/
structure FirstAsked (tools : Toolbox) (input : Analyze.DataSource) (label : FilePath)
    (options : RecoveryOptions) (s : RecoveryStrategy) : Prop where
  analyzed : ∃ result, Analyze.Engine.analyzeSource tools.env input label.toList label.toList {} =
    .ok (.ok result) ∧ result.healthScore.overall < 100 ∧
      ∃ rest, (streamRun tools input.bytes result label options).select = .ok (s :: rest)
  untroubled : strategyFault tools s.name input.bytes = none
  not_inferred : s.risk ≠ .inferred

theorem Run.select_of_sorted {run : Run} {rest : List RecoveryStrategy}
    (hauto : run.options.forcedStrategy = none) (hdefects : run.analysis.corruptions ≠ [])
    (hsorted : (run.engine.allStrategies.filter (·.canApply run.analysis)).insertionSort
      (fun a b ↦ b.priority ≤ a.priority) = s :: rest) : run.select = .ok (s :: rest) := by
  unfold Run.select
  rw [hauto]
  dsimp only
  rw [if_neg hdefects, hsorted, if_neg (List.cons_ne_nil _ _)]

/-- The analysis of a stream by its findings. -/
def analysisOf (env : Analyze.Environment) (input : Analyze.DataSource)
    (format : Analyze.ArchiveFormat) (found : List Analyze.Detected) (overall : ℕ) :
    AnalysisResult :=
  ⟨some (.ofAnalyze format), .ofAnalyze .sha256 (Analyze.Integrity.run env input .sha256),
    found.map Corruption.ofDetected, overall⟩

/-- Who is asked first is decided by the findings. -/
theorem firstAsked_of_detect {format : Analyze.ArchiveFormat} {found : List Analyze.Detected}
    {capped : Bool} {rest : List RecoveryStrategy} (hbare : Unlisted tools.env label)
    (hauto : options.forcedStrategy = none)
    (hformat : Analyze.FormatDetection.detect input label.toList = .ok format)
    (hrefusal : Analyze.Engine.refusal input format = .ok (.ok ()))
    (hdetect : Analyze.detect tools.env.inflate (tools.env.wal label.toList) input format
      (Analyze.Integrity.run tools.env input .sha256) true 1000 = .ok (found, capped))
    (hne : found ≠ [])
    (hsorted : ∀ overall, ((allStrategies tools).filter
      (·.canApply (analysisOf tools.env input format found overall))).insertionSort
        (fun a b ↦ b.priority ≤ a.priority) = s :: rest)
    (hfault : strategyFault tools s.name input.bytes = none) (hrisk : s.risk ≠ .inferred) :
    FirstAsked tools input label options s := by
  obtain ⟨result, hresult, hanalysis, hfull⟩ := analyzed_of_detect hbare hformat hrefusal hdetect
  have hle : result.healthScore.overall ≤ 100 := by
    obtain ⟨-, hscore⟩ := Analyze.Health.score_eq_ok_iff.mp
      (Analyze.Engine.analyzeSource_stages hresult).health
    rw [← hscore]
    exact Analyze.Health.fromSubscores_inRange.1
  refine ⟨⟨result, hresult, lt_of_le_of_ne hle (mt hfull.mp hne), rest, ?_⟩, hfault, hrisk⟩
  have hdefects : (AnalysisResult.ofAnalyze result).corruptions ≠ [] := by
    rw [hanalysis]
    exact mt List.map_eq_nil_iff.mp hne
  refine Run.select_of_sorted hauto hdefects ?_
  change ((allStrategies tools).filter (·.canApply (.ofAnalyze result))).insertionSort _ = _
  rw [hanalysis]
  exact hsorted result.healthScore.overall

theorem verify_returns (tools : Toolbox) (input out : Bytes) (result : Analyze.AnalysisResult)
    (label : FilePath) (options : RecoveryOptions) :
    ∃ integ, (streamRun tools input result label options).verify out = .ok integ := by
  simp only [Run.verify, streamRun, recoveryEngine, hashSource, bind, Except.bind]
  split
  · exact ⟨_, rfl⟩
  · exact ⟨_, rfl⟩

theorem streamed_of_kept {input out : Bytes} {st : PassState} (h : st.outcome.bytes = some out) :
    streamed input st = (out, { st.aggregate with outputPath := "-" }) := by
  rw [streamed, h]

/-- A first pass that improves on the input ends the run. -/
theorem Run.runPasses_of_first {run : Run} {rest : List RecoveryStrategy} {out : Bytes}
    {applied : RecoveryReport} {integ : IntegrityResult} {h : ℕ}
    (hselect : run.select = .ok (s :: rest)) (happly : s.apply run.source = .ok (out, applied))
    (hinteg : run.verify out = .ok integ) (hafter : run.reanalyzeHealth out = some h)
    (hbetter : run.baseHealth < h) (hne : out ≠ []) (hrisk : s.risk ≠ .inferred)
    (hagg : run.options.aggressive = false) (aggregate : RecoveryReport) :
    run.stage s = .ok ⟨s, out, applied, integ, some h⟩ ∧
      run.stops ⟨s, out, applied, integ, some h⟩ = true ∧
      (run.report ⟨s, out, applied, integ, some h⟩).success = true ∧
      run.runPasses aggregate = .ok (run.keep { aggregate } ⟨s, out, applied, integ, some h⟩) := by
  have hstage : run.stage s = .ok ⟨s, out, applied, integ, some h⟩ := by
    rw [Run.stage, happly]
    dsimp only [bind, Except.bind]
    rw [hinteg, hafter]
  have himproved : run.improved ⟨s, out, applied, integ, some h⟩ = true :=
    (run.improved_iff _).mpr ⟨h, rfl, hbetter⟩
  have hkeeps : run.keeps ⟨s, out, applied, integ, some h⟩ = true := by
    refine (run.keeps_iff_justified _).mpr ⟨hne, fun h' hh ↦ ?_, ?_, ?_⟩
    · exact (Option.some.inj hh) ▸ hbetter.le
    · rintro (hinferred | hnone)
      · exact absurd hinferred hrisk
      · cases hnone
    · exact .inr (.inl ⟨h, rfl, hbetter⟩)
  have hstops : run.stops ⟨s, out, applied, integ, some h⟩ = true := by
    rw [Run.stops, hkeeps, himproved, hagg, Bool.or_true]
    rfl
  have hsuccess : (run.report ⟨s, out, applied, integ, some h⟩).success = true := by
    rw [Run.report, himproved, Bool.or_true, Bool.true_or]
  refine ⟨hstage, hstops, hsuccess, ?_⟩
  rw [Run.runPasses, hselect]
  dsimp only [bind, Except.bind]
  rw [maxPasses, List.take_succ_cons, Run.passes, hstage]
  dsimp only [bind, Except.bind]
  rw [if_pos hstops, Run.settle_of_keeps run hkeeps]

theorem passFault_of_apply {run : Run} {out : Bytes} {applied : RecoveryReport}
    (happly : s.apply run.source = .ok (out, applied)) :
    passFault tools run s = (strategyFault tools s.name run.source).or
      (faultOf (reanalyzeHealth tools.env run.label out)) := by
  rw [passFault, happly]

/-- If the first strategy asked makes a file without defects of the source, the run ends there, and
keeps that file. -/
theorem runPassesChecked_of_first {source : Bytes} {original : Analyze.DataSource}
    {format : Analyze.ArchiveFormat} {applied : RecoveryReport} {rest : List RecoveryStrategy}
    (hbare : Unlisted tools.env label) (hagg : options.aggressive = false)
    (horiginal : Pristine tools.env original format) (hne : original.bytes ≠ [])
    (hhealth : result.healthScore.overall < 100)
    (hselect : (streamRun tools source result label options).select = .ok (s :: rest))
    (hfault : strategyFault tools s.name source = none) (hrisk : s.risk ≠ .inferred)
    (happly : s.apply source = .ok (original.bytes, applied)) (aggregate : RecoveryReport) :
    ∃ integ, ((streamRun tools source result label options).report
        ⟨s, original.bytes, applied, integ, some 100⟩).success = true ∧
      runPassesChecked tools (streamRun tools source result label options) aggregate =
        .ok (.ok ((streamRun tools source result label options).keep { aggregate }
          ⟨s, original.bytes, applied, integ, some 100⟩)) := by
  obtain ⟨integ, hinteg⟩ := verify_returns tools source original.bytes result label options
  have hafter := reanalyzeHealth_of_pristine hbare horiginal
  obtain ⟨hstage, hstops, hsuccess, hruns⟩ := Run.runPasses_of_first hselect happly hinteg
    (analyzeHealth_eq_some.mpr hafter) hhealth hne hrisk hagg aggregate
  refine ⟨integ, hsuccess, ?_⟩
  have hpass : passFault tools (streamRun tools source result label options) s = none := by
    rw [passFault_of_apply happly]
    change (strategyFault tools s.name source).or
      (faultOf (reanalyzeHealth tools.env label original.bytes)) = none
    rw [hfault, hafter]
    rfl
  rw [runPassesChecked, hselect]
  dsimp only
  rw [maxPasses, List.take_succ_cons, runFault, hpass, hstage]
  dsimp only
  rw [if_pos hstops, hruns]
  rfl

/-- If the first strategy asked makes a file without defects of the input, that file is what the
recovery returns. -/
theorem recoverStream_of_first {original : Analyze.DataSource} {format : Analyze.ArchiveFormat}
    {applied : RecoveryReport} (hbare : Unlisted tools.env label)
    (hagg : options.aggressive = false) (horiginal : Pristine tools.env original format)
    (hne : original.bytes ≠ []) (hfirst : FirstAsked tools input label options s)
    (happly : s.apply input.bytes = .ok (original.bytes, applied)) :
    ∃ report, recoverStream tools input label options = .ok (.ok (original.bytes, report)) ∧
      CreditedTo s report := by
  obtain ⟨⟨result, hresult, hhealth, rest, hselect⟩, hfault, hrisk⟩ := hfirst
  obtain ⟨integ, hsuccess, hchecked⟩ := runPassesChecked_of_first hbare hagg horiginal hne hhealth
    hselect hfault hrisk happly ((streamRun tools input.bytes result label options).startReport "-")
  have hknown := (Run.select_sublist_names hselect).2 s List.mem_cons_self
  obtain ⟨happlied, hrolled⟩ := (recoveryEngine tools).reportsItself s hknown input.bytes
    original.bytes applied happly
  exact ⟨_, bind_eq_ok.mpr ⟨_, hresult, bind_eq_ok.mpr ⟨_, hchecked,
    congrArg (Except.ok ∘ Except.ok) (streamed_of_kept rfl)⟩⟩, happlied, hrolled, hsuccess, rfl⟩

end VeraqisRecover.Recovery
