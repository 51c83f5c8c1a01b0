import VeraqisRecover.Recovery.FileSafety

/-!
# The command line

`run` of the `veraqis-recover` binary: analyze a file, and with an output directory recover it.
The exit code is all that a caller learns, so it has to be right about the files: one code for a
healthy or a recovered archive, one for damage that nothing was done about.
-/

namespace VeraqisRecover.Recovery

open ByteString Checked

/-- The arguments. -/
structure Cli where
  path : Text
  output : Option Text := none

namespace Cli

def EXIT_SUCCESS : ℕ := 0
def EXIT_ISSUES : ℕ := 1
def EXIT_FATAL : ℕ := 2

/-- The options of a recovery into a directory. -/
def options (result : Analyze.AnalysisResult) (outputDir : Text) : FileOptions where
  outputDir
  hashType := .ofAnalyze result.hashType
  toolName := "veraqis-recover"

variable {σ κ : Type}

/-- The analysis of a file. -/
def analyze (host : Host σ κ) (path : Text) (s : σ) :
    Checked (Except Analyze.EngineError Analyze.AnalysisResult) :=
  match host.fs.read s path with
  | .error e => return .error (.io path e)
  | .ok bytes =>
      if h : bytes.length < 2 ^ 63 then
        Analyze.Engine.analyzeSource (host.tools s).env ⟨bytes, h⟩ path path {}
      else .error .capacity

theorem analyze_of_read {host : Host σ κ} {path : Text} {s : σ} {source : Analyze.DataSource}
    (hread : host.fs.read s path = .ok source.bytes) : analyze host path s =
      Analyze.Engine.analyzeSource (host.tools s).env source path path {} := by
  rw [analyze, hread]
  exact dif_pos source.addressable

/-- `AnalysisResult::is_clean` -/
def isClean (result : Analyze.AnalysisResult) : Bool := result.corruptions.isEmpty

def run (host : Host σ κ) (cli : Cli) (s : σ) : Checked (σ × ℕ) := do
  match ← analyze host cli.path s with
  | .error _ => return (s, EXIT_FATAL)
  | .ok result =>
      match cli.output with
      | none => return (s, if isClean result then EXIT_SUCCESS else EXIT_ISSUES)
      | some outputDir =>
          match host.fs.createDirAll s outputDir with
          | (s, .error _) => return (s, EXIT_FATAL)
          | (s, .ok ()) =>
              match ← recover host cli.path result (options result outputDir) s with
              | (s, .ok report) =>
                  return (s, if isClean result || report.success then EXIT_SUCCESS
                    else EXIT_ISSUES)
              | (s, .error _) => return (s, EXIT_FATAL)

/-! ## The directory -/

/-- Where the recovered archive goes. -/
def recoveredPath (path outputDir : Text) : Text := outputPathFor path { outputDir }

/-- With the directory made and the output written, no link leads from the place of the manifest
to the archive or to the output. -/
structure Linkless (host : Host σ κ) (s : σ) (path outputDir : Text) : Prop where
  lawful : host.fs.Lawful Paths.SameComponents
  manifest : ∀ s', host.fs.createDirAll s outputDir = (s', .ok ()) →
    ManifestApart host s' path (recoveredPath path outputDir)

theorem fileName_noSlash {path name : Text} (h : Analyze.fileName path = some name) :
    '/' ∉ name := by
  obtain ⟨hlast, -⟩ := Option.filter_eq_some_iff.mp h
  have hmem := List.mem_of_mem_filter (List.mem_of_getLast? hlast)
  exact (Zip.mem_splitOn hmem).1

/-- A name with the extension of recovered files is a component. -/
theorem recoveredName_proper (path : Text) :
    '/' ∉ (Analyze.fileName path).getD "output".toList ++ ".recovered".toList ∧
      Paths.skipped ((Analyze.fileName path).getD "output".toList ++ ".recovered".toList) =
        false := by
  constructor
  · rw [List.mem_append, not_or]
    refine ⟨?_, by decide⟩
    cases hname : Analyze.fileName path with
    | none => decide
    | some name => exact fileName_noSlash hname
  · generalize (Analyze.fileName path).getD "output".toList = name
    refine Bool.eq_false_iff.mpr fun h ↦ ?_
    have hlong : 10 ≤ (name ++ ".recovered".toList).length := by
      rw [List.length_append]
      exact Nat.le_add_left 10 _
    rcases Bool.or_eq_true_iff.mp h with h | h
    · rw [of_decide_eq_true h] at hlong
      exact absurd hlong (by decide)
    · rw [of_decide_eq_true h] at hlong
      exact absurd hlong (by decide)

variable {host : Host σ κ} {path outputDir : Text} {cli : Cli} {s s' : σ} {code : ℕ}
  {source : Bytes}

/-- Once the directory was made, it is there for the commit. -/
theorem separate_of_made (hlink : Linkless host s path outputDir)
    (hmade : host.fs.createDirAll s outputDir = (s', .ok ())) :
    Separate host s' path (recoveredPath path outputDir) where
  lawful := hlink.lawful
  directory := by
    intro dir hparent hne
    obtain ⟨hslash, hproper⟩ := recoveredName_proper path
    have hsame : Paths.SameComponents dir outputDir :=
      Paths.parent_join hslash hproper hparent hne
    exact hlink.lawful.createDirAll_again hmade hsame.symm
  manifest := hlink.manifest s' hmade

/-! ## A run, taken apart -/

/-- The exit code of a run that comes to its end. -/
def exitCode (done : Bool) : ℕ := if done then EXIT_SUCCESS else EXIT_ISSUES

/-- A run ends with the analysis, with the directory, or with the recovery. -/
inductive Ends (host : Host σ κ) (cli : Cli) (s : σ) : σ → ℕ → Prop
  | unreadable : Ends host cli s s EXIT_FATAL
  | analyzed {result} : analyze host cli.path s = .ok (.ok result) → cli.output = none →
      Ends host cli s s (exitCode (isClean result))
  | unmade {outputDir s₁ e} : cli.output = some outputDir →
      host.fs.createDirAll s outputDir = (s₁, .error e) → Ends host cli s s₁ EXIT_FATAL
  | failed {result outputDir s₁ s₂ e} : cli.output = some outputDir →
      host.fs.createDirAll s outputDir = (s₁, .ok ()) →
      recover host cli.path result (options result outputDir) s₁ = .ok (s₂, .error e) →
      Ends host cli s s₂ EXIT_FATAL
  | recovered {result outputDir s₁ s₂ report} : analyze host cli.path s = .ok (.ok result) →
      cli.output = some outputDir → host.fs.createDirAll s outputDir = (s₁, .ok ()) →
      recover host cli.path result (options result outputDir) s₁ = .ok (s₂, .ok report) →
      Ends host cli s s₂ (exitCode (isClean result || report.success))

theorem ends_of_run (h : run host cli s = .ok (s', code)) : Ends host cli s s' code := by
  obtain ⟨analyzed, hanalyzed, h⟩ := bind_eq_ok.mp h
  cases analyzed with
  | error e =>
      obtain ⟨rfl, rfl⟩ := Prod.mk.inj (Except.ok.inj h)
      exact .unreadable
  | ok result =>
      cases houtput : cli.output with
      | none =>
          rw [houtput] at h
          obtain ⟨rfl, rfl⟩ := Prod.mk.inj (Except.ok.inj h)
          exact .analyzed hanalyzed houtput
      | some outputDir =>
          rw [houtput] at h
          dsimp only at h
          cases hmade : host.fs.createDirAll s outputDir with
          | mk s₁ made =>
              rw [hmade] at h
              cases made with
              | error e =>
                  obtain ⟨rfl, rfl⟩ := Prod.mk.inj (Except.ok.inj h)
                  exact .unmade houtput hmade
              | ok u =>
                  obtain ⟨⟨s₂, r⟩, hrecover, h⟩ := bind_eq_ok.mp h
                  cases r with
                  | error e =>
                      obtain ⟨rfl, rfl⟩ := Prod.mk.inj (Except.ok.inj h)
                      exact .failed houtput hmade hrecover
                  | ok report =>
                      obtain ⟨rfl, rfl⟩ := Prod.mk.inj (Except.ok.inj h)
                      exact .recovered hanalyzed houtput hmade hrecover

/-! ## The archive -/

/-- The command line for the damaged archive of one host. -/
def overwrittenCli : Cli where
  path := "a.7z".toList
  output := some "out".toList

theorem run_overwrittenCli : ∃ s', run diskHost overwrittenCli overwrittenDisk =
    .ok (s', EXIT_SUCCESS) := by
  obtain ⟨result, hresult, hall⟩ := recover_overwrittenDisk "veraqis-recover"
  obtain ⟨s', report, hrecover, hsuccess, -⟩ := hall (.ofAnalyze result.hashType)
  have hread : diskHost.fs.read overwrittenDisk overwrittenCli.path =
      .ok overwrittenArchive.bytes := rfl
  have hanalyze : analyze diskHost overwrittenCli.path overwrittenDisk = .ok (.ok result) :=
    (analyze_of_read hread).trans hresult
  refine ⟨s', bind_eq_ok.mpr ⟨_, hanalyze, bind_eq_ok.mpr ⟨_, hrecover, ?_⟩⟩⟩
  dsimp only
  rw [hsuccess, Bool.or_true]
  rfl

theorem linkless_overwrittenCli : ∀ outputDir ∈ overwrittenCli.output,
    Linkless diskHost overwrittenDisk overwrittenCli.path outputDir := by
  intro outputDir houtput
  obtain rfl := Option.some.inj houtput
  refine ⟨diskHost_lawful, fun s' hmade ↦ ?_⟩
  obtain rfl := (Prod.mk.inj hmade).1
  exact manifestApart_overwrittenDisk

/-- Whatever the run comes to, the archive reads as before. -/
theorem run_read_source (hlink : ∀ outputDir ∈ cli.output, Linkless host s cli.path outputDir)
    (hread : host.fs.read s cli.path = .ok source) (h : run host cli s = .ok (s', code)) :
    host.fs.read s' cli.path = .ok source := by
  -- The directory is made before the recovery, and changes no file.
  have hthere : ∀ {outputDir s₁ made}, cli.output = some outputDir →
      host.fs.createDirAll s outputDir = (s₁, made) → host.fs.read s₁ cli.path = .ok source := by
    intro outputDir s₁ made houtput hmade
    have hkept := (hlink outputDir houtput).lawful.read_createDirAll outputDir hread
    rwa [hmade] at hkept
  cases ends_of_run h with
  | unreadable => exact hread
  | analyzed => exact hread
  | unmade houtput hmade => exact hthere houtput hmade
  | @failed result outputDir s₁ _ _ houtput hmade hrecover =>
      have hsep : Separate host s₁ cli.path (outputPathFor cli.path (options result outputDir)) :=
        separate_of_made (hlink outputDir houtput) hmade
      exact recover_read_source hsep (hthere houtput hmade) hrecover
  | @recovered result outputDir s₁ _ _ _ houtput hmade hrecover =>
      have hsep : Separate host s₁ cli.path (outputPathFor cli.path (options result outputDir)) :=
        separate_of_made (hlink outputDir houtput) hmade
      exact recover_read_source hsep (hthere houtput hmade) hrecover

theorem run_read_source_overwrittenCli : ∃ s',
    run diskHost overwrittenCli overwrittenDisk = .ok (s', EXIT_SUCCESS) ∧
      diskHost.fs.read s' "a.7z".toList = .ok overwrittenArchive.bytes := by
  obtain ⟨s', hrun⟩ := run_overwrittenCli
  exact ⟨s', hrun, run_read_source linkless_overwrittenCli rfl hrun⟩

/-! ## The exit code -/

/-- No file was written; at most the directory was made. -/
def NothingWritten (host : Host σ κ) (cli : Cli) (s s' : σ) : Prop :=
  s' = s ∨ ∃ outputDir ∈ cli.output, s' = (host.fs.createDirAll s outputDir).1

/-- The output directory holds what a strategy made of the damaged archive and the gate let pass. -/
def Restored (host : Host σ κ) (cli : Cli) (result : Analyze.AnalysisResult) (source : Bytes)
    (s s' : σ) : Prop :=
  ∃ outputDir ∈ cli.output, ∃ tools, tools = host.tools (host.fs.createDirAll s outputDir).1 ∧
    ∃ strategy ∈ allStrategies tools, ∃ out,
      Gated tools source (String.ofList (recoveredPath cli.path outputDir))
        (options result outputDir).toRecoveryOptions result strategy out ∧
      host.fs.read s' (recoveredPath cli.path outputDir) = .ok out

theorem read_of_analyze {result : Analyze.AnalysisResult}
    (h : analyze host path s = .ok (.ok result)) : ∃ source, host.fs.read s path = .ok source := by
  unfold analyze at h
  split at h
  · cases Except.ok.inj h
  · exact ⟨_, ‹_›⟩

/-- Success means that the archive was healthy, or that the directory now holds a recovery of it.
The code for issues means that the archive is damaged.  No file is written for a healthy archive,
nor with the code for issues. -/
theorem run_verdict (hlink : ∀ outputDir ∈ cli.output, Linkless host s cli.path outputDir)
    (h : run host cli s = .ok (s', code)) :
    code = EXIT_FATAL ∨ ∃ source result, host.fs.read s cli.path = .ok source ∧
      analyze host cli.path s = .ok (.ok result) ∧
      (code = EXIT_SUCCESS ∧ result.corruptions = [] ∧ NothingWritten host cli s s' ∨
        code = EXIT_ISSUES ∧ result.corruptions ≠ [] ∧ NothingWritten host cli s s' ∨
        code = EXIT_SUCCESS ∧ result.corruptions ≠ [] ∧ Restored host cli result source s s') := by
  cases ends_of_run h with
  | unreadable => exact .inl rfl
  | unmade => exact .inl rfl
  | failed => exact .inl rfl
  | @analyzed result hanalyzed houtput =>
      obtain ⟨source, hread⟩ := read_of_analyze hanalyzed
      refine .inr ⟨source, result, hread, hanalyzed, ?_⟩
      by_cases hclean : result.corruptions = []
      · exact .inl ⟨if_pos (List.isEmpty_iff.mpr hclean), hclean, .inl rfl⟩
      · exact .inr (.inl ⟨if_neg (mt List.isEmpty_iff.mp hclean), hclean, .inl rfl⟩)
  | @recovered result outputDir s₁ _ report hanalyzed houtput hmade hrecover =>
      obtain ⟨source, hread⟩ := read_of_analyze hanalyzed
      refine .inr ⟨source, result, hread, hanalyzed, ?_⟩
      by_cases hclean : result.corruptions = []
      · obtain ⟨rfl, -⟩ := recover_of_clean hclean rfl hrecover
        refine .inl ⟨if_pos ?_, hclean, .inr ⟨outputDir, houtput, ?_⟩⟩
        · rw [isClean, List.isEmpty_iff.mpr hclean, Bool.true_or]
        · rw [hmade]
      · have hsep : Separate host s₁ cli.path
            (outputPathFor cli.path (options result outputDir)) :=
          separate_of_made (hlink outputDir houtput) hmade
        have hdamaged : isClean result = false :=
          Bool.eq_false_iff.mpr (mt List.isEmpty_iff.mp hclean)
        rw [hdamaged, Bool.false_or]
        obtain ⟨source', hread', hgated⟩ := recover_gated hsep hrecover
        have hkept := (hlink outputDir houtput).lawful.read_createDirAll outputDir hread
        rw [hmade, hread'] at hkept
        obtain rfl := Except.ok.inj hkept
        rcases hgated with ⟨hfailed, -, rfl⟩ | ⟨hsuccess, strategy, hknown, out, -, hgated, hout⟩
        · refine .inr (.inl ⟨if_neg (Bool.eq_false_iff.mp hfailed), hclean,
            .inr ⟨outputDir, houtput, ?_⟩⟩)
          rw [hmade]
        · refine .inr (.inr ⟨if_pos hsuccess, hclean, outputDir, houtput, _, rfl, strategy, ?_, out,
            ?_, ?_⟩)
          · rw [hmade]
            exact hknown
          · rw [hmade]
            exact hgated
          · rcases hout with ⟨hdry, -⟩ | ⟨-, hout⟩
            · cases hdry
            · exact hout

theorem run_verdict_overwrittenCli : ∃ s' source result,
    run diskHost overwrittenCli overwrittenDisk = .ok (s', EXIT_SUCCESS) ∧
      diskHost.fs.read overwrittenDisk "a.7z".toList = .ok source ∧
      analyze diskHost "a.7z".toList overwrittenDisk = .ok (.ok result) ∧
      (result.corruptions = [] ∧ NothingWritten diskHost overwrittenCli overwrittenDisk s' ∨
        result.corruptions ≠ [] ∧
          Restored diskHost overwrittenCli result source overwrittenDisk s') := by
  obtain ⟨s', hrun⟩ := run_overwrittenCli
  rcases run_verdict linkless_overwrittenCli hrun with hfatal | ⟨source, result, hread, hanalyze, h⟩
  · cases hfatal
  · refine ⟨s', source, result, hrun, hread, hanalyze, ?_⟩
    rcases h with ⟨-, hclean⟩ | ⟨hissues, -⟩ | ⟨-, hrestored⟩
    · exact .inl hclean
    · cases hissues
    · exact .inr hrestored

end Cli

end VeraqisRecover.Recovery
