import VeraqisRecover.Recovery.Catalog

/-!
# What a recovered stream is worth

The bytes a stream recovery returns are the input's own, or those that one
strategy made of the input and that the gate let pass.  Which strategies are
asked at all follows from what the detector can report: three of the sixteen
never are.
-/

namespace VeraqisRecover.Recovery

open ByteString Checked

variable {tools : Toolbox} {input : Analyze.DataSource} {label : FilePath}
  {options : RecoveryOptions} {out : Bytes} {report : RecoveryReport}
  {result : Analyze.AnalysisResult}

/-! ## The gate, with the analysis behind it -/

/-- The digest of the output is the one that the manifest lists for the input. -/
def MatchesManifest (tools : Toolbox) (result : Analyze.AnalysisResult) (options : RecoveryOptions)
    (out : Bytes) : Prop :=
  ∃ expected, result.integrityResult.expectedHash = some expected ∧
    expected = Analyze.toHex (tools.env.digest options.hashType.toAnalyze out)

/-- The output is what a strategy makes of the input, and there is a reason to keep it. -/
structure Gated (tools : Toolbox) (input : Bytes) (label : FilePath) (options : RecoveryOptions)
    (result : Analyze.AnalysisResult) (s : RecoveryStrategy) (out : Bytes) : Prop where
  staged : ∃ applied, s.apply input = .ok (out, applied)
  nonempty : out ≠ []
  never_worse : ∀ h, reanalyzeHealth tools.env label out = .ok (some h) →
    result.healthScore.overall ≤ h
  strict : s.risk = .inferred → MatchesManifest tools result options out
  gain : MatchesManifest tools result options out ∨
    (∃ h, reanalyzeHealth tools.env label out = .ok (some h) ∧ result.healthScore.overall < h) ∨
    reanalyzeHealth tools.env label out = .ok (some result.healthScore.overall) ∧
      s.name ∈ terminalStrategies

theorem analyzeHealth_eq_some {h : ℕ} : (recoveryEngine tools).analyzeHealth label out = some h ↔
    reanalyzeHealth tools.env label out = .ok (some h) := by
  change (reanalyzeHealth tools.env label out).toOption.join = some h ↔ _
  cases reanalyzeHealth tools.env label out with
  | error e => simp [Except.toOption]
  | ok after => simp [Except.toOption]

/-- A staging is verified where the analysis knows a hash and the output has it. -/
theorem isMatch_iff {source : Bytes} {integ : IntegrityResult}
    (h : (streamRun tools source result label options).verify out = .ok integ) :
    integ.isMatch = true ↔ MatchesManifest tools result options out := by
  simp only [Run.verify, streamRun, recoveryEngine, hashSource, AnalysisResult.ofAnalyze,
    IntegrityResult.ofAnalyze, bind, Except.bind] at h
  unfold MatchesManifest
  cases hexpected : result.integrityResult.expectedHash with
  | none =>
      rw [hexpected] at h
      obtain rfl := Except.ok.inj h
      simp [IntegrityResult.withoutManifest]
  | some expected =>
      rw [hexpected] at h
      obtain rfl := Except.ok.inj h
      simp only [IntegrityResult.withoutManifest, Option.some.injEq, exists_eq_left']
      exact decide_eq_true_iff.trans String.ofList_inj

theorem gated_of_justified {source : Bytes} {run : Run} {p : Pass}
    (hrun : run = streamRun tools source result label options)
    (hp : run.stage p.strategy = .ok p) (hjust : run.Justified p) :
    Gated tools source label options result p.strategy p.staged := by
  subst hrun
  obtain ⟨-, happly, hverify, hafter⟩ := Run.stage_measures hp
  have hmatch : p.verified = true ↔ MatchesManifest tools result options p.staged :=
    isMatch_iff hverify
  have hsome : ∀ h, p.after = some h ↔ reanalyzeHealth tools.env label p.staged = .ok (some h) := by
    intro h
    rw [hafter]
    exact analyzeHealth_eq_some
  refine ⟨⟨p.applied, happly⟩, hjust.staged, fun h hh ↦ hjust.no_regression h ((hsome h).mpr hh),
    fun hrisk ↦ hmatch.mp (hjust.strict (.inl hrisk)), ?_⟩
  rcases hjust.gain with hv | ⟨h, hh, hlt⟩ | ⟨hh, hterm⟩
  · exact .inl (hmatch.mp hv)
  · exact .inr (.inl ⟨h, (hsome h).mp hh, hlt⟩)
  · exact .inr (.inr ⟨(hsome _).mp hh, hterm⟩)

theorem foldl_settle_healthBefore (run : Run) (ps : List Pass) (st : PassState) :
    (ps.foldl run.settle st).aggregate.healthBefore = st.aggregate.healthBefore := by
  rw [@Run.foldl_settle_figure run _ (·.healthBefore) (fun before _ ↦ before) (fun _ _ ↦ rfl)
    (fun _ _ ↦ rfl) ps st]
  exact List.foldl_fixed _

/-- What the passes of a run return, if anything: the staging of one of them, which the gate let
pass. -/
theorem returned_of_passes {run : Run} {ps : List Pass} {aggregate : RecoveryReport}
    (hps : run.passList = .ok ps) :
    let st := ps.foldl run.settle { aggregate }
    (st.outcome.bytes = none ∧ st.aggregate.strategiesApplied = aggregate.strategiesApplied ∧
      st.outcome.keptPlans = []) ∨
      ∃ p, st.outcome.bytes = some p.staged ∧ run.stage p.strategy = .ok p ∧ run.Justified p ∧
        p.strategy ∈ run.engine.allStrategies ∧
        p.strategy.name ∈ st.aggregate.strategiesApplied ∧
        st.outcome.keptPlans = p.strategy.plan run.analysis ∧
        st.outcome.outputVerified = p.verified ∧
        ∃ selected, run.select = .ok selected ∧ p.strategy ∈ selected := by
  obtain ⟨hstages, -, selected, rest, hselect, htake, -⟩ := Run.passList_spec hps
  dsimp only
  rw [run.foldl_settle_outcome, run.foldl_settle_strategiesApplied]
  cases hlast : (ps.filter run.keeps).getLast? with
  | none =>
      rw [List.getLast?_eq_none_iff.mp hlast]
      exact .inl ⟨rfl, List.append_nil _, rfl⟩
  | some p =>
      obtain ⟨hp, hkeep⟩ := List.mem_filter.mp (List.mem_of_getLast? hlast)
      have hsel : p.strategy ∈ selected := by
        refine List.mem_of_mem_take (i := maxPasses) ?_
        rw [htake]
        exact List.mem_append_left _ (List.mem_map_of_mem hp)
      have hknown := (Run.select_sublist_names hselect).2 p.strategy hsel
      have hnames := run.engine.reportsItself p.strategy hknown run.source p.staged p.applied
        (Run.stage_measures (hstages p hp)).2.1
      refine .inr ⟨p, rfl, hstages p hp, (run.keeps_iff_justified p).mp hkeep, hknown, ?_, rfl, rfl,
        selected, hselect, hsel⟩
      refine List.mem_append_right _ (List.mem_flatMap.mpr ⟨p, List.mem_of_getLast? hlast, ?_⟩)
      rw [hnames.1]
      exact List.mem_singleton_self _

/-- Without findings there is nothing to select. -/
theorem runPasses_of_no_finding {source : Bytes} (hnone : result.corruptions = [])
    (hauto : options.forcedStrategy = none) (aggregate : RecoveryReport) :
    (streamRun tools source result label options).select = .error .noApplicableStrategy ∧
      (streamRun tools source result label options).runPasses aggregate =
        .error .noApplicableStrategy := by
  have hselect : (streamRun tools source result label options).select =
      .error .noApplicableStrategy := by
    have hcorruptions : (AnalysisResult.ofAnalyze result).corruptions = [] :=
      List.map_eq_nil_iff.mpr hnone
    unfold Run.select streamRun
    dsimp only
    rw [hauto]
    exact if_pos hcorruptions
  refine ⟨hselect, ?_⟩
  rw [Run.runPasses, hselect]
  rfl

/-- An analysis without findings leaves recovery nothing to do. -/
theorem recoverStream_of_no_finding
    (hresult : Analyze.Engine.analyzeSource tools.env input label.toList label.toList {} =
      .ok (.ok result)) (hnone : result.corruptions = [])
    (hauto : options.forcedStrategy = none) :
    recoverStream tools input label options = .ok (.ok (streamed input.bytes
      { aggregate := (streamRun tools input.bytes result label options).startReport "-" })) := by
  have hpasses : runPassesChecked tools (streamRun tools input.bytes result label options)
      ((streamRun tools input.bytes result label options).startReport "-") =
        .ok (.error .noApplicableStrategy) := by
    rw [runPassesChecked, (runPasses_of_no_finding hnone hauto (RecoveryReport.empty "-")).1]
  exact bind_eq_ok.mpr ⟨_, hresult, bind_eq_ok.mpr ⟨_, hpasses, rfl⟩⟩

/-- Nothing can be inflated, and nothing stands next to the label. -/
def bareToolbox : Toolbox where
  env := Analyze.Engine.bareEnvironment
  codec := ⟨⟨fun _ ↦ [(.err, 0)], fun b ↦ (Crc.crc32 b).toNat⟩, fun _ ↦ .error "unsupported"⟩
  describe := fun _ ↦ "corrupt deflate stream"
  readToEnd := fun _ ↦ ([], false)

/-- A recovered stream is the input, with no strategy claimed, or what one strategy of the registry
made of the input: never of lower health, and byte-verified, of higher health, or a salvage that
holds it. -/
theorem recoverStream_gated
    (h : recoverStream tools input label options = .ok (.ok (out, report))) :
    ∃ result, Analyze.Engine.analyzeSource tools.env input label.toList label.toList {} =
      .ok (.ok result) ∧ report.healthBefore = some result.healthScore.overall ∧
      (out = input.bytes ∧ report.strategiesApplied = [] ∨
        ∃ s ∈ allStrategies tools, s.name ∈ report.strategiesApplied ∧
          Gated tools input.bytes label options result s out) := by
  obtain ⟨result, hresult, run, st, hrun, hout, hst⟩ := recoverStream_cases h
  refine ⟨result, hresult, ?_⟩
  have hbefore : (run.startReport "-").healthBefore = some result.healthScore.overall := by
    rw [hrun]
    rfl
  rcases hst with hst | rfl
  · obtain ⟨ps, hps, rfl⟩ := run.runPasses_ok hst
    have hkept := foldl_settle_healthBefore run ps { aggregate := run.startReport "-" }
    unfold streamed at hout
    rcases returned_of_passes hps with ⟨hnone, hclaims, -⟩ |
      ⟨p, hbytes, hp, hjust, hknown, hclaims, -⟩
    · rw [hnone] at hout
      obtain ⟨rfl, rfl⟩ := Prod.mk.inj hout
      exact ⟨hkept.trans hbefore, .inl ⟨rfl, hclaims⟩⟩
    · rw [hbytes] at hout
      obtain ⟨rfl, rfl⟩ := Prod.mk.inj hout
      refine ⟨hkept.trans hbefore, .inr ⟨p.strategy, ?_, hclaims, gated_of_justified hrun hp hjust⟩⟩
      rw [hrun] at hknown
      exact hknown
  · obtain ⟨rfl, rfl⟩ := Prod.mk.inj hout
    exact ⟨hbefore, .inl ⟨rfl, rfl⟩⟩

/-- An archive of no file, with nothing left of its signature. -/
def overwrittenArchive : Analyze.DataSource where
  bytes := List.replicate 6 0x00 ++ [0x00, 0x04, 0x8D, 0x9B, 0xD5, 0x0F] ++ List.replicate 20 0x00
  addressable := by decide

theorem shows_overwrittenArchive :
    Analyze.Engine.shows (recoverStream bareToolbox overwrittenArchive "a.7z" {})
      (fun r ↦ (r.1, r.2.strategiesApplied)) =
        some (Sevenz.emptyFile, ["sevenz-signature-restore"]) := by
  decide +kernel

/-- What comes back is not the input, so the gate has let it pass. -/
theorem recoverStream_gated_overwrittenArchive : ∃ report result,
    recoverStream bareToolbox overwrittenArchive "a.7z" {} =
      .ok (.ok (Sevenz.emptyFile, report)) ∧
    Analyze.Engine.analyzeSource bareToolbox.env overwrittenArchive "a.7z".toList "a.7z".toList {} =
      .ok (.ok result) ∧ report.healthBefore = some result.healthScore.overall ∧
    ∃ s ∈ allStrategies bareToolbox, s.name ∈ report.strategiesApplied ∧
      Gated bareToolbox overwrittenArchive.bytes "a.7z" {} result s Sevenz.emptyFile := by
  obtain ⟨⟨out, report⟩, hrun, hshows⟩ := Analyze.Engine.exists_of_shows shows_overwrittenArchive
  obtain ⟨rfl, happlied⟩ := Prod.mk.inj hshows
  obtain ⟨result, hresult, hbefore, hkept⟩ := recoverStream_gated hrun
  refine ⟨report, result, hrun, hresult, hbefore, hkept.resolve_left fun hinput ↦ ?_⟩
  rw [hinput.2] at happlied
  cases happlied

/-! ## Selection and plans -/

/-- An automatic selection is made of the applicable strategies, for an analysis with defects. -/
theorem Run.select_auto {run : Run} {selected : List RecoveryStrategy}
    (hauto : run.options.forcedStrategy = none) (h : run.select = .ok selected) :
    run.analysis.corruptions ≠ [] ∧ selected =
      (run.engine.allStrategies.filter (·.canApply run.analysis)).insertionSort
        fun a b ↦ b.priority ≤ a.priority := by
  unfold Run.select at h
  rw [hauto] at h
  dsimp only at h
  split at h
  · cases h
  · rename_i hdefects
    split at h
    · cases h
    · exact ⟨hdefects, (Except.ok.inj h).symm⟩

theorem Run.mem_select_auto {run : Run} {selected : List RecoveryStrategy} {s : RecoveryStrategy}
    (hauto : run.options.forcedStrategy = none) (h : run.select = .ok selected) :
    s ∈ selected ↔ s ∈ run.engine.allStrategies ∧ s.canApply run.analysis = true := by
  rw [(Run.select_auto hauto h).2, List.mem_insertionSort, List.mem_filter]

/-- What recovery keeps it has announced: each kept plan repeats a finding of the analysis, it is
one of those that `plan` lists, and none of an inferred repair is kept unless the output has the
hash that the analysis expects. -/
theorem kept_planned {run : Run} {aggregate : RecoveryReport} {st : PassState}
    (hengine : run.engine = recoveryEngine tools) (hauto : run.options.forcedStrategy = none)
    (h : run.runPasses aggregate = .ok st) :
    st.outcome.keptPlans.Sublist (plan tools run.analysis) ∧
      ∀ q ∈ st.outcome.keptPlans,
        (∃ c ∈ run.analysis.corruptions, q.ruleId = c.ruleId ∧ q.targetRange = c.byteRange) ∧
        (q.risk = .inferred → st.outcome.outputVerified = true) := by
  obtain ⟨ps, hps, rfl⟩ := run.runPasses_ok h
  rcases returned_of_passes hps with ⟨-, -, hnil⟩ |
    ⟨p, -, -, hjust, -, -, hplans, hverified, selected, hselect, hsel⟩
  · rw [hnil]
    exact ⟨List.nil_sublist _, fun q hq ↦ absurd hq List.not_mem_nil⟩
  · rw [hplans, hverified]
    refine ⟨?_, fun q hq ↦ ?_⟩
    · have hselected := (Run.select_auto hauto hselect).2
      rw [hengine] at hselected
      obtain ⟨before, after, hsplit⟩ := List.append_of_mem hsel
      have hplan : plan tools run.analysis =
          before.flatMap (·.plan run.analysis) ++ (p.strategy.plan run.analysis ++
            after.flatMap (·.plan run.analysis)) := by
        change (((allStrategies tools).filter (·.canApply run.analysis)).insertionSort
          fun a b ↦ b.priority ≤ a.priority).flatMap (·.plan run.analysis) = _
        change selected = ((allStrategies tools).filter (·.canApply run.analysis)).insertionSort
          (fun a b ↦ b.priority ≤ a.priority) at hselected
        rw [← hselected, hsplit, List.flatMap_append, List.flatMap_cons]
      rw [hplan]
      exact ((List.prefix_append _ _).sublist).trans (List.sublist_append_right _ _)
    · obtain ⟨c, hc, rfl⟩ := List.mem_map.mp hq
      refine ⟨⟨c, List.mem_of_mem_filter hc, rfl, rfl⟩, fun hrisk ↦ ?_⟩
      exact hjust.strict (.inl hrisk)

/-- One byte that an analysis calls the rest of a longer file. -/
def truncatedRun : Run where
  engine := recoveryEngine bareToolbox
  source := [0x00]
  analysis := ⟨some .raw, .withoutManifest .sha256 "f00d", [⟨.truncation, .major, none, "EOF"⟩], 50⟩
  options := {}
  label := ""

theorem kept_planned_truncatedRun : ∃ st,
    truncatedRun.runPasses (truncatedRun.startReport "-") = .ok st ∧
      st.outcome.keptPlans.Sublist (plan bareToolbox truncatedRun.analysis) ∧
      ∀ q ∈ st.outcome.keptPlans,
        (∃ c ∈ truncatedRun.analysis.corruptions, q.ruleId = c.ruleId ∧
          q.targetRange = c.byteRange) ∧
        (q.risk = .inferred → st.outcome.outputVerified = true) := by
  have hselect : truncatedRun.select = .ok [partialExtraction] := rfl
  obtain ⟨p, hp⟩ : ∃ p, truncatedRun.stage partialExtraction = .ok p := ⟨_, rfl⟩
  obtain ⟨st, hst⟩ : ∃ st, truncatedRun.runPasses (truncatedRun.startReport "-") = .ok st := by
    rw [Run.runPasses, hselect]
    dsimp only [bind, Except.bind]
    rw [maxPasses, List.take_succ_cons, List.take_nil, Run.passes, hp]
    dsimp only [bind, Except.bind]
    split
    · exact ⟨_, rfl⟩
    · exact ⟨_, rfl⟩
  exact ⟨st, hst, kept_planned rfl rfl hst⟩

end VeraqisRecover.Recovery
