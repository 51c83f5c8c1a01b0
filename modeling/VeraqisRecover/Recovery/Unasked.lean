import VeraqisRecover.Recovery.SevenzRestoration

/-!
# What recovery leaves alone

A file without defects is handed back as it came.  And three strategies are never
asked: the detector reports neither bit flips nor reordered blocks, and of a raw
file only that it is not the one a manifest lists.  They stay in the registry for
callers that name them.
-/

namespace VeraqisRecover.Recovery

open ByteString Checked

variable {tools : Toolbox} {input : Analyze.DataSource} {label : FilePath}
  {options : RecoveryOptions} {result : Analyze.AnalysisResult}

/-! ## Files without defects -/

/-- Recovery of a file without defects hands it back, and claims nothing. -/
theorem recoverStream_of_pristine {format : Analyze.ArchiveFormat}
    (hbare : Unlisted tools.env label) (hauto : options.forcedStrategy = none)
    (h : Pristine tools.env input format) :
    ∃ report, recoverStream tools input label options = .ok (.ok (input.bytes, report)) ∧
      report.strategiesApplied = [] ∧ report.healthBefore = some 100 := by
  obtain ⟨capped, hdetect⟩ := h.clean (tools.env.wal label.toList)
    (Analyze.Integrity.run tools.env input .sha256) 1000 (integrity_unlisted _ _)
  obtain ⟨result, hresult, hanalysis, hfull⟩ := analyzed_of_detect hbare
    (h.identified label.toList) h.readable hdetect
  have hnone : result.corruptions.map Corruption.ofAnalyze = [] :=
    congrArg AnalysisResult.corruptions hanalysis
  refine ⟨_, recoverStream_of_no_finding hresult (List.map_eq_nil_iff.mp hnone) hauto, rfl, ?_⟩
  exact congrArg some (hfull.mpr rfl)

theorem recoverStream_of_pristine_emptyArchive :
    ∃ report, recoverStream bareToolbox emptyArchive "a.gz" {} =
      .ok (.ok (emptyArchive.bytes, report)) ∧
        report.strategiesApplied = [] ∧ report.healthBefore = some 100 := by
  have hclean : Analyze.ReportsNoDefect bareToolbox.env.inflate emptyArchive .sevenZ :=
    Analyze.reportsNoDefect_of_nil fun _ _ ↦ emptyArchive_clean
  exact recoverStream_of_pristine rfl rfl
    (pristine_of_intact hclean (intact_of_clean hclean (by decide)))

/-! ## Strategies without findings -/

/-- A raw file is only ever at odds with a manifest. -/
theorem raw_findings {env : Analyze.Environment} {s : Analyze.DataSource} {path : Text}
    {integrity : Analyze.IntegrityResult} {verify : Bool} {max : ℕ} {found : List Analyze.Detected}
    {capped : Bool} (h : Analyze.detect env.inflate (env.wal path) s .raw integrity verify max =
      .ok (found, capped)) :
    ∀ d ∈ found, d.kind = .manifestHashMismatch ∧ d.ruleIdOverride = none := by
  obtain ⟨out, hout, h⟩ := bind_eq_ok.mp h
  obtain rfl := Except.ok.inj hout
  obtain ⟨all, hall, h⟩ := bind_eq_ok.mp h
  obtain ⟨rfl, -⟩ := Prod.mk.inj (Except.ok.inj h)
  intro d hd
  have hd := List.mem_of_mem_take hd
  unfold Analyze.manifestDefect at hall
  split at hall
  · obtain ⟨location, -, hall⟩ := bind_eq_ok.mp hall
    obtain rfl := Except.ok.inj hall
    rw [List.nil_append, List.mem_singleton] at hd
    subst hd
    exact ⟨rfl, rfl⟩
  · obtain rfl := Except.ok.inj hall
    cases hd

theorem manifest_rule_not_catastrophic : ∀ entry,
    Analyze.rule Analyze.DefectKind.manifestHashMismatch.ruleId = some entry →
      entry.defaultSeverity ≠ .catastrophic := by
  have hrule : (Analyze.rule Analyze.DefectKind.manifestHashMismatch.ruleId).map
      (·.defaultSeverity) = some .major := by decide
  intro entry hentry hsevere
  rw [hentry, Option.map_some, hsevere] at hrule
  cases hrule

/-- Strategies that no analysis without a reference ever asks. -/
def unasked : List String := ["bitflip", "tar-reorder", "forensic-carve"]

theorem eq_of_name {s t : RecoveryStrategy} (hs : s ∈ allStrategies tools)
    (ht : t ∈ allStrategies tools) (h : s.name = t.name) : s = t :=
  List.inj_on_of_nodup_map (recoveryEngine tools).names_nodup hs ht h

theorem mem_unasked {s : RecoveryStrategy} (hs : s ∈ allStrategies tools)
    (hname : s.name ∈ unasked) :
    s = bitFlipCorrection ∨ s = tarBlockReorder ∨ s = forensicCarving := by
  simp only [unasked, List.mem_cons, List.not_mem_nil, or_false] at hname
  rcases hname with hname | hname | hname
  · exact .inl (eq_of_name hs (by simp [allStrategies]) hname)
  · exact .inr (.inl (eq_of_name hs (by simp [allStrategies]) hname))
  · exact .inr (.inr (eq_of_name hs (by simp [allStrategies]) hname))

theorem category_ofAnalyze {c : Analyze.Corruption} (hflip : c.category ≠ .bitFlip)
    (hreorder : c.category ≠ .blockReorder) : (Corruption.ofAnalyze c).category ≠ .bitFlip ∧
      (Corruption.ofAnalyze c).category ≠ .blockReorder := by
  change CorruptionCategory.ofAnalyze c.category ≠ _ ∧ CorruptionCategory.ofAnalyze c.category ≠ _
  cases hc : c.category with
  | bitFlip => exact absurd hc hflip
  | blockReorder => exact absurd hc hreorder
  | missingData => exact ⟨nofun, nofun⟩
  | truncation => exact ⟨nofun, nofun⟩
  | paddingMismatch => exact ⟨nofun, nofun⟩
  | checksumMismatch => exact ⟨nofun, nofun⟩
  | structuralCorruption => exact ⟨nofun, nofun⟩
  | securityThreat => exact ⟨nofun, nofun⟩

theorem severity_ofAnalyze {c : Analyze.Corruption} :
    (Corruption.ofAnalyze c).severity = .catastrophic ↔ c.severity = .catastrophic := by
  change Severity.ofAnalyze c.severity = _ ↔ _
  cases c.severity <;> simp [Severity.ofAnalyze]

/-- Left to itself, a stream recovery never asks the strategies for bit flips, for reordered blocks
and for carving: the detector reports neither of the first two, and of a raw file only that it is
not the one a manifest lists. -/
theorem select_unasked
    (h : Analyze.Engine.analyzeSource tools.env input label.toList label.toList {} =
      .ok (.ok result)) (hauto : options.forcedStrategy = none) {selected : List RecoveryStrategy}
    (hselect : (streamRun tools input.bytes result label options).select = .ok selected) :
    ∀ s ∈ selected, s.name ∉ unasked := by
  obtain ⟨format, found, capped, hformat, hdetect, hall, hfound⟩ :=
    Analyze.Engine.analyzeSource_reports rfl h
  have hdefects := (Run.select_auto hauto hselect).1
  intro s hs hname
  obtain ⟨hknown, hcan⟩ := (Run.mem_select_auto hauto hselect).mp hs
  change s ∈ allStrategies tools at hknown
  change s.canApply (.ofAnalyze result) = true at hcan
  change (AnalysisResult.ofAnalyze result).corruptions ≠ [] at hdefects
  have hcategory : ∀ c ∈ (AnalysisResult.ofAnalyze result).corruptions,
      c.category ≠ .bitFlip ∧ c.category ≠ .blockReorder := by
    intro _ hc
    obtain ⟨c, hmem, rfl⟩ := List.mem_map.mp hc
    obtain ⟨d, hd, hreports⟩ := Analyze.exists_of_forall₂ hall hmem
    obtain ⟨hflip, hreorder, -⟩ := hreports.standing (hfound d hd)
    exact category_ofAnalyze hflip hreorder
  rcases mem_unasked hknown hname with rfl | rfl | rfl
  · obtain ⟨-, hany⟩ := Bool.and_eq_true_iff.mp hcan
    obtain ⟨c, hc, hflip⟩ := List.any_eq_true.mp hany
    exact (hcategory c hc).1 (of_decide_eq_true hflip)
  · obtain ⟨-, hany⟩ := Bool.and_eq_true_iff.mp hcan
    obtain ⟨c, hc, hreorder⟩ := List.any_eq_true.mp hany
    exact (hcategory c hc).2 (of_decide_eq_true hreorder)
  · obtain ⟨hraw, hworst⟩ := Bool.and_eq_true_iff.mp hcan
    have hraw : format = .raw := by
      change (decide ((result.archiveFormat.map ArchiveFormat.ofAnalyze) = some .raw) ||
        decide ((result.archiveFormat.map ArchiveFormat.ofAnalyze) = none)) = true at hraw
      rw [hformat] at hraw
      cases format <;> first | rfl | exact absurd hraw (by decide)
    subst hraw
    rcases Bool.or_eq_true_iff.mp hworst with hany | hempty
    · obtain ⟨_, hc, hsevere⟩ := List.any_eq_true.mp hany
      obtain ⟨c, hmem, rfl⟩ := List.mem_map.mp hc
      obtain ⟨d, hd, hreports⟩ := Analyze.exists_of_forall₂ hall hmem
      obtain ⟨entry, hentry, -, -, hseverity⟩ := hreports.named
      obtain ⟨hkind, hoverride⟩ := raw_findings hdetect d hd
      rw [hoverride, Option.getD_none, hkind] at hentry
      refine manifest_rule_not_catastrophic entry hentry (hseverity.symm.trans ?_)
      exact severity_ofAnalyze.mp (of_decide_eq_true hsevere)
    · exact hdefects (List.isEmpty_iff.mp hempty)

theorem select_unasked_overwrittenArchive : ∃ result selected,
    Analyze.Engine.analyzeSource bareToolbox.env overwrittenArchive "a.7z".toList "a.7z".toList {} =
      .ok (.ok result) ∧
      (streamRun bareToolbox overwrittenArchive.bytes result "a.7z" {}).select = .ok selected ∧
        ∀ s ∈ selected, s.name ∉ unasked := by
  have hfirst : FirstAsked bareToolbox overwrittenArchive "a.7z" {} sevenZSignatureRestore :=
    firstAsked_signature rfl rfl (by decide) detect_overwrittenArchive
  obtain ⟨result, hresult, -, rest, hselect⟩ := hfirst.analyzed
  exact ⟨result, _, hresult, hselect, select_unasked hresult rfl hselect⟩

end VeraqisRecover.Recovery
