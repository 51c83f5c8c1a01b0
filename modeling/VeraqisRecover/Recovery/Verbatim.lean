import VeraqisRecover.Recovery.Passes

/-!
# Strategies that copy the source

Four of the strategies stage the source as it is: `bitflip`, `tar-reorder`,
`iso-sector` and `partial-extract`.  What they report differs; what the gate
sees of them does not.  A copy can be kept for a better health only if the
analysis of the same bytes under another name comes to a better health.
-/

namespace VeraqisRecover.Recovery

open ByteString

/-- A strategy stages every source as it is. -/
def RecoveryStrategy.Verbatim (s : RecoveryStrategy) : Prop :=
  ∀ source, ∃ report, s.apply source = .ok (source, report)

/-- Stage the source, and say why nothing was repaired. -/
def stageVerbatim (name warning : String) (source : Bytes) :
    Except RecoveryError (Bytes × RecoveryReport) :=
  .ok (source, { RecoveryReport.empty "" with
    strategiesApplied := [name]
    bytesRecovered := source.length
    warnings := [warning] })

def bitFlipCorrection : RecoveryStrategy where
  name := "bitflip"
  technique := "ReferenceVerify"
  risk := .inferred
  priority := 90
  handles := (·.category = .bitFlip)
  canApply := fun result ↦
    result.integrityResult.manifestPresent && result.corruptions.any (·.category = .bitFlip)
  predictedOutcome := fun _ ↦
    "verify the flipped region against the manifest (no ECC ⇒ confirm, not correct)"
  apply := stageVerbatim "bitflip" ("bitflip correction requires a per-block reference or ECC; " ++
    "staged source verbatim for verification")

def tarBlockReorder : RecoveryStrategy where
  name := "tar-reorder"
  technique := "BlockResequence"
  risk := .safe
  priority := 80
  handles := fun c ↦ "TAR_BLOCK".toList.isPrefixOf c.ruleId.toList
  canApply := fun result ↦
    result.archiveFormat = some .tar && result.corruptions.any (·.category = .blockReorder)
  predictedOutcome := fun _ ↦
    "stage individually-readable TAR blocks (reorder needs ordering metadata)"
  apply := stageVerbatim "tar-reorder" ("block reordering requires authoritative ordering " ++
    "metadata; staged readable blocks unchanged")

def isoSectorReconstruction : RecoveryStrategy where
  name := "iso-sector"
  technique := "SectorExtract"
  risk := .lossy
  priority := 70
  handles := fun c ↦ "ISO_SECTOR".toList.isPrefixOf c.ruleId.toList
  canApply := fun result ↦
    result.archiveFormat = some .iso9660 && result.corruptions.any (·.category = .missingData)
  predictedOutcome := fun _ ↦ "extract readable sectors; missing sectors need ECC to reconstruct"
  apply := stageVerbatim "iso-sector"
    "no ECC sectors present; staged readable sectors without reconstruction"

namespace PartialExtraction

def name : String := "partial-extract"

/-- Every byte of a stream in memory is readable. -/
def apply (source : Bytes) : Except RecoveryError (Bytes × RecoveryReport) :=
  let total := source.length
  let recovered := source.length
  let lost := total - recovered
  .ok (source, { RecoveryReport.empty "" with
    strategiesApplied := [name]
    bytesRecovered := recovered
    bytesLost := lost
    success := 0 < recovered
    warnings :=
      if 0 < lost then [s!"{lost} of {total} bytes were unreadable and omitted"] else [] })

end PartialExtraction

def partialExtraction : RecoveryStrategy where
  name := PartialExtraction.name
  technique := "TruncationSalvage"
  risk := .lossy
  priority := 30
  handles := (·.category = .truncation)
  canApply := fun result ↦ result.corruptions.any (·.category = .truncation)
  predictedOutcome := fun _ ↦
    "salvage every readable byte up to the truncation; lost tail is reported"
  apply := PartialExtraction.apply

def verbatimStrategies : List RecoveryStrategy :=
  [bitFlipCorrection, tarBlockReorder, isoSectorReconstruction, partialExtraction]

theorem verbatimStrategies_verbatim : ∀ s ∈ verbatimStrategies, s.Verbatim := by
  intro s hs source
  simp only [verbatimStrategies, List.mem_cons, List.not_mem_nil, or_false] at hs
  rcases hs with rfl | rfl | rfl | rfl <;> exact ⟨_, rfl⟩

theorem verbatimStrategies_reportsItself : ∀ s ∈ verbatimStrategies, s.ReportsItself := by
  intro s hs source staged report hrun
  simp only [verbatimStrategies, List.mem_cons, List.not_mem_nil, or_false] at hs
  rcases hs with rfl | rfl | rfl | rfl <;>
    obtain ⟨-, rfl⟩ := Prod.mk.inj (Except.ok.inj hrun) <;> exact ⟨rfl, rfl⟩

namespace Run

variable {run : Run}

/-- Where the copy is analysed as the source was, it is kept only if it matches the reference
hash, or as a salvage that holds the health. -/
theorem keeps_verbatim {s : RecoveryStrategy} {p : Pass} (hs : s ∈ verbatimStrategies)
    (hp : run.stage s = .ok p)
    (hsteady : run.engine.analyzeHealth run.label run.source = some run.baseHealth) :
    run.keeps p = true ↔ run.source ≠ [] ∧
      (p.verified = true ∨ s.name ∈ terminalStrategies ∧ s.risk ≠ .inferred) := by
  obtain ⟨hstrategy, happly, -, hafter⟩ := stage_measures hp
  obtain ⟨report, hreport⟩ := verbatimStrategies_verbatim s hs run.source
  obtain ⟨hstaged, -⟩ := Prod.mk.inj (Except.ok.inj (hreport.symm.trans happly))
  rw [reanalyzeHealth, ← hstaged, hsteady] at hafter
  rw [keeps_iff_justified]
  constructor
  · rintro ⟨hne, -, hstrict, hgain⟩
    refine ⟨hstaged ▸ hne, ?_⟩
    rw [hafter] at hgain hstrict
    rcases hgain with hv | ⟨h, heq, hlt⟩ | ⟨-, hterm⟩
    · exact .inl hv
    · exact absurd (Option.some.inj heq) (Nat.ne_of_lt hlt)
    · by_cases hv : p.verified = true
      · exact .inl hv
      · refine .inr ⟨hstrategy ▸ hterm, fun hrisk ↦ hv (hstrict (.inl ?_))⟩
        rw [hstrategy, hrisk]
  · rintro ⟨hne, hkeep⟩
    refine ⟨hstaged ▸ hne, fun h hh ↦ ?_, ?_, ?_⟩
    · rw [hafter] at hh
      exact (Option.some.inj hh).le
    · rw [hafter, hstrategy]
      rintro (hrisk | hnone)
      · rcases hkeep with hv | ⟨-, hrisk'⟩
        · exact hv
        · exact absurd hrisk hrisk'
      · cases hnone
    · rw [hafter, hstrategy]
      exact hkeep.imp_right fun h ↦ .inr ⟨rfl, h.1⟩

end Run

end VeraqisRecover.Recovery
