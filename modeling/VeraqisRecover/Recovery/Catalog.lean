import VeraqisRecover.Analyze.Verdict
import VeraqisRecover.Recovery.ForensicCarve
import VeraqisRecover.Recovery.GzRestore
import VeraqisRecover.Recovery.RollbackGate
import VeraqisRecover.Recovery.SevenzSignature
import VeraqisRecover.Recovery.TarChecksumFix
import VeraqisRecover.Recovery.TarContinuation
import VeraqisRecover.Recovery.TarSizeResync
import VeraqisRecover.Recovery.TarTerminator
import VeraqisRecover.Recovery.Verbatim
import VeraqisRecover.Recovery.ZipCrcFix
import VeraqisRecover.Recovery.ZipRebuild

/-!
# The recovery engine over the analysis engine

The registry of `strategies/mod.rs`, with the analysis engine behind selection
and the rollback gate, and the recovery of a stream (`recover_stream`).  Two of
the strategies and the analysis can be stopped by a fault.  A run is stopped by
the first one on its way, and is otherwise the run of the repair passes.
-/

namespace VeraqisRecover.Recovery

open ByteString Checked

/-! ## What the analysis says, as recovery reads it -/

def HashType.toAnalyze : HashType → Analyze.HashType
  | sha256 => .sha256
  | sha3_512 => .sha3_512

def HashType.ofAnalyze : Analyze.HashType → HashType
  | .sha256 => sha256
  | .sha3_512 => sha3_512

def ArchiveFormat.ofAnalyze : Analyze.ArchiveFormat → ArchiveFormat
  | .raw => raw
  | .zip => zip
  | .tar => tar
  | .iso9660 => iso9660
  | .gzip => gzip
  | .sqlite => sqlite
  | .sevenZ => sevenZ
  | .rar => rar
  | .pdf => pdf
  | .bzip2 => bzip2
  | .xz => xz
  | .zstd => zstd
  | .lz4 => lz4

def CorruptionCategory.ofAnalyze : Analyze.CorruptionCategory → CorruptionCategory
  | .missingData => missingData
  | .bitFlip => bitFlip
  | .blockReorder => blockReorder
  | .truncation => truncation
  | .paddingMismatch => paddingMismatch
  | .checksumMismatch => checksumMismatch
  | .structuralCorruption => structuralCorruption
  | .securityThreat => securityThreat

def Severity.ofAnalyze : Analyze.Severity → Severity
  | .benign => benign
  | .minor => minor
  | .major => major
  | .catastrophic => catastrophic

def IntegrityResult.ofAnalyze (hashType : Analyze.HashType) (r : Analyze.IntegrityResult) :
    IntegrityResult :=
  ⟨.ofAnalyze hashType, r.expectedHash.map String.ofList, String.ofList r.actualHash, r.isMatch,
    r.manifestPresent⟩

def Corruption.ofAnalyze (c : Analyze.Corruption) : Corruption :=
  ⟨.ofAnalyze c.category, .ofAnalyze c.severity, c.byteRange.map fun r ↦ ⟨r.start, r.stop⟩,
    c.chain.primary.ruleId⟩

def AnalysisResult.ofAnalyze (r : Analyze.AnalysisResult) : AnalysisResult :=
  ⟨r.archiveFormat.map .ofAnalyze, .ofAnalyze r.hashType r.integrityResult,
    r.corruptions.map .ofAnalyze, r.healthScore.overall⟩

def errorText : Analyze.EngineError → String
  | .io path source => s!"I/O error on {String.ofList path}: {source}"
  | .encrypted what => s!"input is encrypted and cannot be analyzed: {what}"
  | .manifest path reason => s!"manifest parse error in {String.ofList path}: {reason}"

/-! ## Strategies that a fault can stop -/

/-- What a stopped strategy leaves behind; no run gets to read it. -/
def stopped (name : String) : Except RecoveryError (Bytes × RecoveryReport) :=
  .error (.strategy name "stopped")

def settled (name : String) (x : Checked (Except RecoveryError (Bytes × RecoveryReport))) :
    Except RecoveryError (Bytes × RecoveryReport) :=
  x.toOption.getD (stopped name)

/-- Recover the verified members of a GZIP file. -/
def gzMemberSalvage (codec : GzCodec) : RecoveryStrategy where
  name := GzMemberSalvage.name
  technique := "GzMemberSalvage"
  risk := .lossy
  priority := 84
  handles := GzMemberSalvage.handles
  canApply := GzMemberSalvage.canApply
  predictedOutcome := fun _ ↦ "recover every CRC32+ISIZE-verified GZIP member and re-emit them " ++
    "as a valid .gz; drop the corrupt member"
  apply := fun source ↦ settled GzMemberSalvage.name (GzMemberSalvage.apply codec source)

namespace TarSizeBoundaryResync

/-- A panic is a copy of a size field of the wrong length. -/
def applyChecked (source : Bytes) : Checked (Except RecoveryError (Bytes × RecoveryReport)) :=
  match apply source with
  | some r => .ok r
  | none => .error .outOfRange

def handles (c : Corruption) : Bool :=
  c.ruleId = "TAR_SIZE_001" || c.category = .structuralCorruption

def canApply (result : AnalysisResult) : Bool :=
  result.archiveFormat = some .tar && result.corruptions.any fun c ↦
    c.ruleId = "TAR_SIZE_001" || c.ruleId = "TAR_UST_001" || c.category = .structuralCorruption

end TarSizeBoundaryResync

/-- Rebuild a TAR from the headers found at block boundaries. -/
def tarSizeBoundaryResync : RecoveryStrategy where
  name := TarSizeBoundaryResync.name
  technique := "SizeBoundaryResync"
  risk := .inferred
  priority := 78
  handles := TarSizeBoundaryResync.handles
  canApply := TarSizeBoundaryResync.canApply
  predictedOutcome := fun _ ↦ "scan 512-byte blocks for UStar magic, infer true sizes from " ++
    "header positions, rebuild archive with corrected size fields and checksums"
  apply := fun source ↦
    settled TarSizeBoundaryResync.name (TarSizeBoundaryResync.applyChecked source)

theorem gzMemberSalvage_reportsItself (codec : GzCodec) :
    (gzMemberSalvage codec).ReportsItself := by
  intro source staged report hrun
  simp only [gzMemberSalvage, GzMemberSalvage.apply] at hrun
  split at hrun
  · cases hrun
  · rename_i salvage _
    obtain ⟨rfl, rfl⟩ := Prod.mk.inj (Except.ok.inj hrun)
    exact GzMemberSalvage.emit_reportsItself codec salvage

theorem tarSizeBoundaryResync_reportsItself : tarSizeBoundaryResync.ReportsItself := by
  intro source staged report hrun
  simp only [tarSizeBoundaryResync, TarSizeBoundaryResync.applyChecked] at hrun
  split at hrun
  · rename_i r happly
    change r = _ at hrun
    subst hrun
    unfold TarSizeBoundaryResync.apply at happly
    split at happly
    · obtain ⟨-, rfl⟩ := Prod.mk.inj (Except.ok.inj (Option.some.inj happly))
      exact ⟨rfl, rfl⟩
    · obtain ⟨out, -, happly⟩ := Option.bind_eq_some_iff.mp happly
      obtain ⟨-, rfl⟩ := Prod.mk.inj (Except.ok.inj (Option.some.inj happly))
      exact ⟨rfl, rfl⟩
  · cases hrun

/-! ## The registry -/

/-- What recovery calls that is not its own code. -/
structure Toolbox where
  env : Analyze.Environment
  codec : GzCodec
  /-- The text of the decoder's error on a body. -/
  describe : Bytes → String
  readToEnd : ZipCrcFix.ReadToEnd

/-- All built-in strategies, unsorted. -/
def allStrategies (tools : Toolbox) : List RecoveryStrategy := [
  bitFlipCorrection,
  zipCentralDirectoryRebuild,
  zipCrcFix tools.readToEnd,
  tarChecksumFix,
  tarTerminatorAppend,
  tarSizeBoundaryResync,
  tarBlockReorder,
  gzMagicRestore,
  gzTrailerRecompute tools.codec.toGzDecoder tools.describe,
  gzMemberSalvage tools.codec,
  gzPartialInflate tools.codec,
  sevenZSignatureRestore,
  tarContinuationSalvage,
  isoSectorReconstruction,
  partialExtraction,
  forensicCarving]

theorem allStrategies_names (tools : Toolbox) : (allStrategies tools).map (·.name) =
    ["bitflip", "zip-rebuild", "zip-crc-fix", "tar-checksum-fix", "tar-terminator-append",
      "tar-size-resync", "tar-reorder", "gz-magic-restore", "gz-trailer-recompute",
      "gz-member-salvage", "gz-partial-inflate", "sevenz-signature-restore",
      "tar-continuation-salvage", "iso-sector", "partial-extract", "forensic-carve"] := rfl

theorem allStrategies_reportsItself (tools : Toolbox) :
    ∀ s ∈ allStrategies tools, s.ReportsItself := by
  have hverbatim := verbatimStrategies_reportsItself
  simp only [verbatimStrategies, List.forall_mem_cons] at hverbatim
  obtain ⟨hflip, hreorder, hsector, hpartial, -⟩ := hverbatim
  simp only [allStrategies, List.forall_mem_cons]
  exact ⟨hflip, zipRebuild_reportsItself, zipCrcFix_reportsItself _, tarChecksumFix_reportsItself,
    tarTerminatorAppend_reportsItself, tarSizeBoundaryResync_reportsItself, hreorder,
    gzMagicRestore_reportsItself, gzTrailerRecompute_reportsItself _ _,
    gzMemberSalvage_reportsItself _, gzPartialInflate_reportsItself _,
    sevenZSignatureRestore_reportsItself, tarContinuationSalvage_reportsItself, hsector, hpartial,
    forensicCarving_reportsItself, List.forall_mem_nil _⟩

/-- Re-analyze staged bytes in memory; the target is called `recovered`, the label is the run's. -/
def reanalyzeHealth (env : Analyze.Environment) (label : FilePath) (staged : Bytes) :
    Checked (Option ℕ) :=
  if h : staged.length < 2 ^ 63 then do
    match ← Analyze.Engine.analyzeSource env ⟨staged, h⟩ "recovered".toList label.toList {} with
    | .ok result => return some result.healthScore.overall
    | .error _ => return none
  else .error .capacity

def hashSource (env : Analyze.Environment) (hashType : HashType) (staged : Bytes) :
    Except RecoveryError String :=
  .ok (String.ofList (Analyze.toHex (env.digest hashType.toAnalyze staged)))

/-- The engine with the registry and the analysis. -/
def recoveryEngine (tools : Toolbox) : RecoveryEngine where
  allStrategies := allStrategies tools
  names_nodup := by
    rw [allStrategies_names]
    decide
  reportsItself := allStrategies_reportsItself tools
  hashSource := hashSource tools.env
  analyzeHealth := fun label staged ↦ (reanalyzeHealth tools.env label staged).toOption.join

/-! ## Faults on the way of a run -/

def faultOf {α : Type} : Checked α → Option Fault
  | .ok _ => none
  | .error fault => some fault

/-- What stops a strategy on a source. -/
def strategyFault (tools : Toolbox) (name : String) (source : Bytes) : Option Fault :=
  if name = GzMemberSalvage.name then faultOf (GzMemberSalvage.apply tools.codec source)
  else if name = TarSizeBoundaryResync.name then
    faultOf (TarSizeBoundaryResync.applyChecked source)
  else none

/-- What stops a pass: the strategy, or the analysis of what it staged. -/
def passFault (tools : Toolbox) (run : Run) (s : RecoveryStrategy) : Option Fault :=
  (strategyFault tools s.name run.source).or <|
    match s.apply run.source with
    | .ok (staged, _) => faultOf (reanalyzeHealth tools.env run.label staged)
    | .error _ => none

/-- The first fault of the passes over a list of strategies. -/
def runFault (tools : Toolbox) (run : Run) : List RecoveryStrategy → Option Fault
  | [] => none
  | s :: rest => (passFault tools run s).or <|
      match run.stage s with
      | .ok p => if run.stops p then none else runFault tools run rest
      | .error _ => none

/-- The repair passes, up to the first fault. -/
def runPassesChecked (tools : Toolbox) (run : Run) (aggregate : RecoveryReport) :
    Checked (Except RecoveryError PassState) :=
  match run.select with
  | .error e => .ok (.error e)
  | .ok selected =>
      match runFault tools run (selected.take maxPasses) with
      | some fault => .error fault
      | none => .ok (run.runPasses aggregate)

/-! ## Streams -/

/-- The run about an analyzed stream. -/
def streamRun (tools : Toolbox) (input : Bytes) (result : Analyze.AnalysisResult)
    (label : FilePath) (options : RecoveryOptions) : Run where
  engine := recoveryEngine tools
  source := input
  analysis := .ofAnalyze result
  options := options
  label := label

/-- The kept bytes, or the input as it came. -/
def streamed (input : Bytes) (st : PassState) : Bytes × RecoveryReport :=
  match st.outcome.bytes with
  | some bytes => (bytes, { st.aggregate with outputPath := "-" })
  | none => (input, { st.aggregate with
      outputPath := "-"
      warnings := st.aggregate.warnings ++
        ["no repair applied; stream passed through unchanged"] })

/-- Recover an in-memory stream. -/
def recoverStream (tools : Toolbox) (input : Analyze.DataSource) (label : FilePath)
    (options : RecoveryOptions) : Checked (Except RecoveryError (Bytes × RecoveryReport)) := do
  match ← Analyze.Engine.analyzeSource tools.env input label.toList label.toList {} with
  | .error e => return .error (.strategy "analyze" (errorText e))
  | .ok result =>
      let run := streamRun tools input.bytes result label options
      let aggregate := run.startReport "-"
      match ← runPassesChecked tools run aggregate with
      | .error .noApplicableStrategy => return .ok (streamed input.bytes { aggregate })
      | .error e => return .error e
      | .ok st => return .ok (streamed input.bytes st)

/-- The plans that the applicable strategies announce, by falling priority. -/
def plan (tools : Toolbox) (analysis : AnalysisResult) : List RepairPlan :=
  (((allStrategies tools).filter (·.canApply analysis)).insertionSort
    fun a b ↦ b.priority ≤ a.priority).flatMap (·.plan analysis)

/-! ## What a recovery comes from -/

section Stream

variable {tools : Toolbox} {run : Run} {aggregate : RecoveryReport}

theorem runPassesChecked_eq_ok {x : Except RecoveryError PassState}
    (h : runPassesChecked tools run aggregate = .ok x) : x = run.runPasses aggregate := by
  unfold runPassesChecked at h
  split at h
  · rename_i e hselect
    obtain rfl := Except.ok.inj h
    rw [Run.runPasses, hselect]
    rfl
  · split at h
    · cases h
    · exact (Except.ok.inj h).symm

/-- A returned stream comes from an analysis of the input and from the passes of its run, unless
no strategy applied. -/
theorem recoverStream_cases {input : Analyze.DataSource} {label : FilePath}
    {options : RecoveryOptions} {out : Bytes} {report : RecoveryReport}
    (h : recoverStream tools input label options = .ok (.ok (out, report))) :
    ∃ result, Analyze.Engine.analyzeSource tools.env input label.toList label.toList {} =
      .ok (.ok result) ∧ ∃ run st, run = streamRun tools input.bytes result label options ∧
        (out, report) = streamed input.bytes st ∧
        (run.runPasses (run.startReport "-") = .ok st ∨
          st = { aggregate := run.startReport "-" }) := by
  obtain ⟨analyzed, hanalyzed, h⟩ := bind_eq_ok.mp h
  cases analyzed with
  | error e => cases h
  | ok result =>
      refine ⟨result, hanalyzed, ?_⟩
      obtain ⟨x, hx, h⟩ := bind_eq_ok.mp h
      cases x with
      | ok st =>
          exact ⟨_, st, rfl, (Except.ok.inj (Except.ok.inj h)).symm,
            .inl (runPassesChecked_eq_ok hx).symm⟩
      | error e =>
          cases e with
          | noApplicableStrategy =>
              exact ⟨_, _, rfl, (Except.ok.inj (Except.ok.inj h)).symm, .inr rfl⟩
          | io path source => cases h
          | outputEqualsSource => cases h
          | strategy name reason => cases h

end Stream

end VeraqisRecover.Recovery
