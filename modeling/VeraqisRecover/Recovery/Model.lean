import VeraqisRecover.Support.ByteString

/-!
# The recovery data model

Reports, plans and what the analysis tells recovery (`model.rs`, `plan.rs`, and
the fields of the analysis result that the engine and its strategies read).
-/

namespace VeraqisRecover.Recovery

abbrev FilePath := String

inductive HashType
  | sha256
  | sha3_512
  deriving DecidableEq, Repr

/-- Outcome of integrity verification for a single data stream. -/
structure IntegrityResult where
  hashType : HashType
  expectedHash : Option String
  actualHash : String
  isMatch : Bool
  manifestPresent : Bool
  deriving DecidableEq, Repr

/-- A result for data with no reference hash: there is nothing to match against. -/
def IntegrityResult.withoutManifest (hashType : HashType) (actualHash : String) :
    IntegrityResult :=
  ⟨hashType, none, actualHash, false, false⟩

inductive RecoveryError
  | io (path : FilePath) (source : String)
  | outputEqualsSource
  | noApplicableStrategy
  | strategy (strategy reason : String)
  deriving DecidableEq, Repr

/-! ## Plans -/

inductive RepairRisk
  | safe
  | inferred
  | lossy
  deriving DecidableEq, Repr

def RepairRisk.label : RepairRisk → String
  | safe => "Safe"
  | inferred => "Inferred"
  | lossy => "Lossy"

structure ByteRange where
  start : ℕ
  stop : ℕ
  deriving DecidableEq, Repr

/-- A single planned repair, keyed by the diagnosis rule it addresses. -/
structure RepairPlan where
  ruleId : String
  technique : String
  targetRange : Option ByteRange
  predictedOutcome : String
  risk : RepairRisk
  deriving DecidableEq, Repr

/-! ## The analysis -/

inductive ArchiveFormat
  | raw
  | zip
  | tar
  | iso9660
  | gzip
  | sqlite
  | sevenZ
  | rar
  | pdf
  | bzip2
  | xz
  | zstd
  | lz4
  deriving DecidableEq, Repr

inductive CorruptionCategory
  | missingData
  | bitFlip
  | blockReorder
  | truncation
  | paddingMismatch
  | checksumMismatch
  | structuralCorruption
  | securityThreat
  deriving DecidableEq, Repr

inductive Severity
  | benign
  | minor
  | major
  | catastrophic
  deriving DecidableEq, Repr

structure Corruption where
  category : CorruptionCategory
  severity : Severity
  byteRange : Option ByteRange
  ruleId : String
  deriving DecidableEq, Repr

structure AnalysisResult where
  archiveFormat : Option ArchiveFormat
  integrityResult : IntegrityResult
  corruptions : List Corruption
  overallHealth : ℕ
  deriving DecidableEq, Repr

/-! ## Reports -/

/-- The recovery summary each strategy produces and the engine folds together. -/
structure RecoveryReport where
  success : Bool := false
  outputPath : FilePath
  bytesRecovered : ℕ := 0
  bytesLost : ℕ := 0
  filesRecovered : List FilePath := []
  filesFailed : List FilePath := []
  strategiesApplied : List String := []
  postRecoveryIntegrity : Option IntegrityResult := none
  healthBefore : Option ℕ := none
  healthAfter : Option ℕ := none
  rolledBack : List String := []
  manifestPath : Option FilePath := none
  warnings : List String := []
  deriving DecidableEq, Repr

namespace RecoveryReport

def empty (outputPath : FilePath) : RecoveryReport := { outputPath }

/-- Append the files not listed yet, one at a time. -/
def pushNew (files : List FilePath) (f : FilePath) : List FilePath :=
  if f ∈ files then files else files ++ [f]

/-- Fold another strategy's report into this aggregate. -/
def merge (self other : RecoveryReport) : RecoveryReport :=
  { self with
    bytesRecovered := max self.bytesRecovered other.bytesRecovered
    bytesLost := other.bytesLost
    filesRecovered := other.filesRecovered.foldl pushNew self.filesRecovered
    filesFailed := other.filesFailed.foldl pushNew self.filesFailed
    strategiesApplied := self.strategiesApplied ++ other.strategiesApplied
    rolledBack := self.rolledBack ++ other.rolledBack
    healthAfter := other.healthAfter.or self.healthAfter
    warnings := self.warnings ++ other.warnings
    success := self.success || other.success }

end RecoveryReport

end VeraqisRecover.Recovery
