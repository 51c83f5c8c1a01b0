import VeraqisRecover.Analyze.Detector
import VeraqisRecover.Analyze.HashManifest
import VeraqisRecover.Analyze.Hasher
import VeraqisRecover.Analyze.HealthScore
import VeraqisRecover.Analyze.Recoverability
import VeraqisRecover.Analyze.ReferenceScan
import VeraqisRecover.FormatId.Detection

/-!
# The analysis engine

`engine.rs` and the stages of `pipeline/`: format, integrity, corruption scan, reference diff,
health, recoverability and the results of the members.  What is read besides the target, and the
parts of other crates, are the environment of a run.
-/

namespace VeraqisRecover.Analyze

open ByteString Checked FormatId HashManifest LossyUtf8

/-! ## Paths -/

/-- The named components of a path: empty ones and dots are skipped. -/
def pathParts (path : Text) : List Text :=
  (path.splitOn '/').filter fun part ↦ part ≠ [] ∧ part ≠ ['.']

/-- `Path::file_name` -/
def fileName (path : Text) : Option Text :=
  (pathParts path).getLast?.filter fun part ↦ part ≠ ['.', '.']

/-- What two paths are compared by. -/
def pathComponents (path : Text) : Bool × Bool × List Text :=
  (path.head? = some '/', (path.splitOn '/').head? = some ['.'], pathParts path)

/-- `Path::extension`: what follows the last dot of the name, unless it starts there. -/
def fileExtension (path : Text) : Option Text := do
  let name ← fileName path
  let back := (name.reverse.takeWhile (· ≠ '.')).reverse
  if back.length + 1 < name.length then some back else none

/-! ## What a run is given -/

/-- What the engine reads beside the target, and what it calls. -/
structure Environment where
  /-- The text of a file that exists, or why it cannot be read. -/
  readToString : Text → Option (Except String Text)
  readFile : Text → Except String DataSource
  /-- The write-ahead log that belongs to a database. -/
  wal : Text → Option (Option Bytes)
  inflate : Bytes → Bytes × Bool
  digest : HashType → Bytes → Bytes
  rounding : Rounding
  tenths : ℚ → String
  percent : ℚ → String
  newV4 : ℕ → ℕ

/-- Default cap on reported corruptions. -/
def DEFAULT_MAX_CORRUPTIONS : ℕ := 1000

/-- Tuning knobs of an analysis run. -/
structure AnalysisConfig where
  hashType : HashType := .sha256
  verifyEmbeddedChecksums : Bool := true
  maxCorruptionsReported : ℕ := DEFAULT_MAX_CORRUPTIONS
  reference : Option Text := none
  deriving DecidableEq, Repr

inductive EngineError
  | io (path : Text) (source : String)
  | encrypted (what : String)
  | manifest (path : Text) (reason : String)
  deriving DecidableEq, Repr

/-- Per-member result. -/
structure FileResult where
  path : Text
  sizeBytes : ℕ
  corruptions : List Corruption
  healthScore : Health.HealthScore
  recoverabilityScore : Recoverability.RecoverabilityScore
  deriving DecidableEq, Repr

/-- Complete result of analyzing one target. -/
structure AnalysisResult where
  targetPath : Text
  totalSizeBytes : ℕ
  archiveFormat : Option ArchiveFormat
  hashType : HashType
  integrityResult : IntegrityResult
  corruptions : List Corruption
  healthScore : Health.HealthScore
  recoverabilityScore : Recoverability.RecoverabilityScore
  perFileResults : List FileResult
  warnings : List String
  deriving DecidableEq, Repr

/-! ## Integrity -/

def HashType.manifestExtension : HashType → String
  | sha256 => "sha256"
  | sha3_512 => "sha3_512"

/-- The path of the manifest next to a target. -/
def sidecarPath (target : Text) (hashType : HashType) : Text :=
  target ++ '.' :: hashType.manifestExtension.toList

namespace Integrity

variable (env : Environment)

/-- The digest of a source, as one pass over it computes it. -/
def run (s : DataSource) (hashType : HashType) : IntegrityResult :=
  ⟨false, none, toHex (env.digest hashType s.bytes), false⟩

/-- A result compared with the entry of a manifest, if it has one. -/
def compare (result : IntegrityResult) (manifest : Manifest) (lookupName : Text) :
    IntegrityResult :=
  match manifest.lookup lookupName with
  | some expected =>
      let expected := expected.map Char.toLower
      ⟨true, some expected, result.actualHash, expected = result.actualHash⟩
  | none => { result with manifestPresent := true }

/-- Compare against the sidecar manifest of `target`, if there is one. -/
def runWithManifest (s : DataSource) (target lookupName : Text) (hashType : HashType) :
    Except EngineError IntegrityResult :=
  let path := sidecarPath target hashType
  match env.readToString path with
  | none => .ok (run env s hashType)
  | some (.error reason) => .error (.manifest path reason)
  | some (.ok text) => .ok (compare (run env s hashType) (.parse path text) lookupName)

/-- Stage 3. -/
def scan (s : DataSource) (target : Text) (config : AnalysisConfig) :
    Except EngineError IntegrityResult :=
  runWithManifest env s target ((fileName target).getD []) config.hashType

end Integrity

/-! ## Corruptions -/

/-- Outcome of the corruption scan. -/
structure ScanResult where
  corruptions : List Corruption
  capped : Bool
  lowConfidenceDropped : ℕ
  deriving DecidableEq, Repr

namespace Pipeline

variable (env : Environment)

/-- Stage 4: detect, classify, and merge. -/
def scan (s : DataSource) (path : Text) (format : ArchiveFormat) (integrity : IntegrityResult)
    (config : AnalysisConfig) : Checked ScanResult := do
  let (detected, capped) ← detect env.inflate (env.wal path) s format integrity
    config.verifyEmbeddedChecksums config.maxCorruptionsReported
  let classified ← Reference.classifyAll env.rounding env.percent env.newV4 0 detected
  let lowConfidenceDropped ← sub detected.length classified.length
  let corruptions ← mergeAdjacent env.percent classified
  return ⟨corruptions, capped, lowConfidenceDropped⟩

/-- Structure-missing rules that a truncation necessarily induces. -/
def SYMPTOMS : List String :=
  ["ZIP_EOCD_001", "ZIP_EOCD_002", "ZIP_EOCD_003", "ZIP_CD_001", "ZIP_CD_002", "ZIP_CD_003",
    "ZIP_LFH_001", "TAR_TERM_001", "TAR_UST_001", "ISO_PVD_001"]

/-- A rule id that contains `TRUNC`. -/
def isTruncation (c : Corruption) : Bool :=
  c.chain.primary.ruleId.toList.tails.any ("TRUNC".toList.isPrefixOf ·)

/-- Collapse double-counted truncation symptoms. -/
def suppressTruncationSymptoms (corruptions : List Corruption) : List Corruption :=
  if corruptions.any isTruncation then
    corruptions.filter fun c ↦ isTruncation c || !decide (c.chain.primary.ruleId ∈ SYMPTOMS)
  else corruptions

/-- The label of the reference diff, by the extension of the target. -/
def formatLabelForExt (ext : Text) : String :=
  match String.ofList (toAsciiLowercase ext) with
  | "zip" => "ZIP"
  | "tar" => "TAR"
  | "iso" => "ISO"
  | "gz" => "GZIP"
  | "bz2" => "BZIP2"
  | "xz" => "XZ"
  | "zst" => "ZSTD"
  | "lz4" => "LZ4"
  | "rar" => "RAR"
  | "7z" => "7Z"
  | "pdf" => "PDF"
  | "db" | "sqlite" | "sqlite3" => "SQLite"
  | _ => "*"

/-- The reference diff, if the reference can be read.  The scan has drawn its identifiers. -/
def referenceFindings (s : DataSource) (target : Text) (config : AnalysisConfig)
    (reference : Text) : Checked (Except String (List Corruption)) :=
  match env.readFile reference with
  | .error reason => return .error reason
  | .ok clean => do
      let found ← Reference.scanReference env.rounding env.tenths
        (formatLabelForExt ((fileExtension target).getD [])) s.bytes clean.bytes env.percent
        fun n ↦ env.newV4 (config.maxCorruptionsReported + n)
      return .ok found

/-- Structural findings with those of the reference diff, and the warning of a diff that was
skipped. -/
def combine (corruptions : List Corruption) : Except String (List Corruption) →
    List Corruption × List String
  | .ok found => (corruptions ++ found, [])
  | .error e => (corruptions, [s!"reference diff skipped: {e}"])

def withReference (s : DataSource) (target : Text) (config : AnalysisConfig)
    (corruptions : List Corruption) : Checked (List Corruption × List String) :=
  match config.reference with
  | none => return (corruptions, [])
  | some reference => do
      let findings ← referenceFindings env s target config reference
      let (all, warnings) := combine corruptions findings
      let merged ← mergeAdjacent env.percent all
      return (suppressTruncationSymptoms merged, warnings)

end Pipeline

/-! ## Members -/

/-- The bytes of a name up to its terminator, and no more than `256` of them. -/
def gzNameLoop (s : DataSource) : ℕ → ℕ → Checked (Option Bytes)
  | 0, _ => return some []
  | left + 1, pos => do
      match ← s.readExactAt pos 1 with
      | none => return none
      | some b =>
          let first ← index b 0
          if first = 0 then return some []
          else do
            let pos ← add 64 pos 1
            let rest ← gzNameLoop s left pos
            return rest.map (first :: ·)

/-- Where the optional name stands: behind the extra field. -/
def gzNameStart (s : DataSource) (fextra : Bool) : Checked (Option ℕ) :=
  if fextra then do
    match ← s.readExactAt 10 2 with
    | none => return none
    | some b =>
        let xlen ← leAt 2 b 0
        let skip ← add 64 2 xlen
        let pos ← add 64 10 skip
        return some pos
  else return some 10

/-- The optional original filename. -/
def gzOriginalName (s : DataSource) : Checked (Option Text) := do
  match ← s.readExactAt 0 10 with
  | none => return none
  | some head =>
      let id1 ← index head 0
      let id2 ← index head 1
      let flags ← index head 3
      if id1 ≠ 0x1F ∨ id2 ≠ 0x8B ∨ flags &&& 0x08 = 0 then return none
      else do
        match ← gzNameStart s (flags &&& 0x04 ≠ 0) with
        | none => return none
        | some pos =>
            let name ← gzNameLoop s 256 pos
            return (name.filter (· ≠ [])).map fromUtf8Lossy

/-- A member without a checksum of its own that is no link. -/
def plainEntry (path : Text) (size compressedSize offset : ℕ) : ArchiveEntry where
  path := path
  size := size
  compressedSize := compressedSize
  offset := offset
  encrypted := false
  storedCrc32 := none
  isLink := false
  linkTarget := none

/-- The members a reader of a format enumerates in a source at `path`. -/
def entriesOf (s : DataSource) (path : Text) (format : ArchiveFormat) :
    Checked (List ArchiveEntry) :=
  match format with
  | .zip => do
      let parse ← ZipReader.parse s
      return if parse.eocdOffset.isNone then [] else parse.entries
  | .tar => do
      let parse ← TarReader.parse s
      return parse.entries
  | .iso9660 => do
      let parse ← IsoReader.parse s
      if parse.pvdPresent then
        let size ← mul 64 parse.volumeSpaceSectors 2048
        return [plainEntry "[iso-volume]".toList size s.len 0]
      else return []
  | .gzip => do
      let name ← gzOriginalName s
      return [plainEntry (name.getD "content".toList) 0 (s.len - 18) 10]
  | .sqlite => return []
  | .raw | .sevenZ | .rar | .pdf | .bzip2 | .xz | .zstd | .lz4 =>
      return [plainEntry path s.len s.len 0]

namespace Report

variable (env : Environment)

/-- Container corruptions whose path is that of a member. -/
def attributed (corruptions : List Corruption) (path : Text) : List Corruption :=
  corruptions.filter fun c ↦
    c.location.filePath.any fun p ↦ pathComponents p = pathComponents path

def memberInputs (corruptions : List Corruption) (entry : ArchiveEntry) :
    Recoverability.Inputs where
  corruptions := corruptions
  format := none
  manifestPresent := false
  embeddedChecksumsPresent := entry.storedCrc32.isSome
  totalSize := max entry.size 1
  scanCapped := false
  ioErrors := false
  formatDetectionFailed := false

def fileResult (corruptions : List Corruption) (entry : ArchiveEntry) : Checked FileResult := do
  let own := attributed corruptions entry.path
  let healthScore ← Health.score own
  let recoverabilityScore ← Recoverability.estimate env.rounding (memberInputs own entry)
  return ⟨entry.path, entry.size, own, healthScore, recoverabilityScore⟩

/-- Stage 7: results for the members of an archive. -/
def run (s : DataSource) (path : Text) (format : ArchiveFormat) (corruptions : List Corruption) :
    Checked (List FileResult) :=
  if format = .raw then return []
  else do
    let entries ← entriesOf s path format
    entries.mapM (fileResult env corruptions)

end Report

/-! ## The engine -/

/-- Files larger than this are warned about. -/
def LARGE_FILE_WARN_BYTES : ℕ := 10 * 1024 * 1024 * 1024

/-- An encrypted ZIP is flagged, never parsed further. -/
def ensureNotEncrypted (s : DataSource) : Checked (Except EngineError Unit) := do
  let parse ← ZipReader.parse s
  return if parse.entries.any (·.encrypted) then
      .error (.encrypted "ZIP contains encrypted members")
    else .ok ()

/-- Whether the format carries checksums of its members. -/
def embeddedChecksumsPresent (s : DataSource) (format : ArchiveFormat) : Checked Bool :=
  if format ≠ .zip then return false
  else do
    let entries ← entriesOf s [] format
    return entries.any (·.storedCrc32.isSome)

namespace Engine

variable (env : Environment)

/-- Everything after the integrity scan. -/
def assess (s : DataSource) (path label : Text) (config : AnalysisConfig)
    (format : ArchiveFormat) (integrity : IntegrityResult) : Checked AnalysisResult := do
  let scan ← Pipeline.scan env s path format integrity config
  let (corruptions, skipped) ← Pipeline.withReference env s label config scan.corruptions
  let healthScore ← Health.score corruptions
  let embedded ← embeddedChecksumsPresent s format
  let recoverabilityScore ← Recoverability.estimate env.rounding
    ⟨corruptions, some format, integrity.manifestPresent, embedded, s.len, scan.capped, false,
      false⟩
  let perFileResults ← Report.run env s path format corruptions
  let large := if LARGE_FILE_WARN_BYTES < s.len then
    [s!"target is {s.len} bytes (> 10 GiB); analysis may be slow"] else []
  let capped := if scan.capped then
    [s!"corruption scan stopped after {config.maxCorruptionsReported} findings"] else []
  return ⟨label, s.len, some format, config.hashType, integrity, corruptions, healthScore,
    recoverabilityScore, perFileResults, large ++ capped ++ skipped⟩

/-- Only a ZIP can be refused. -/
def refusal (s : DataSource) (format : ArchiveFormat) : Checked (Except EngineError Unit) :=
  if format = .zip then ensureNotEncrypted s else return .ok ()

/-- Analyze a source at `path` under a label. -/
def analyzeSource (s : DataSource) (path label : Text) (config : AnalysisConfig) :
    Checked (Except EngineError AnalysisResult) := do
  let format ← FormatDetection.detect s path
  match ← refusal s format with
  | .error e => return .error e
  | .ok () =>
      match Integrity.scan env s label config with
      | .error e => return .error e
      | .ok integrity => do
          let result ← assess env s path label config format integrity
          return .ok result

end Engine

end VeraqisRecover.Analyze
