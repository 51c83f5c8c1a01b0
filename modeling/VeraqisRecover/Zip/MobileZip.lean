import VeraqisRecover.Zip.Extract
import VeraqisRecover.Zip.Parse

/-!
# Recovering verified entries

The seam of `mobile_zip.rs`: only CRC-verified bytes with a safe relative path
are handed to the caller's sink, one entry at a time.
-/

namespace VeraqisRecover.Zip

open ByteString LossyUtf8

/-- May a directory record of this origin count as evidence that an entry existed? -/
def CdProvenance.attestsExistence : CdProvenance → Bool
  | originalSurviving => true
  | externalAttested => true
  | reconstructed => false
  | unknown => false

def CdProvenance.entryIsAttested (p : CdProvenance) (fromCentralDir : Bool) : Bool :=
  fromCentralDir && p.attestsExistence

/-- What a recovery produced for one entry (`verdict.rs`). -/
inductive RecoveryVerdict
  | exactRecoverable
  | recoverableWithMetadataLoss
  | salvagedUnverified
  | unrecoverable
  deriving DecidableEq, Repr

structure MobileZipLimits where
  maxEntries : ℕ := 10000
  maxEntryBytes : ℕ := 512 * 1024 * 1024
  maxTotalBytes : ℕ := 8 * 1024 * 1024 * 1024
  maxPathBytes : ℕ := 240
  maxDepth : ℕ := 24
  deriving DecidableEq, Repr

structure MobileZipEntry where
  safePath : Text
  bytes : Bytes
  crc32 : ℕ
  verdict : RecoveryVerdict
  deriving DecidableEq, Repr

structure MobileZipSkipped where
  name : Text
  reason : String
  verdict : RecoveryVerdict
  deriving DecidableEq, Repr

/-- A CRC mismatch is the one abstention where bytes were decoded. -/
def MobileZipSkipped.new (name : Text) (reason : String) : MobileZipSkipped :=
  ⟨name, reason, if reason = "crc_mismatch" then .salvagedUnverified else .unrecoverable⟩

structure MobileZipEntrySummary where
  safePath : Text
  bytes : ℕ
  crc32 : ℕ
  verdict : RecoveryVerdict
  deriving DecidableEq, Repr

structure MobileZipRecoverySummary where
  usedLocalScan : Bool
  centralDirectoryFound : Bool
  entriesSeen : ℕ
  entries : List MobileZipEntrySummary
  skipped : List MobileZipSkipped
  warnings : List String
  deriving DecidableEq, Repr

structure MobileZipRecovery where
  usedLocalScan : Bool
  centralDirectoryFound : Bool
  entriesSeen : ℕ
  entries : List MobileZipEntry
  skipped : List MobileZipSkipped
  warnings : List String
  deriving DecidableEq, Repr

/-- The path an archive name may be written to, or nothing. -/
def safeRelativePath (raw : Text) (maxBytes maxDepth : ℕ) : Option Text :=
  if raw = [] ∨ maxBytes < (asBytes raw).length ∨ Char.ofNat 0 ∈ raw ∨
      raw.head? = some '/' ∨ raw.head? = some '\\' then none
  else
    let normalized := raw.map fun c ↦ if c = '\\' then '/' else c
    if (asBytes normalized)[1]? = some (UInt8.ofNat 0x3a) then none
    else
      let parts := (normalized.splitOn '/').filter (· ≠ [])
      if parts = [] ∨ maxDepth < parts.length ∨
          parts.any fun part ↦ part = ['.'] || part = ['.', '.'] || part.contains ':' then none
      else some (List.intercalate ['/'] parts)

def statusReason : ExtractStatus → String
  | .verifiedCrc => "verified"
  | .crcMismatch => "crc_mismatch"
  | .decodeFailed => "decode_failed"
  | .badLocalHeader => "bad_local_header"
  | .truncated => "truncated"
  | .unsupported _ => "unsupported_method"
  | .encrypted => "encrypted"
  | .zip64Unsupported => "zip64_unsupported"
  | .streamedUnsized => "streamed_unsized"

/-- What the run is about: the codec, `str::to_lowercase`, the archive and the caller's terms. -/
structure RecoveryRun where
  fl : Flate2
  toLowercase : Text → Text
  data : Bytes
  limits : MobileZipLimits
  cdProvenance : CdProvenance

namespace RecoveryRun

/-- Can this archive's directory speak about what is not in it? -/
def directoryEnumeratesArchive (run : RecoveryRun) (parsed : ZipParse) : Bool :=
  parsed.cdCountConsistent && run.cdProvenance.attestsExistence

/-- What becomes of an entry whose path is safe and new: a reason to skip it, or its bytes. -/
def verify (run : RecoveryRun) (parsed : ZipParse) (total : ℕ) (safePath : Text)
    (entry : ZipEntry) : Except String MobileZipEntry :=
  if run.limits.maxEntryBytes < entry.uncompSize then .error "entry_limit"
  else
    let extracted := extractEntry run.fl run.data entry
    let cdAttests := run.cdProvenance.entryIsAttested entry.fromCentralDir
    if extracted.status ≠ .verifiedCrc then .error (statusReason extracted.status)
    else if !cdAttests && run.directoryEnumeratesArchive parsed then
      .error "unattested_by_complete_directory"
    else if extracted.bytes = [] ∧ cdAttests = false then .error "zero_length_unattested"
    else if run.limits.maxEntryBytes < extracted.bytes.length ∨
        (checkedAdd total extracted.bytes.length).all (run.limits.maxTotalBytes < ·) then
      .error "total_limit"
    else .ok ⟨safePath, extracted.bytes, extracted.crcActual, .exactRecoverable⟩

/-- Loop state: the caller's sink, what was recovered and skipped, total bytes, paths taken. -/
structure LoopState (σ : Type) where
  sink : σ
  recovered : List MobileZipEntrySummary := []
  skipped : List MobileZipSkipped := []
  total : ℕ := 0
  names : List Text := []

variable {σ : Type}

def LoopState.skip (s : LoopState σ) (entry : ZipEntry) (reason : String) : LoopState σ :=
  { s with skipped := s.skipped ++ [.new entry.name reason] }

/-- One parsed entry. -/
def step (run : RecoveryRun) (emit : σ → MobileZipEntry → Except String σ) (parsed : ZipParse)
    (s : LoopState σ) (entry : ZipEntry) : Except String (LoopState σ) :=
  if ¬ entry.nameValidUtf8 then .ok (s.skip entry "invalid_utf8_path")
  else if entry.name.getLast? = some '/' ∨ entry.name.getLast? = some '\\' then
    .ok (s.skip entry "directory")
  else
    match safeRelativePath entry.name run.limits.maxPathBytes run.limits.maxDepth with
    | none => .ok (s.skip entry "unsafe_path")
    | some safePath =>
        if run.toLowercase safePath ∈ s.names then .ok (s.skip entry "duplicate_path")
        else
          let s := { s with names := s.names ++ [run.toLowercase safePath] }
          match run.verify parsed s.total safePath entry with
          | .error reason => .ok (s.skip entry reason)
          | .ok e => do
              let sink ← emit s.sink e
              .ok { s with
                sink
                total := s.total + e.bytes.length
                recovered := s.recovered ++ [⟨e.safePath, e.bytes.length, e.crc32, e.verdict⟩] }

/-- Recover verified entries one at a time into a caller-owned sink. -/
def recoverVerifiedEntriesTo (run : RecoveryRun) (emit : σ → MobileZipEntry → Except String σ)
    (sink : σ) : Except String (σ × MobileZipRecoverySummary) := do
  let parsed := parseZip run.data
  let s ← (parsed.entries.take run.limits.maxEntries).foldlM (run.step emit parsed) { sink }
  .ok (s.sink,
    { usedLocalScan := parsed.usedLocalScan
      centralDirectoryFound := parsed.cdFound
      entriesSeen := parsed.entries.length
      entries := s.recovered
      skipped := s.skipped ++ if run.limits.maxEntries < parsed.entries.length then
        [.new [] "entry_count_limit"] else []
      warnings := parsed.warnings })

/-- The in-memory collector, which never fails. -/
def collect (entries : List MobileZipEntry) (e : MobileZipEntry) :
    Except String (List MobileZipEntry) :=
  .ok (entries ++ [e])

/-- Recover only fully present, independently CRC-verified entries. -/
def recoverVerifiedEntries (run : RecoveryRun) : Except String MobileZipRecovery := do
  let (entries, summary) ← run.recoverVerifiedEntriesTo collect []
  .ok { summary with entries }

end RecoveryRun

end VeraqisRecover.Zip
