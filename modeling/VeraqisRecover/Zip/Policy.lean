import VeraqisRecover.Support.ByteString

/-!
# Bounds for ZIP recovery walks

The limits that replace a damaged file's own numbers (`zip_policy.rs`).
-/

namespace VeraqisRecover.Zip

/-- Why a walk stopped early. -/
inductive LimitHit
  | centralRecords
  | centralBytes
  | candidateRecords
  | scanBytes
  | metadataBytes
  | malformedStreak
  deriving DecidableEq, Repr

def LimitHit.code : LimitHit → String
  | centralRecords => "CENTRAL_DIRECTORY_WALK_LIMIT_REACHED"
  | centralBytes => "CENTRAL_DIRECTORY_BYTE_LIMIT_REACHED"
  | candidateRecords => "LOCAL_HEADER_SCAN_LIMIT_REACHED"
  | scanBytes => "LOCAL_HEADER_SCAN_BYTE_LIMIT_REACHED"
  | metadataBytes => "METADATA_ALLOCATION_LIMIT_REACHED"
  | malformedStreak => "MALFORMED_RECORD_STREAK_LIMIT_REACHED"

/-- Hard bounds for a recovery walk, independent of anything the archive declares. -/
structure ZipRecoveryPolicy where
  maxCentralRecords : ℕ
  maxCentralBytes : ℕ
  maxCandidateRecords : ℕ
  maxScanBytes : ℕ
  maxMetadataBytes : ℕ
  maxMalformedStreak : ℕ
  maxNameBytes : ℕ
  maxExtraBytes : ℕ
  maxCommentBytes : ℕ
  maxOffsetSegments : ℕ
  deriving DecidableEq, Repr

namespace ZipRecoveryPolicy

/-- The policy `parse_zip` runs under. -/
protected def default : ZipRecoveryPolicy where
  maxCentralRecords := 262144
  maxCentralBytes := 128 * 1024 * 1024
  maxCandidateRecords := 262144
  maxScanBytes := 2 * 1024 * 1024 * 1024
  maxMetadataBytes := 64 * 1024 * 1024
  maxMalformedStreak := 4096
  maxNameBytes := 65535
  maxExtraBytes := 65535
  maxCommentBytes := 65535
  maxOffsetSegments := 4

instance : Inhabited ZipRecoveryPolicy := ⟨ZipRecoveryPolicy.default⟩

/-- A deliberately small policy, under which the limits can be seen to act. -/
def tiny : ZipRecoveryPolicy where
  maxCentralRecords := 4
  maxCentralBytes := 4096
  maxCandidateRecords := 4
  maxScanBytes := 4096
  maxMetadataBytes := 4096
  maxMalformedStreak := 16
  maxNameBytes := 256
  maxExtraBytes := 256
  maxCommentBytes := 256
  maxOffsetSegments := 2

end ZipRecoveryPolicy

end VeraqisRecover.Zip
