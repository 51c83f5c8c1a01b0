import VeraqisRecover.Support.LossyUtf8
import VeraqisRecover.Zip.Container
import VeraqisRecover.Zip.OffsetMap

/-!
# Entries, and the two walks that enumerate them

The central-directory walk and the forward local-header scan of `opc_zip.rs`.
Both are bounded by the policy and by facts about the source, never by the
archive's own counts.
-/

namespace VeraqisRecover.Zip

open ByteString LossyUtf8

/-- One ZIP entry's metadata, from the central directory or from a local-header scan. -/
structure ZipEntry where
  name : Text
  nameValidUtf8 : Bool
  method : ℕ
  crc32 : ℕ
  compSize : ℕ
  uncompSize : ℕ
  localHeaderOffset : ℕ
  flags : ℕ
  zip64 : Bool
  fromCentralDir : Bool
  deriving DecidableEq, Repr

namespace ZipEntry

def isEncrypted (e : ZipEntry) : Bool :=
  e.flags &&& 0x0001 ≠ 0 || e.flags &&& 0x0040 ≠ 0

def hasDataDescriptor (e : ZipEntry) : Bool := e.flags &&& 0x0008 ≠ 0

end ZipEntry

def zip64SentinelU32 : ℕ := 0xFFFFFFFF

/-- A size or offset field at the sentinel signals ZIP64. -/
def isZip64 (comp uncomp lho : ℕ) : Bool :=
  comp = zip64SentinelU32 || uncomp = zip64SentinelU32 || lho = zip64SentinelU32

def extraHasZip64From (extra : Bytes) (o : ℕ) : Bool :=
  if o + 4 ≤ extra.length then
    if (u16le extra o).getD 0 = 0x0001 then true
    else extraHasZip64From extra (o + (4 + (u16le extra (o + 2)).getD 0))
  else false
termination_by extra.length - o

/-- Does an extra field contain a ZIP64 extended-information record? -/
def extraHasZip64 : Option Bytes → Bool
  | some extra => extraHasZip64From extra 0
  | none => false

/-! ## The central directory -/

/-- A directory record whose variable-length fields fit: the entry, the metadata bytes it
retains and the position after it. -/
structure CentralRecord where
  entry : ZipEntry
  metadata : ℕ
  recordEnd : ℕ

def centralRecordAt (cd : Bytes) (o : ℕ) (policy : ZipRecoveryPolicy) :
    Option CentralRecord := do
  let compRaw := (u32le cd (o + 20)).getD 0
  let uncompRaw := (u32le cd (o + 24)).getD 0
  let nameLen := (u16le cd (o + 28)).getD 0
  let extraLen := (u16le cd (o + 30)).getD 0
  let commentLen := (u16le cd (o + 32)).getD 0
  let lhoRaw := (u32le cd (o + 42)).getD 0
  if policy.maxNameBytes < nameLen ∨ policy.maxExtraBytes < extraLen ∨
      policy.maxCommentBytes < commentLen then none else
  let nameStart := o + 46
  let nameEnd ← checkedAdd nameStart nameLen
  let extraEnd ← checkedAdd nameEnd extraLen
  let recordEnd ← checkedAdd extraEnd commentLen
  if cd.length < recordEnd then none else
  let rawName := slice? cd nameStart nameEnd
  some {
    entry := {
      name := (rawName.map fromUtf8Lossy).getD []
      nameValidUtf8 := rawName.any isUtf8
      method := (u16le cd (o + 10)).getD 0
      crc32 := (u32le cd (o + 16)).getD 0
      compSize := compRaw
      uncompSize := uncompRaw
      localHeaderOffset := lhoRaw
      flags := (u16le cd (o + 8)).getD 0
      zip64 := isZip64 compRaw uncompRaw lhoRaw ||
        extraHasZip64 (slice? cd nameEnd (nameEnd + extraLen))
      fromCentralDir := true }
    metadata := nameLen + extraLen + commentLen
    recordEnd }

theorem centralRecordAt_bounds {cd : Bytes} {o : ℕ} {policy : ZipRecoveryPolicy}
    {r : CentralRecord} (h : centralRecordAt cd o policy = some r) :
    o + 46 ≤ r.recordEnd ∧ r.recordEnd ≤ cd.length := by
  simp only [centralRecordAt, Option.bind_eq_bind, Option.bind_eq_some_iff,
    Option.ite_none_left_eq_some, Option.some.injEq, checkedAdd_eq_some] at h
  obtain ⟨-, _, ⟨-, rfl⟩, _, ⟨-, rfl⟩, _, ⟨-, rfl⟩, hle, rfl⟩ := h
  dsimp only
  omega

/-- The directory walk from offset `o`, with the entries and metadata bytes accumulated. -/
def parseCentralFrom (cd : Bytes) (policy : ZipRecoveryPolicy) (region o : ℕ)
    (entries : List ZipEntry) (metadataBytes : ℕ) : List ZipEntry × Option LimitHit :=
  if o + 46 ≤ region then
    if policy.maxCentralRecords ≤ entries.length then (entries, some .centralRecords)
    else if u32le cd o ≠ some cdfhSig then (entries, none)
    else match h : centralRecordAt cd o policy with
      | none => (entries, none)
      | some r =>
          have := centralRecordAt_bounds h
          let metadataBytes := saturatingAdd metadataBytes r.metadata
          if policy.maxMetadataBytes < metadataBytes then (entries, some .metadataBytes)
          else parseCentralFrom cd policy region r.recordEnd (entries ++ [r.entry]) metadataBytes
  else (entries, none)
termination_by cd.length - o

/-- Walk the central directory.  The declared count is a hint the walk ignores. -/
def parseCentralDirectoryBounded (cd : Bytes) (_declaredCount : ℕ)
    (policy : ZipRecoveryPolicy) : List ZipEntry × Option LimitHit :=
  parseCentralFrom cd policy (min cd.length policy.maxCentralBytes) 0 [] 0

/-! ## The local-header scan -/

def ddSig : ℕ := 0x08074b50

/-- First offset at or after `i` that begins a local-header, directory-record or
data-descriptor signature. -/
def nextSignature (data : Bytes) (i : ℕ) : Option ℕ :=
  if i + 4 ≤ data.length then
    let sig := u32le data i
    if sig = some lfhSig ∨ sig = some cdfhSig ∨ sig = some ddSig then some i
    else nextSignature data (i + 1)
  else none
termination_by data.length - i

/-- The entry the header at `i` describes, with the position its payload ends at. -/
def scannedHeaderAt (data : Bytes) (i : ℕ) : ZipEntry × ℕ :=
  let compRaw := (u32le data (i + 18)).getD 0
  let uncompRaw := (u32le data (i + 22)).getD 0
  let nameLen := (u16le data (i + 26)).getD 0
  let extraLen := (u16le data (i + 28)).getD 0
  let nameStart := i + 30
  let nameEnd := nameStart + nameLen
  let rawName := slice? data nameStart nameEnd
  let dataStart := nameEnd + extraLen
  ({ name := (rawName.map fromUtf8Lossy).getD []
     nameValidUtf8 := rawName.any isUtf8
     method := (u16le data (i + 8)).getD 0
     crc32 := (u32le data (i + 14)).getD 0
     compSize := compRaw
     uncompSize := uncompRaw
     localHeaderOffset := i
     flags := (u16le data (i + 6)).getD 0
     zip64 := isZip64 compRaw uncompRaw 0 ||
       extraHasZip64 (slice? data nameEnd (nameEnd + extraLen))
     fromCentralDir := false },
    if 0 < compRaw then saturatingAdd dataStart compRaw
    else (nextSignature data dataStart).getD data.length)

def scanLocalFrom (data : Bytes) (policy : ZipRecoveryPolicy) (horizon i : ℕ)
    (entries : List ZipEntry) : List ZipEntry × Option LimitHit :=
  if i + 30 ≤ horizon then
    if policy.maxCandidateRecords ≤ entries.length then (entries, some .candidateRecords)
    else if u32le data i ≠ some lfhSig then scanLocalFrom data policy horizon (i + 1) entries
    else
      let (e, next) := scannedHeaderAt data i
      scanLocalFrom data policy horizon (if i < next then next else i + 1) (entries ++ [e])
  else (entries, none)
termination_by horizon - i
decreasing_by all_goals (try split) <;> omega

/-- Forward scan for local file headers, bounded by policy. -/
def scanLocalHeadersBounded (data : Bytes) (policy : ZipRecoveryPolicy) :
    List ZipEntry × Option LimitHit :=
  scanLocalFrom data policy (min data.length policy.maxScanBytes) 0 []

end VeraqisRecover.Zip
