import VeraqisRecover.Zip.Entry

/-!
# Merging directory records with scanned local headers

`reconcile_cd_and_scan` of `opc_zip.rs`.  The merge key is physical: a record
is identified by the local-header offset it occupies.  Directory records are
kept, scan-only headers are added when they clear every guard.
-/

namespace VeraqisRecover.Zip

open ByteString LossyUtf8

/-- A metadata disagreement between a directory record and the local header it points at. -/
structure EntryConflict where
  name : Text
  localHeaderOffset : ℕ
  field : String
  centralValue : ℕ
  localValue : ℕ
  deriving DecidableEq, Repr

def EntryConflict.code (_ : EntryConflict) : String := "CD_LFH_METADATA_CONFLICT"

/-- A local-header candidate the scan produced and reconciliation refused. -/
structure RejectedCandidate where
  localHeaderOffset : ℕ
  name : Text
  reason : String
  deriving DecidableEq, Repr

structure ReconcileReport where
  nestedCandidates : ℕ
  entries : List ZipEntry
  scanOnly : ℕ
  conflicts : List EntryConflict
  rejected : List RejectedCandidate
  warnings : List String
  deriving DecidableEq, Repr

/-- First payload byte of the header at `o`, when the fixed header is inside the file. -/
def payloadStart (data : Bytes) (o : ℕ) : Option ℕ := do
  let fixedEnd ← checkedAdd o 30
  if data.length < fixedEnd then none else
  let nameLen ← u16le data (o + 26)
  let extraLen ← u16le data (o + 28)
  let nameEnd ← checkedAdd fixedEnd nameLen
  checkedAdd nameEnd extraLen

/-- Physical byte range an entry occupies, header start to payload end; absent when it runs
past the source. -/
def payloadRange (data : Bytes) (e : ZipEntry) : Option (ℕ × ℕ) := do
  let dataStart ← payloadStart data e.localHeaderOffset
  let stop ← checkedAdd dataStart e.compSize
  if data.length < stop then none else
  some (e.localHeaderOffset, stop)

/-- As `payloadRange`, but a payload that runs past the end of the file is clamped, and the
candidate marked truncated. -/
def payloadRangeLenient (data : Bytes) (e : ZipEntry) : Option (ℕ × ℕ × Bool) := do
  let dataStart ← payloadStart data e.localHeaderOffset
  if data.length < dataStart then none else
  let declaredEnd ← checkedAdd dataStart e.compSize
  if declaredEnd ≤ data.length then some (e.localHeaderOffset, declaredEnd, false)
  else some (e.localHeaderOffset, data.length, true)

/-- Disagreements between one directory record and the header it points at.  A streaming entry
legitimately carries zeroes in its local header. -/
def recordConflicts (data : Bytes) (e : ZipEntry) : List EntryConflict :=
  if localHeaderPresent data e.localHeaderOffset then
    let o := e.localHeaderOffset
    let lMethod := (u16le data (o + 8)).getD 0
    let lCrc := (u32le data (o + 14)).getD 0
    let lCsize := (u32le data (o + 18)).getD 0
    (if ¬ e.hasDataDescriptor ∧ lCrc ≠ e.crc32 ∧ lCrc ≠ 0 then
      [⟨e.name, o, "crc32", e.crc32, lCrc⟩] else []) ++
    (if ¬ e.hasDataDescriptor ∧ lCsize ≠ e.compSize ∧ lCsize ≠ 0 then
      [⟨e.name, o, "comp_size", e.compSize, lCsize⟩] else []) ++
    (if lMethod ≠ e.method then [⟨e.name, o, "method", e.method, lMethod⟩] else [])
  else []

/-! ## Claimed ranges -/

/-- Stored offsets of the directory, without the removed-by-truncation mark, in order. -/
def declaredOffsets (central : List ZipEntry) : List ℕ :=
  (((central.map (·.localHeaderOffset)).filter (· ≠ offsetMax)).insertionSort (· ≤ ·)).destutter
    (· ≠ ·)

/-- The region a record with no readable header owns: from its offset to the next declared one. -/
def declaredRegion (data : Bytes) (declared : List ℕ) (horizon : ℕ) (e : ZipEntry) :
    Option (ℕ × ℕ) :=
  if e.localHeaderOffset = offsetMax ∨ (payloadRange data e).isSome then none
  else
    let start := e.localHeaderOffset
    let stop := (declared.find? (start < ·)).getD horizon
    if start < stop then some (start, stop) else none

/-- Byte ranges already accounted for by the directory. -/
def claimedRanges (data : Bytes) (central : List ZipEntry) (horizon : ℕ) : List (ℕ × ℕ) :=
  let declared := declaredOffsets central
  central.filterMap (payloadRange data) ++
    central.filterMap (declaredRegion data declared horizon) ++
    (if central.any (·.localHeaderOffset = offsetMax) then
      match declared.head? with
      | some first => if 0 < first then [(0, first)] else []
      | none => []
    else [])

/-! ## Candidates -/

/-- What the candidate loop carries. -/
structure ReconcileState where
  entries : List ZipEntry
  byOffset : List ℕ
  claimed : List (ℕ × ℕ)
  scanOnly : ℕ
  nestedCandidates : ℕ
  rejected : List RejectedCandidate
  warnings : List String

namespace ReconcileState

def reject (s : ReconcileState) (cand : ZipEntry) (reason : String) : ReconcileState :=
  { s with rejected := s.rejected ++ [⟨cand.localHeaderOffset, cand.name, reason⟩] }

def rejectNested (s : ReconcileState) (cand : ZipEntry) : ReconcileState :=
  { s.reject cand ContainerOwnership.nestedContainer.code with
    nestedCandidates := s.nestedCandidates + 1 }

def truncatedWarning (cand : ZipEntry) : String :=
  s!"LOCAL_HEADER_CANDIDATE_TRUNCATED: '{String.ofList cand.name}' at " ++
  s!"{cand.localHeaderOffset} declares a payload that runs past the end of the file; " ++
  "surfaced so extraction reports Truncated rather than discarding a real archive member"

def add (s : ReconcileState) (cand : ZipEntry) (range : ℕ × ℕ) (truncated : Bool) :
    ReconcileState :=
  { s with
    entries := s.entries ++ [cand]
    byOffset := s.byOffset ++ [cand.localHeaderOffset]
    claimed := s.claimed ++ [range]
    scanOnly := s.scanOnly + 1
    warnings := s.warnings ++ if truncated then [truncatedWarning cand] else [] }

/-- One candidate of the scan. -/
def consider (data : Bytes) (containers : ContainerOwnershipMap) (s : ReconcileState)
    (cand : ZipEntry) : ReconcileState :=
  if (containers.ownerOf cand.localHeaderOffset).isSome then s.rejectNested cand
  else if cand.localHeaderOffset ∈ s.byOffset then s
  else match payloadRangeLenient data cand with
    | none => s.reject cand "LOCAL_HEADER_CANDIDATE_REJECTED"
    | some (start, stop, truncated) =>
        if s.claimed.any fun r ↦ r.1 ≤ start && start < r.2 then
          s.reject cand "NESTED_SIGNATURE_CANDIDATE"
        else if s.claimed.any fun r ↦ start < r.2 && r.1 < stop then
          s.reject cand "ENTRY_RANGE_OVERLAP"
        else s.add cand (start, stop) truncated

/-- The candidate loop, which stops for good at the policy's candidate cap. -/
def considerAll (data : Bytes) (containers : ContainerOwnershipMap)
    (policy : ZipRecoveryPolicy) : ReconcileState → List ZipEntry → ReconcileState
  | s, [] => s
  | s, cand :: rest =>
      if policy.maxCandidateRecords ≤ s.entries.length then
        { s with warnings := s.warnings ++ [LimitHit.candidateRecords.code] }
      else considerAll data containers policy (s.consider data containers cand) rest

end ReconcileState

/-- By physical position, then by name. -/
def ZipEntry.Before (a b : ZipEntry) : Prop :=
  a.localHeaderOffset < b.localHeaderOffset ∨
    a.localHeaderOffset = b.localHeaderOffset ∧ a.name ≤ b.name

instance : DecidableRel ZipEntry.Before := fun a b ↦
  inferInstanceAs (Decidable (a.localHeaderOffset < b.localHeaderOffset ∨
    a.localHeaderOffset = b.localHeaderOffset ∧ a.name ≤ b.name))

/-- The state the candidate loop starts from: directory records owned by an embedded archive are
withheld, whatever their provenance says. -/
def reconcileStart (data : Bytes) (central : List ZipEntry) (cdRegionStart : Option ℕ)
    (containers : ContainerOwnershipMap) : ReconcileState :=
  let owned := fun e : ZipEntry ↦ (containers.ownerOf e.localHeaderOffset).isSome
  { entries := central.filter (!owned ·)
    byOffset := central.map (·.localHeaderOffset)
    claimed := claimedRanges data central (cdRegionStart.getD data.length)
    scanOnly := 0
    nestedCandidates := central.countP owned
    rejected := (central.filter owned).map fun e ↦
      ⟨e.localHeaderOffset, e.name, ContainerOwnership.nestedContainer.code⟩
    warnings := [] }

/-- Merge central-directory records with independently scanned local headers. -/
def reconcileCdAndScan (data : Bytes) (central scanned : List ZipEntry)
    (cdRegionStart : Option ℕ) (containers : ContainerOwnershipMap)
    (policy : ZipRecoveryPolicy) : ReconcileReport :=
  let conflicts := central.flatMap (recordConflicts data)
  let s := ReconcileState.considerAll data containers policy
    (reconcileStart data central cdRegionStart containers) scanned
  { nestedCandidates := s.nestedCandidates
    entries := s.entries.insertionSort ZipEntry.Before
    scanOnly := s.scanOnly
    conflicts
    rejected := s.rejected
    warnings := s.warnings ++
      (if 0 < s.scanOnly then
        [s!"reconciliation added {s.scanOnly} scan-only entries the central directory did not " ++
          "describe; they are not verified by the scan alone"] else []) ++
      (if conflicts ≠ [] then
        [s!"CD_LFH_METADATA_CONFLICT: {conflicts.length} field disagreement(s) between " ++
          "directory records and their local headers"] else []) }

end VeraqisRecover.Zip
