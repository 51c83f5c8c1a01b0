import VeraqisRecover.Zip.CdScan
import VeraqisRecover.Zip.HeaderIndex
import VeraqisRecover.Zip.Reconcile

/-!
# Enumerating a ZIP container

`parse_zip_with_policy` of `opc_zip.rs`, stage by stage: follow the EOCD, fall
back to a surviving directory, reconcile stored offsets with physical headers,
decide whether the directory accounts for the whole archive, and merge in the
local-header scan when it does not.
-/

namespace VeraqisRecover.Zip

open ByteString LossyUtf8

/-- Result of enumerating a ZIP container. -/
structure ZipParse where
  entries : List ZipEntry := []
  eocdFound : Bool := false
  cdFound : Bool := false
  usedLocalScan : Bool := false
  warnings : List String := []
  scanOnlyEntries : ℕ := 0
  conflicts : List EntryConflict := []
  rejectedCandidates : List RejectedCandidate := []
  limitsHit : List LimitHit := []
  cdOffsetShift : Option ℤ := none
  cdRecoveredByScan : Bool := false
  cdCountConsistent : Bool := false
  cdDeclaredCount : Option ℕ := none
  nestedContainers : ℕ := 0
  nestedCandidates : ℕ := 0
  cdLocatedBySize : Bool := false
  recordsRepointed : ℕ := 0
  recordsReconciled : ℕ := 0
  offsetSegments : ℕ := 0
  offsetMapKind : Option OffsetMapKind := none
  indexStats : IndexStats := {}
  deriving DecidableEq, Repr

namespace ZipParse

def warn (out : ZipParse) (w : String) : ZipParse := { out with warnings := out.warnings ++ [w] }

/-- Record a limit a walk reported, as a code among the warnings and as a fact. -/
def noteLimit (out : ZipParse) : Option LimitHit → ZipParse
  | some l => { out.warn l.code with limitsHit := out.limitsHit ++ [l] }
  | none => out

end ZipParse

/-- The parse under construction, the EOCD's count and where the directory was read. -/
structure ParseState where
  out : ZipParse
  declaredCount : Option ℕ
  cdRegionStart : Option ℕ
  deriving DecidableEq, Repr

def slice (d : Bytes) (a b : ℕ) : Bytes := (d.drop a).take (b - a)

/-! ## Following the EOCD -/

/-- Search backward from `i` down to `scanStart` for the EOCD signature. -/
def findEocdFrom (data : Bytes) (scanStart : ℕ) : ℕ → Option ℕ
  | 0 => if u32le data 0 = some eocdSig then some 0 else none
  | i + 1 =>
      if u32le data (i + 1) = some eocdSig then some (i + 1)
      else if i + 1 = scanStart then none
      else findEocdFrom data scanStart i

def findEocd (data : Bytes) : Option ℕ :=
  if data.length < 22 then none
  else findEocdFrom data (data.length - (22 + 65535)) (data.length - 22)

structure DirectoryLocation where
  cdStart : ℕ
  locatedBySize : Bool
  warnings : List String
  deriving DecidableEq, Repr

/-- A directory-record signature stands at `o`. -/
def cdfhAt (data : Bytes) (o : ℕ) : Bool := o + 4 ≤ data.length && u32le data o = some cdfhSig

/-- The declared offset when a record is there, else the position measured back from the EOCD. -/
def directoryStart (data : Bytes) (eocdOff cdSize cdOffset : ℕ) : DirectoryLocation :=
  if cdfhAt data cdOffset then ⟨cdOffset, false, []⟩
  else
    match checkedSub eocdOff cdSize with
    | some s =>
        if cdfhAt data s then
          ⟨s, true, [s!"EOCD_DIRECTORY_OFFSET_STALE: declared at {cdOffset}, located at {s} " ++
            "by directory size"]⟩
        else ⟨cdOffset, false, []⟩
    | none => ⟨cdOffset, false, []⟩

/-- A directory inside a validated embedded archive belongs to that archive: the start is then
put out of range, so that no directory is adopted here. -/
def locateDirectory (data : Bytes) (containers : ContainerOwnershipMap)
    (eocdOff cdSize cdOffset : ℕ) : DirectoryLocation :=
  let found := directoryStart data eocdOff cdSize cdOffset
  if (containers.ownerOf found.cdStart).isSome then
    ⟨data.length, false, found.warnings ++
      ["NESTED_CONTAINER_DETECTED: the located directory lies inside an embedded archive; " ++
        "not adopted as this archive's directory"]⟩
  else found

/-- Read the directory the EOCD leads to. -/
def followEocd (data : Bytes) (policy : ZipRecoveryPolicy)
    (containers : ContainerOwnershipMap) : ParseState :=
  let out : ZipParse := { nestedContainers := containers.archives.length }
  match findEocd data with
  | none => ⟨out, none, none⟩
  | some eocdOff =>
      let out := { out with eocdFound := true }
      match u32le data (eocdOff + 12), u32le data (eocdOff + 16), u16le data (eocdOff + 10) with
      | some cdSize, some cdOffset, some total =>
          let loc := locateDirectory data containers eocdOff cdSize cdOffset
          let out := { out with
            cdLocatedBySize := loc.locatedBySize
            warnings := out.warnings ++ loc.warnings }
          let cdEnd := min (saturatingAdd loc.cdStart cdSize) data.length
          if loc.cdStart < data.length ∧ loc.cdStart < cdEnd then
            let (entries, limit) :=
              parseCentralDirectoryBounded (slice data loc.cdStart cdEnd) total policy
            let out := out.noteLimit limit
            ⟨if entries = [] then out else { out with cdFound := true, entries },
              some total, some loc.cdStart⟩
          else ⟨out, some total, none⟩
      | _, _, _ => ⟨out, none, none⟩

/-! ## The surviving directory -/

/-- Shift a stored offset; one that lands before the start of the file was removed by the
truncation and is left unusable. -/
def shiftEntry (delta : ℤ) (e : ZipEntry) : ZipEntry :=
  { e with
    localHeaderOffset :=
      match checkedAddI64 (wrapI64 e.localHeaderOffset) delta with
      | some x => if 0 ≤ x then x.toNat else offsetMax
      | none => offsetMax }

/-- Adopt an accepted chain of the surviving-directory scan. -/
def adoptCandidate (data : Bytes) (policy : ZipRecoveryPolicy) (c : CdScan.CdCandidate)
    (st : ParseState) : ParseState :=
  let (entries, limit) :=
    parseCentralDirectoryBounded (slice data c.start c.stop) c.recordCount policy
  let out := st.out.noteLimit limit
  if entries = [] then { st with out }
  else
    let delta := c.acceptedDelta.getD 0
    { st with
      cdRegionStart := some c.start
      out := { out with
        entries := if delta = 0 then entries else entries.map (shiftEntry delta)
        cdOffsetShift := if delta = 0 then out.cdOffsetShift else some delta
        cdFound := true
        cdRecoveredByScan := true
        warnings := out.warnings ++
          [s!"surviving original central directory recovered at [{c.start}..{c.stop}): " ++
            s!"{c.recordCount} records, offset shift {delta}"] } }

def recoverSurvivingCd (data : Bytes) (policy : ZipRecoveryPolicy)
    (containers : ContainerOwnershipMap) (st : ParseState) : ParseState :=
  if st.out.entries ≠ [] then st
  else
    match (CdScan.scanSurvivingCd data).acceptedCandidate with
    | none => st
    | some c =>
        if (containers.ownerOf c.start).isSome then
          { st with out := st.out.warn <|
            "NESTED_CONTAINER_DETECTED: the surviving directory found by scanning belongs to " ++
              "an embedded archive, not to this one; not adopted" }
        else adoptCandidate data policy c st

/-! ## Directory reconciliation -/

/-- Match one record to a physical header: its own offset when a header with its name is there,
else the unique header of that name whose structure agrees. -/
def observe (data : Bytes) (acc : List OffsetObservation × LocalHeaderIndex) (e : ZipEntry) :
    List OffsetObservation × LocalHeaderIndex :=
  let stored := e.localHeaderOffset
  if (acc.2.atOffset stored).any (·.rawName data = some (asBytes e.name)) then
    (acc.1 ++ [⟨stored, stored⟩], acc.2)
  else
    let (hits, index) := acc.2.candidatesNamed data (asBytes e.name)
    match (hits.filter fun r ↦ r.method = e.method && (r.crc32 = e.crc32 || r.crc32 = 0)).map
        (·.offset) with
    | [physical] => (acc.1 ++ [⟨stored, physical⟩], index)
    | _ => (acc.1, index)

/-- The offset a record is re-pointed to: the map proposes, the bytes decide. -/
def repointTarget (data : Bytes) (index : LocalHeaderIndex) (map : OffsetMap) (e : ZipEntry) :
    Option ℕ :=
  if headerNamedAt data e.localHeaderOffset (asBytes e.name) then none
  else (map.map e.localHeaderOffset).filter fun phys ↦
    (index.atOffset phys).bind (·.rawName data) = some (asBytes e.name)

def repoint (data : Bytes) (index : LocalHeaderIndex) (map : OffsetMap) (e : ZipEntry) :
    ZipEntry :=
  match repointTarget data index map e with
  | some phys => { e with localHeaderOffset := phys }
  | none => e

/-- Match records to headers, infer the offset map and re-point through it. -/
def reconcileDirectory (data : Bytes) (policy : ZipRecoveryPolicy) (st : ParseState) :
    ParseState :=
  let entries := st.out.entries
  if entries = [] then st
  else
    let (observations, index) :=
      entries.foldl (observe data) ([], LocalHeaderIndex.build data policy)
    let map := OffsetMap.infer observations policy.maxOffsetSegments
    let repointed :=
      if map.isUsable then entries.countP fun e ↦ (repointTarget data index map e).isSome else 0
    let moved := if map.isUsable then entries.map (repoint data index map) else entries
    { st with
      out := { st.out with
        entries := moved
        offsetSegments := map.segments.length
        offsetMapKind := some map.kind
        recordsRepointed := if map.isUsable then repointed else st.out.recordsRepointed
        recordsReconciled :=
          moved.countP fun e ↦ headerNamedAt data e.localHeaderOffset (asBytes e.name)
        indexStats := index.stats
        warnings := st.out.warnings ++
          if 0 < repointed then
            [s!"ENTRY_OFFSETS_REMAPPED: {repointed} directory record(s) re-pointed through a " ++
              s!"{map.segments.length}-segment offset map"]
          else [] } }

/-! ## Completeness -/

def countsAgree (data : Bytes) (st : ParseState) : Bool :=
  st.out.cdFound && st.out.entries ≠ [] && st.declaredCount = some st.out.entries.length &&
    st.out.entries.all fun e ↦ localHeaderPresent data e.localHeaderOffset

/-- Sweep ordered ranges from `cursor`; a hole of thirty bytes could hold a local header. -/
def sweepRanges : ℕ → List (ℕ × ℕ) → Bool × ℕ
  | cursor, [] => (false, cursor)
  | cursor, (s, e) :: rest =>
      if cursor < s ∧ 30 ≤ s - cursor then (true, cursor) else sweepRanges (max cursor e) rest

def rangeLe (a b : ℕ × ℕ) : Prop := a.1 < b.1 ∨ a.1 = b.1 ∧ a.2 ≤ b.2

instance : DecidableRel rangeLe := fun a b ↦
  inferInstanceAs (Decidable (a.1 < b.1 ∨ a.1 = b.1 ∧ a.2 ≤ b.2))

/-- Do the records leave part of the payload area unaccounted for? -/
def unaccountedGap (data : Bytes) (st : ParseState) : Bool :=
  st.out.cdFound && st.out.entries ≠ [] &&
    let ranges := (st.out.entries.filterMap (payloadRange data)).insertionSort rangeLe
    let (gap, cursor) := sweepRanges 0 ranges
    gap || 30 ≤ st.cdRegionStart.getD data.length - cursor

def cdComplete (data : Bytes) (st : ParseState) : Bool :=
  countsAgree data st && !unaccountedGap data st

/-! ## The whole parse -/

/-- The directory as adopted and reconciled, before completeness is decided. -/
def readDirectory (data : Bytes) (policy : ZipRecoveryPolicy) : ParseState :=
  let containers := ContainerOwnershipMap.detect data policy
  reconcileDirectory data policy
    (recoverSurvivingCd data policy containers (followEocd data policy containers))

/-- Note what the declared count says about the records walked. -/
def noteCount (st : ParseState) : ZipParse :=
  let out := { st.out with
    cdDeclaredCount := st.declaredCount
    cdCountConsistent := st.out.cdFound && st.declaredCount = some st.out.entries.length &&
      0 < st.out.entries.length }
  match st.declaredCount with
  | some n =>
      if out.cdFound ∧ n ≠ out.entries.length then
        out.warn <| s!"EOCD_ENTRY_COUNT_INCONSISTENT: EOCD declares {n} entries, " ++
          s!"{out.entries.length} structurally valid records were walked"
      else out
  | none => out

/-- Run the local-header scan and merge it with the directory. -/
def mergeScan (data : Bytes) (policy : ZipRecoveryPolicy) (st : ParseState) : ZipParse :=
  let out := noteCount st
  let out := { out with usedLocalScan := true }.warn <|
    if out.entries = [] then "central directory missing/unusable; scanning local file headers"
    else "LOCAL_HEADER_SCAN_REQUIRED"
  let (scanned, limit) := scanLocalHeadersBounded data policy
  let out := out.noteLimit limit
  let report := reconcileCdAndScan data out.entries scanned st.cdRegionStart
    (ContainerOwnershipMap.detect data policy) policy
  { out with
    nestedCandidates := report.nestedCandidates
    entries := report.entries
    scanOnlyEntries := report.scanOnly
    conflicts := report.conflicts
    rejectedCandidates := report.rejected
    warnings := out.warnings ++ report.warnings }

/-- Enumerate entries from the central directory and, independently, from a local-header scan. -/
def parseZipWithPolicy (data : Bytes) (policy : ZipRecoveryPolicy) : ZipParse :=
  let st := readDirectory data policy
  if cdComplete data st then noteCount st else mergeScan data policy st

def parseZip (data : Bytes) : ZipParse := parseZipWithPolicy data .default

end VeraqisRecover.Zip
