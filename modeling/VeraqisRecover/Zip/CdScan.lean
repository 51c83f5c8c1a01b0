import VeraqisRecover.Support.LossyUtf8
import VeraqisRecover.Zip.Container
import VeraqisRecover.Zip.OffsetMap

/-!
# Locating a surviving original central directory

Head truncation shifts every stored offset without destroying the directory
(`cd_scan.rs`).  Every structurally walkable chain is enumerated, and at most
one is accepted: a single shift must explain all of its records and it must
agree with the EOCD about count, size and where it ends.
-/

namespace VeraqisRecover.Zip

open ByteString LossyUtf8

/-- Where the central directory being read came from (`verdict.rs`). -/
inductive CdProvenance
  | originalSurviving
  | reconstructed
  | externalAttested
  | unknown
  deriving DecidableEq, Repr

namespace CdScan

def maxCandidates : ℕ := 4096
def maxRecordsPerChain : ℕ := 65536

/-- How one central-directory record relates to the local headers that survived. -/
inductive RecordSupport
  | supported
  | missingByHeadTruncation
  | conflicting
  | unresolved
  deriving DecidableEq, Repr

structure CdCandidate where
  start : ℕ
  stop : ℕ
  recordCount : ℕ
  byteLen : ℕ
  eocdConsistent : Bool
  supported : ℕ := 0
  missingByTruncation : ℕ := 0
  conflicting : ℕ := 0
  unresolved : ℕ := 0
  deltaCandidates : List ℤ := []
  acceptedDelta : Option ℤ := none
  rejection : Option String := none
  deriving DecidableEq, Repr

structure CdScanReport where
  candidates : List CdCandidate := []
  accepted : Option ℕ := none
  scannedBytes : ℕ := 0
  signatureCandidates : ℕ := 0
  provenance : Option CdProvenance := none
  deriving DecidableEq, Repr

def CdScanReport.acceptedCandidate (r : CdScanReport) : Option CdCandidate :=
  r.accepted.bind (r.candidates[·]?)

/-- The last EOCD signature at an offset in `start..stop`. -/
def lastEocdIn (data : Bytes) (start stop : ℕ) : Option ℕ :=
  (List.range' start (stop - start)).reverse.find? fun i ↦ u32le data i = some eocdSig

def findEocd (data : Bytes) : Option ℕ := do
  let stop ← checkedSub data.length 21
  lastEocdIn data (data.length - 65557) stop

structure CdRecord where
  stop : ℕ
  name : Text
  lfhOffset : ℕ
  method : ℕ
  deriving DecidableEq, Repr

/-- A name full of control bytes is a signature coincidence, not a filename. -/
def isPrintable (raw : Bytes) : Bool := raw.all fun b ↦ 0x20 ≤ b.toNat && b.toNat ≠ 0x7f

def parseRecord (data : Bytes) (pos : ℕ) : Option CdRecord := do
  let fixedEnd ← checkedAdd pos 46
  if data.length < fixedEnd ∨ u32le data pos ≠ some cdfhSig then none else
  let nameLen ← u16le data (pos + 28)
  let extraLen ← u16le data (pos + 30)
  let commentLen ← u16le data (pos + 32)
  let nameEnd ← checkedAdd fixedEnd nameLen
  let extraEnd ← checkedAdd nameEnd extraLen
  let stop ← checkedAdd extraEnd commentLen
  if data.length < stop ∨ nameLen = 0 then none else
  let raw ← slice? data (pos + 46) (pos + 46 + nameLen)
  if ¬ isPrintable raw then none else
  let lfhOffset ← u32le data (pos + 42)
  let method ← u16le data (pos + 10)
  some { stop, name := fromUtf8Lossy raw, lfhOffset, method }

/-- The printable name of the local header at `i`, when it fits in the file. -/
def headerName (data : Bytes) (i : ℕ) : Option Text := do
  let nameLen ← u16le data (i + 26)
  if nameLen = 0 then none else
  let raw ← slice? data (i + 30) (i + 30 + nameLen)
  if isPrintable raw then some (fromUtf8Lossy raw) else none

/-- Local headers by name in file order; a name is looked up at its first occurrence. -/
def indexLocalHeadersFrom (data : Bytes) (i : ℕ) (map : List (Text × ℕ)) : List (Text × ℕ) :=
  if i + 30 ≤ data.length then
    if u32le data i ≠ some lfhSig then indexLocalHeadersFrom data (i + 1) map
    else
      indexLocalHeadersFrom data (i + 4)
        (match headerName data i with
        | some name => if (map.lookup name).isSome then map else map ++ [(name, i)]
        | none => map)
  else map
termination_by data.length - i

def indexLocalHeaders (data : Bytes) : List (Text × ℕ) := indexLocalHeadersFrom data 0 []

/-- Every position carrying a directory-record signature, up to the candidate cap. -/
def signatureStarts (data : Bytes) : List ℕ :=
  ((List.range (data.length - 3)).filter fun i ↦ u32le data i = some cdfhSig).take maxCandidates

theorem parseRecord_bounds {data : Bytes} {pos : ℕ} {r : CdRecord}
    (h : parseRecord data pos = some r) : pos + 46 ≤ r.stop ∧ r.stop ≤ data.length := by
  simp only [parseRecord, Option.bind_eq_bind, Option.bind_eq_some_iff,
    Option.ite_none_left_eq_some, Option.some.injEq, checkedAdd_eq_some] at h
  obtain ⟨_, ⟨-, rfl⟩, -, _, -, _, -, _, -, _, ⟨-, rfl⟩, _, ⟨-, rfl⟩, _, ⟨-, rfl⟩, hle, _, -, -,
    _, -, _, -, rfl⟩ := h
  dsimp only
  omega

/-- Walk a chain of records and return it with the position after it. -/
def walkChain (data : Bytes) (pos : ℕ) (records : List CdRecord) : List CdRecord × ℕ :=
  if records.length < maxRecordsPerChain then
    match h : parseRecord data pos with
    | none => (records, pos)
    | some r =>
        have := parseRecord_bounds h
        walkChain data r.stop (records ++ [r])
  else (records, pos)
termination_by data.length - pos

/-- What the shifted offset of one record finds. -/
def supportOf (data : Bytes) (delta : ℤ) (r : CdRecord) : RecordSupport :=
  match checkedAddI64 r.lfhOffset delta with
  | none => .unresolved
  | some x =>
      if x < 0 then .missingByHeadTruncation
      else if x.toNat + 30 ≤ data.length then
        let pos := x.toNat
        let nameOk := (u16le data (pos + 26)).any fun nl ↦
          slice? data (pos + 30) (pos + 30 + nl) = some (asBytes r.name)
        let methodOk := u16le data (pos + 8) = some r.method
        if u32le data pos = some lfhSig ∧ nameOk ∧ methodOk then .supported else .conflicting
      else .conflicting

/-- The distinct shifts implied by records whose local header survived under its own name,
in increasing order. -/
def impliedDeltas (lfh : List (Text × ℕ)) (records : List CdRecord) : List ℤ :=
  let deltas := records.filterMap fun r ↦
    (lfh.lookup r.name).bind fun actual ↦ checkedAddI64 actual (-r.lfhOffset)
  (deltas.insertionSort (· ≤ ·)).destutter (· ≠ ·)

/-- Judge one walked chain against its implied shifts and the EOCD. -/
def judge (data : Bytes) (lfh : List (Text × ℕ)) (records : List CdRecord)
    (cand : CdCandidate) : CdCandidate :=
  let deltas := impliedDeltas lfh records
  let cand := { cand with deltaCandidates := deltas }
  match deltas with
  | [] =>
      { cand with
        unresolved := records.length
        rejection := some "no surviving local header pins the offset shift" }
  | [delta] =>
      let verdicts := records.map (supportOf data delta)
      let cand := { cand with
        supported := verdicts.count RecordSupport.supported
        missingByTruncation := verdicts.count RecordSupport.missingByHeadTruncation
        conflicting := verdicts.count RecordSupport.conflicting
        unresolved := verdicts.count RecordSupport.unresolved }
      if 0 < cand.conflicting then
        { cand with
          rejection := some "a record's shifted offset is in-bounds but has no local header" }
      else if cand.supported = 0 then { cand with rejection := some "no supported record" }
      else if ¬ cand.eocdConsistent then
        { cand with
          rejection := some "chain does not match the surviving EOCD count/size/boundary" }
      else { cand with acceptedDelta := some delta }
  | _ =>
      { cand with
        conflicting := records.length
        rejection := some "records require different offset shifts; no single delta" }

/-- What the surviving EOCD declares: its position, entry count and directory size. -/
structure DeclaredEocd where
  eocd : Option ℕ
  count : Option ℕ
  size : Option ℕ
  deriving DecidableEq, Repr

def declaredEocd (data : Bytes) : DeclaredEocd :=
  match findEocd data with
  | some e => ⟨some e, u16le data (e + 10), u32le data (e + 12)⟩
  | none => ⟨none, none, none⟩

def eocdConsistent (d : DeclaredEocd) (count byteLen pos : ℕ) : Bool :=
  match d.eocd, d.count, d.size with
  | some e, some c, some s => c = count && s = byteLen && pos = e
  | _, _, _ => false

/-- Validate the chain at one candidate start; records consumed by an earlier chain are not
new chains. -/
def validateStart (data : Bytes) (lfh : List (Text × ℕ)) (declared : DeclaredEocd)
    (acc : ℕ × List CdCandidate) (start : ℕ) : ℕ × List CdCandidate :=
  if start < acc.1 then acc
  else
    let (records, pos) := walkChain data start []
    if records = [] then acc
    else
      let cand : CdCandidate := {
        start, stop := pos, recordCount := records.length, byteLen := pos - start
        eocdConsistent := eocdConsistent declared records.length (pos - start) pos }
      (pos, acc.2 ++ [judge data lfh records cand])

def CdCandidate.isProven (c : CdCandidate) : Bool := c.rejection.isNone && c.acceptedDelta.isSome

/-- Scan for a surviving original central directory: accept at most one chain, on proof. -/
def scanSurvivingCd (data : Bytes) : CdScanReport :=
  if data.length < 46 then { scannedBytes := data.length }
  else
    let lfh := indexLocalHeaders data
    let starts := signatureStarts data
    let (_, candidates) := starts.foldl (validateStart data lfh (declaredEocd data)) (0, [])
    let report : CdScanReport :=
      { candidates, scannedBytes := data.length, signatureCandidates := starts.length }
    match (List.range candidates.length).filter fun i ↦
        candidates[i]?.any CdCandidate.isProven with
    | [] => report
    | [i] => { report with accepted := some i, provenance := some .originalSurviving }
    | _ =>
        { report with
          candidates := candidates.map fun c ↦
            if c.isProven then
              { c with
                rejection := some "ambiguous: another chain is equally well proven"
                acceptedDelta := none }
            else c
          provenance := some .unknown }

end CdScan

end VeraqisRecover.Zip
