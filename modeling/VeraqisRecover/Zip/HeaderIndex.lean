import VeraqisRecover.Zip.Container

/-!
# Physical index of local file headers

Built once per archive in one forward pass (`zip_index.rs`).  The filename hash
narrows a lookup to a bucket; the raw bytes decide membership.
-/

namespace VeraqisRecover.Zip

open ByteString

/-- FNV-1a over the raw filename bytes. -/
def nameHash (name : Bytes) : ℕ :=
  name.foldl (fun h b ↦ (h ^^^ b.toNat) * 0x00000100000001b3 % 2 ^ 64) 0xcbf29ce484222325

/-- One structurally plausible local file header found in the source. -/
structure LocalHeaderRecord where
  offset : ℕ
  nameStart : ℕ
  nameLen : ℕ
  method : ℕ
  flags : ℕ
  crc32 : ℕ
  compSize : ℕ
  uncompSize : ℕ
  dataStart : ℕ
  deriving DecidableEq, Repr

def LocalHeaderRecord.rawName (r : LocalHeaderRecord) (data : Bytes) : Option Bytes :=
  (checkedAdd r.nameStart r.nameLen).bind (slice? data r.nameStart)

/-- Past the payload where its size is known, so that an entry's contents mint no candidates. -/
def LocalHeaderRecord.next (r : LocalHeaderRecord) : ℕ :=
  if 0 < r.compSize then saturatingAdd r.dataStart r.compSize else r.dataStart

/-- Counters the operation-count gate reads. -/
structure IndexStats where
  indexedLfhCount : ℕ := 0
  indexBuildReads : ℕ := 0
  baseLookupBuckets : ℕ := 0
  baseCandidateProbes : ℕ := 0
  fallbackLinearProbes : ℕ := 0
  deriving DecidableEq, Repr

/-- Local headers of one source, indexed by position and by filename hash.  The two hash maps
are finite maps: an absent bucket is an empty one. -/
structure LocalHeaderIndex where
  records : List LocalHeaderRecord
  byName : ℕ → List ℕ
  byOffset : ℕ → Option ℕ
  stats : IndexStats

namespace LocalHeaderIndex

def empty : LocalHeaderIndex := ⟨[], fun _ ↦ [], fun _ ↦ none, {}⟩

def push (idx : LocalHeaderIndex) (name : Bytes) (r : LocalHeaderRecord) : LocalHeaderIndex :=
  let slot := idx.records.length
  { idx with
    records := idx.records ++ [r]
    byName := Function.update idx.byName (nameHash name) (idx.byName (nameHash name) ++ [slot])
    byOffset := Function.update idx.byOffset r.offset (some slot) }

/-- The header whose signature stands at `i`, with its name, when its variable-length fields
are plausible. -/
def plausibleHeader (data : Bytes) (policy : ZipRecoveryPolicy) (i : ℕ) :
    Option (Bytes × LocalHeaderRecord) := do
  let nameLen := (u16le data (i + 26)).getD 0
  let extraLen := (u16le data (i + 28)).getD 0
  if nameLen = 0 ∨ policy.maxNameBytes < nameLen ∨ policy.maxExtraBytes < extraLen then
    none else
  let nameStart := i + 30
  let nameEnd ← checkedAdd nameStart nameLen
  let dataStart ← checkedAdd nameEnd extraLen
  if data.length < dataStart then none else
  let name ← slice? data nameStart nameEnd
  some (name,
    { offset := i
      nameStart
      nameLen
      method := (u16le data (i + 8)).getD 0
      flags := (u16le data (i + 6)).getD 0
      crc32 := (u32le data (i + 14)).getD 0
      compSize := (u32le data (i + 18)).getD 0
      uncompSize := (u32le data (i + 22)).getD 0
      dataStart })

/-- The forward pass, with the number of byte positions it has examined. -/
def buildFrom (data : Bytes) (policy : ZipRecoveryPolicy) (horizon i reads : ℕ)
    (idx : LocalHeaderIndex) : LocalHeaderIndex × ℕ :=
  if i + 30 ≤ horizon then
    if u32le data i ≠ some lfhSig then buildFrom data policy horizon (i + 1) (reads + 1) idx
    else if policy.maxCandidateRecords ≤ idx.records.length then (idx, reads + 1)
    else match plausibleHeader data policy i with
      | none => buildFrom data policy horizon (i + 1) (reads + 1) idx
      | some (name, r) =>
          buildFrom data policy horizon (if i < r.next then r.next else i + 1) (reads + 1)
            (idx.push name r)
  else (idx, reads)
termination_by horizon - i
decreasing_by all_goals (try split) <;> omega

def build (data : Bytes) (policy : ZipRecoveryPolicy) : LocalHeaderIndex :=
  let (idx, reads) := buildFrom data policy (min data.length policy.maxScanBytes) 0 0 empty
  { idx with
    stats := { idx.stats with indexedLfhCount := idx.records.length, indexBuildReads := reads } }

/-- The header at exactly `offset`, if one was indexed there. -/
def atOffset (idx : LocalHeaderIndex) (offset : ℕ) : Option LocalHeaderRecord :=
  (idx.byOffset offset).bind (idx.records[·]?)

/-- Every indexed header whose raw filename bytes equal `name`, and the index with its probe
counters advanced. -/
def candidatesNamed (idx : LocalHeaderIndex) (data name : Bytes) :
    List LocalHeaderRecord × LocalHeaderIndex :=
  let slots := idx.byName (nameHash name)
  ((slots.filterMap (idx.records[·]?)).filter (·.rawName data = some name),
    { idx with
      stats := { idx.stats with
        baseLookupBuckets := idx.stats.baseLookupBuckets + 1
        baseCandidateProbes := idx.stats.baseCandidateProbes + slots.length } })

end LocalHeaderIndex

end VeraqisRecover.Zip
