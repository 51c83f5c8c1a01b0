import VeraqisRecover.Zip.Policy

/-!
# Container ownership

Which archive does a byte range belong to (`zip_container.rs`)?  A ZIP stored
inside another ZIP has valid headers, a valid directory and a valid EOCD.  An
EOCD candidate owns a range only when its directory walks and every record,
rebased, lands on a local header carrying the record's own name.
-/

namespace VeraqisRecover.Zip

open ByteString

def lfhSig : ℕ := 0x04034b50
def cdfhSig : ℕ := 0x02014b50
def eocdSig : ℕ := 0x06054b50

/-- Smallest possible EOCD record. -/
def eocdLen : ℕ := 22

def maxEmbeddedArchives : ℕ := 4096

/-- A ZIP archive proven to be embedded in the source at a non-zero base. -/
structure EmbeddedArchive where
  base : ℕ
  stop : ℕ
  cdStart : ℕ
  eocd : ℕ
  records : ℕ
  confirmedRecords : ℕ
  deriving DecidableEq, Repr

/-- Half-open containment `[base, end)`. -/
def EmbeddedArchive.contains (a : EmbeddedArchive) (offset : ℕ) : Bool :=
  a.base ≤ offset && offset < a.stop

inductive ContainerOwnership
  | outerContainer
  | nestedContainer
  | ambiguousContainer
  deriving DecidableEq, Repr

def ContainerOwnership.code : ContainerOwnership → String
  | outerContainer => "OUTER_CONTAINER"
  | nestedContainer => "NESTED_CONTAINER_DETECTED"
  | ambiguousContainer => "AMBIGUOUS_CONTAINER_OWNERSHIP"

/-- Is there a local file header exactly at `o`? -/
def localHeaderPresent (data : Bytes) (o : ℕ) : Bool :=
  (checkedAdd o 30).any (· ≤ data.length) && u32le data o = some lfhSig

/-- Does a local header carrying exactly `name` sit at `o`?  The copies in `zip_container.rs`
and `opc_zip.rs` are the same function. -/
def headerNamedAt (data : Bytes) (o : ℕ) (name : Bytes) : Bool :=
  localHeaderPresent data o && u16le data (o + 26) = some name.length &&
    slice? data (o + 30) (o + 30 + name.length) = some name

/-! ## Directory chains -/

/-- What the container walks read from one directory record. -/
structure ChainRecord where
  name : Bytes
  recEnd : ℕ
  relLho : ℕ

/-- Read the directory record at `o`, required to end at or before `cdEnd`. -/
def chainRecordAt (data : Bytes) (o cdEnd : ℕ) (policy : ZipRecoveryPolicy) :
    Option ChainRecord := do
  let nameLen ← u16le data (o + 28)
  let extraLen ← u16le data (o + 30)
  let cmtLen ← u16le data (o + 32)
  let relLho ← u32le data (o + 42)
  if policy.maxNameBytes < nameLen ∨ policy.maxExtraBytes < extraLen then none else
  let nameStart ← checkedAdd o 46
  let nameEnd ← checkedAdd nameStart nameLen
  let extraEnd ← checkedAdd nameEnd extraLen
  let recEnd ← checkedAdd extraEnd cmtLen
  if cdEnd < recEnd then none else
  let name ← slice? data nameStart nameEnd
  some ⟨name, recEnd, relLho⟩

theorem chainRecordAt_bounds {data : Bytes} {o cdEnd : ℕ} {policy : ZipRecoveryPolicy}
    {r : ChainRecord} (h : chainRecordAt data o cdEnd policy = some r) :
    o + 46 ≤ r.recEnd ∧ r.recEnd ≤ cdEnd := by
  simp only [chainRecordAt, Option.bind_eq_bind, Option.bind_eq_some_iff,
    Option.ite_none_left_eq_some, Option.some.injEq, checkedAdd_eq_some] at h
  obtain ⟨_, -, _, -, _, -, _, -, -, _, ⟨-, rfl⟩, _, ⟨-, rfl⟩, _, ⟨-, rfl⟩, _, ⟨-, rfl⟩,
    hle, _, -, rfl⟩ := h
  dsimp only
  omega

/-- Walk a directory chain and yield each record's name and relative local-header offset;
the chain must consume the directory exactly. -/
def chainRecordsFrom (data : Bytes) (cdEnd : ℕ) (policy : ZipRecoveryPolicy) (o : ℕ)
    (out : List (Bytes × ℕ)) : Option (List (Bytes × ℕ)) :=
  if o + 46 ≤ cdEnd ∧ out.length < policy.maxCentralRecords ∧ u32le data o = some cdfhSig then
    match h : chainRecordAt data o cdEnd policy with
    | none => none
    | some r =>
        have := chainRecordAt_bounds h
        chainRecordsFrom data cdEnd policy r.recEnd (out ++ [(r.name, r.relLho)])
  else if o = cdEnd then some out else none
termination_by cdEnd - o

def chainRecords (data : Bytes) (cdStart cdEnd : ℕ) (policy : ZipRecoveryPolicy) :
    Option (List (Bytes × ℕ)) :=
  chainRecordsFrom data cdEnd policy cdStart []

/-- Would `base` confirm every record of this chain? -/
def candidateBaseConfirms (data : Bytes) (cdStart cdEnd base : ℕ)
    (policy : ZipRecoveryPolicy) : Bool :=
  match chainRecords data cdStart cdEnd policy with
  | none => false
  | some recs => !recs.isEmpty && recs.all fun r ↦
      (checkedAdd base r.2).any fun abs ↦ abs < cdStart && headerNamedAt data abs r.1

/-- The candidate bases are the offsets of real local headers carrying the first record's name. -/
def probeBase (data : Bytes) (cdStart cdEnd : ℕ) (policy : ZipRecoveryPolicy)
    (firstName : Bytes) (firstRel probe : ℕ) : Option ℕ :=
  if probe + 30 ≤ cdStart then
    if (u32le data probe = some lfhSig ∧ headerNamedAt data probe firstName ∧
        firstRel ≤ probe) ∧ 0 < probe - firstRel ∧
        candidateBaseConfirms data cdStart cdEnd (probe - firstRel) policy then
      some (probe - firstRel)
    else probeBase data cdStart cdEnd policy firstName firstRel (probe + 1)
  else none
termination_by cdStart - probe

/-- Pin the base from the first record, then require every record to agree with it. -/
def deriveBaseFromRecords (data : Bytes) (cdStart cdEnd : ℕ) (policy : ZipRecoveryPolicy) :
    Option ℕ := do
  let recs ← chainRecords data cdStart cdEnd policy
  let first ← recs.head?
  probeBase data cdStart cdEnd policy first.1 first.2 0

/-- The confirming walk of `validate_embedded`: records walked and records confirmed. -/
def confirmRecords (data : Bytes) (cdStart cdEnd base : ℕ) (policy : ZipRecoveryPolicy)
    (o records confirmed : ℕ) : Option (ℕ × ℕ) :=
  if o + 46 ≤ cdEnd ∧ records < policy.maxCentralRecords ∧ u32le data o = some cdfhSig then
    match h : chainRecordAt data o cdEnd policy with
    | none => none
    | some r =>
        have := chainRecordAt_bounds h
        let lands := (checkedAdd base r.relLho).any fun abs ↦
          abs < cdStart && headerNamedAt data abs r.name
        confirmRecords data cdStart cdEnd base policy r.recEnd (records + 1)
          (if lands then confirmed + 1 else confirmed)
  else some (records, confirmed)
termination_by cdEnd - o

/-- Validate one EOCD candidate as an embedded archive: absent unless every check holds. -/
def validateEmbedded (data : Bytes) (eocd : ℕ) (policy : ZipRecoveryPolicy) :
    Option EmbeddedArchive := do
  let total ← u16le data (eocd + 10)
  let cdSize ← u32le data (eocd + 12)
  let cdOffset ← u32le data (eocd + 16)
  let commentLen ← u16le data (eocd + 20)
  if total = 0 ∨ cdSize = 0 then none else
  if policy.maxCommentBytes < commentLen then none else
  let cdStart ← checkedSub eocd cdSize
  let cdEnd := eocd
  if data.length < cdEnd ∨ u32le data cdStart ≠ some cdfhSig then none else
  let declared := (checkedSub cdStart cdOffset).filter fun b ↦
    0 < b && candidateBaseConfirms data cdStart cdEnd b policy
  let base ← declared.or (deriveBaseFromRecords data cdStart cdEnd policy)
  if base = 0 ∨ cdStart ≤ base then none else
  let (records, confirmed) ← confirmRecords data cdStart cdEnd base policy cdStart 0 0
  if records = 0 ∨ records ≠ total then none else
  let eocdEnd ← checkedAdd eocd eocdLen
  let commentEnd ← checkedAdd eocdEnd commentLen
  let stop := min commentEnd data.length
  -- an embedded archive is followed by more of its host
  if data.length ≤ stop then none else
  some { base, stop, cdStart, eocd, records, confirmedRecords := confirmed }

/-! ## The ownership map -/

/-- Validated embedded archives, sorted by base. -/
structure ContainerOwnershipMap where
  archives : List EmbeddedArchive
  deriving DecidableEq, Repr

def detectFrom (data : Bytes) (policy : ZipRecoveryPolicy) (horizon p : ℕ)
    (archives : List EmbeddedArchive) : List EmbeddedArchive :=
  if p + eocdLen ≤ horizon then
    if u32le data p ≠ some eocdSig then detectFrom data policy horizon (p + 1) archives
    else if maxEmbeddedArchives ≤ archives.length then archives
    else match validateEmbedded data p policy with
      | some a => detectFrom data policy horizon (p + 1) (archives ++ [a])
      | none => detectFrom data policy horizon (p + 1) archives
  else archives
termination_by horizon - p
decreasing_by all_goals (unfold eocdLen at *; omega)

/-- `(a.base, a.end) ≤ (b.base, b.end)`, the key `detect` sorts by. -/
def EmbeddedArchive.Before (a b : EmbeddedArchive) : Prop :=
  a.base < b.base ∨ a.base = b.base ∧ a.stop ≤ b.stop

instance : DecidableRel EmbeddedArchive.Before := fun a b ↦
  inferInstanceAs (Decidable (a.base < b.base ∨ a.base = b.base ∧ a.stop ≤ b.stop))

namespace ContainerOwnershipMap

/-- Detect every embedded archive in `data`.  The sort is stable and `destutter` keeps the first
of each run of equal bases, as `dedup_by_key` does. -/
def detect (data : Bytes) (policy : ZipRecoveryPolicy) : ContainerOwnershipMap :=
  if data.length < eocdLen then ⟨[]⟩
  else
    let horizon := min data.length policy.maxScanBytes
    let archives := detectFrom data policy horizon 0 []
    ⟨(archives.insertionSort EmbeddedArchive.Before).destutter (·.base ≠ ·.base)⟩

/-- The innermost validated archive containing `offset`: everything at or below it in base
order is examined from the back, and a later base wins. -/
def ownerOf (m : ContainerOwnershipMap) (offset : ℕ) : Option EmbeddedArchive :=
  (m.archives.takeWhile fun a ↦ a.base ≤ offset).reverse.foldl
    (fun best a ↦
      if a.contains offset && best.all (fun b ↦ b.base < a.base) then some a else best) none

def ownershipOf (m : ContainerOwnershipMap) (offset : ℕ) : ContainerOwnership :=
  match m.ownerOf offset with
  | some _ => .nestedContainer
  | none => .outerContainer

end ContainerOwnershipMap

end VeraqisRecover.Zip
