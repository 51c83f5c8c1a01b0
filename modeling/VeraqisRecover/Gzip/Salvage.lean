import VeraqisRecover.Tar.Salvage

/-!
# GZIP multi-member salvage

`salvage_gzip` of `resync/gzip.rs` and the stored-block scan of
`resync/deflate.rs`.  The DEFLATE decoder is a parameter: what its successive
reads return, and how much input it has taken by then.  A result of `none`
stands for a panic.
-/

namespace VeraqisRecover.Gzip

open ByteString Tar

/-- Hard cap on a single decompressed member. -/
def maxMemberBytes : ℕ := 1024 * 1024 * 1024

inductive ReadResult where
  | ok (chunk : Bytes)
  | err

/-- `flate2`, as far as the salvager uses it: the reads of a body, each with
`total_in` after it, and the checksum. -/
structure GzDecoder where
  reads : Bytes → List (ReadResult × ℕ)
  crc32 : Bytes → ℕ

/-- The decoder never reports more input than it was given. -/
def GzDecoder.Bounded (dec : GzDecoder) : Prop :=
  ∀ body, ∀ x ∈ dec.reads body, x.2 ≤ body.length

structure InflateOutcome where
  plain : Bytes
  consumed : ℕ
  ok : Bool

def inflateLoop : List (ReadResult × ℕ) → Bytes → ℕ → InflateOutcome
  | [], plain, consumed => ⟨plain, consumed, true⟩
  | (.err, totalIn) :: _, plain, _ => ⟨plain, totalIn, false⟩
  | (.ok chunk, totalIn) :: rest, plain, _ =>
      if chunk = [] then ⟨plain, totalIn, true⟩
      else if maxMemberBytes < (plain ++ chunk).length then ⟨plain ++ chunk, totalIn, false⟩
      else inflateLoop rest (plain ++ chunk) totalIn

/-- Inflate one raw DEFLATE member, bounded. -/
def inflateMember (dec : GzDecoder) (body : Bytes) : InflateOutcome :=
  inflateLoop (dec.reads body) [] 0

/-! ## Stored blocks (`resync/deflate.rs`) -/

structure StoredBlock where
  headerOffset : ℕ
  len : ℕ
  payload : Bytes

def minStoredLen : ℕ := 8

/-- A stored block at `i`: length and complement agree, and the payload is present. -/
def storedBlockAt (data : Bytes) (i : ℕ) : Option StoredBlock := do
  let len ← u16le data i
  let nlen ← u16le data (i + 2)
  if len ^^^ nlen = 0xFFFF ∧ minStoredLen ≤ len then
    let payload ← slice? data (i + 4) (saturatingAdd (i + 4) len)
    some ⟨i, len, payload⟩
  else none

/-- The scan resumes past a block, and byte by byte elsewhere. -/
def scanFrom (data : Bytes) (i : ℕ) : List StoredBlock :=
  if i + 4 ≤ data.length then
    match storedBlockAt data i with
    | some b => b :: scanFrom data (i + 4 + b.len)
    | none => scanFrom data (i + 1)
  else []
termination_by data.length - i

def scanStoredBlocks (data : Bytes) : List StoredBlock :=
  if data.length < 4 + minStoredLen then [] else scanFrom data 0

/-! ## Members -/

def isMagic (data : Bytes) (i : ℕ) : Bool :=
  data[i]? = some 0x1F && data[i + 1]? = some 0x8B && data[i + 2]? = some 0x08

/-- Offsets of every member magic. -/
def memberStarts (data : Bytes) : List ℕ :=
  (List.range (data.length - 2)).filter (isMagic data)

def skipZstringLoop : Bytes → ℕ → Option ℕ
  | [], _ => none
  | b :: rest, pos => if b ≠ 0 then skipZstringLoop rest (pos + 1) else some (pos + 1)

/-- Advance past a NUL-terminated string. -/
def skipZstring (data : Bytes) (pos : ℕ) : Option ℕ := skipZstringLoop (data.drop pos) pos

/-- FEXTRA: a two-byte length and the payload. -/
def skipExtra (data : Bytes) (pos : ℕ) : Option ℕ := (u16le data pos).map (pos + 2 + ·)

/-- A part of the header that is only there when a flag says so. -/
def skipIf (c : Bool) (skip : ℕ → Option ℕ) (pos : ℕ) : Option ℕ :=
  if c then skip pos else some pos

/-- Byte length of the header at `off`. -/
def gzHeaderLen (data : Bytes) (off : ℕ) : Option ℕ := do
  let h ← slice? data off (off + 10)
  if !isMagic h 0 then none
  else do
    let flags ← h[3]?
    let pos ← skipIf (flags &&& 0x04 != 0) (skipExtra data) (off + 10)
    let pos ← skipIf (flags &&& 0x08 != 0) (skipZstring data) pos
    let pos ← skipIf (flags &&& 0x10 != 0) (skipZstring data) pos
    let pos ← skipIf (flags &&& 0x02 != 0) (fun pos ↦ some (pos + 2)) pos
    if data.length < pos then none else some (pos - off)

def readTrailer (data : Bytes) (i : ℕ) : Option (ℕ × ℕ) := do
  let crc ← u32le data i
  let isize ← u32le data (i + 4)
  some (crc, isize)

/-! ## The loop -/

def inflateSegment (start : ℕ) (plain : Bytes) : Segment where
  kind := .partialInflate
  name := none
  sourceOffset := start
  sourceEnd := start
  bytes := plain
  note := s!"partial inflate before corruption ({plain.length} B, UNVERIFIED)"

def blockSegment (bodyStart : ℕ) (b : StoredBlock) : Segment where
  kind := .storedBlockSalvage
  name := none
  sourceOffset := bodyStart + b.headerOffset
  sourceEnd := bodyStart + b.headerOffset
  bytes := b.payload
  note := s!"DEFLATE stored block ({b.len} B, UNVERIFIED)"

/-- Best-effort salvage of a corrupt member, never verified. -/
def salvageUnverified (res : SalvageResult) (start bodyStart : ℕ) (plain body : Bytes) :
    SalvageResult :=
  let res := if plain = [] then res else res.push (inflateSegment start plain)
  (scanStoredBlocks body).foldl (fun res b ↦ res.push (blockSegment bodyStart b)) res

/-- The body of an unproven member is cut out up to the next magic. -/
def unproven (data : Bytes) (res : SalvageResult) (start bodyStart nextStart : ℕ) (plain : Bytes) :
    Option (SalvageResult × ℕ) := do
  let body ← slice? data bodyStart nextStart
  some (salvageUnverified res start bodyStart plain body, nextStart)

/-- The segment of a proven member. -/
def memberSegment (data : Bytes) (start trailerEnd : ℕ) (label : String) (plain : Bytes) :
    Segment where
  kind := .verifiedGzipMember
  name := some label.toList
  sourceOffset := start
  sourceEnd := min trailerEnd data.length
  bytes := plain
  note := s!"CRC32+ISIZE verified ({plain.length} B)"

/-- A member whose body has been inflated, as far as it went. -/
def judge (dec : GzDecoder) (data : Bytes) (start bodyStart nextStart : ℕ) (label : String)
    (outcome : InflateOutcome) (res : SalvageResult) : Option (SalvageResult × ℕ) :=
  if outcome.ok then do
    let trailerAt ← checkedAdd bodyStart outcome.consumed
    let trailerEnd ← checkedAdd trailerAt 8
    match readTrailer data trailerAt with
    | some (crc, isize) =>
        if dec.crc32 outcome.plain = crc ∧ outcome.plain.length % 2 ^ 32 = isize then
          some (res.push (memberSegment data start trailerEnd label outcome.plain), trailerEnd)
        else
          unproven data (res.warn s!"{label}: inflated but trailer mismatch — best-effort only")
            start bodyStart nextStart outcome.plain
    | none =>
        unproven data (res.warn s!"{label}: inflated but trailer truncated")
          start bodyStart nextStart outcome.plain
  else
    unproven data (res.warn s!"{label}: DEFLATE decode failed — resync salvage")
      start bodyStart nextStart outcome.plain

/-- One member: the result and the resume cursor after it. -/
def memberTurn (dec : GzDecoder) (data : Bytes) (start nextStart : ℕ) (res : SalvageResult) :
    Option (SalvageResult × ℕ) :=
  let res := { res with membersTotal := res.membersTotal + 1 }
  let label := s!"member#{res.membersTotal}"
  match gzHeaderLen data start with
  | none => some (res.warn s!"{label} at {start}: malformed header — skipped", nextStart)
  | some hlen => do
      let bodyStart := start + hlen
      let body ← slice? data bodyStart data.length
      judge dec data start bodyStart nextStart label (inflateMember dec body) res

/-- The member after the first of `rest`, or the end of the data. -/
def nextStart (data : Bytes) (rest : List ℕ) : ℕ := rest.head?.getD data.length

def memberLoop (dec : GzDecoder) (data : Bytes) :
    List ℕ → ℕ → SalvageResult → Option SalvageResult
  | [], _, res => some res
  | start :: rest, cursor, res =>
      -- inside a member that has been consumed
      if start < cursor then memberLoop dec data rest cursor res
      else do
        let (res, cursor) ← memberTurn dec data start (nextStart data rest) res
        memberLoop dec data rest cursor res

/-- Recover every CRC-verified member from a GZIP byte stream. -/
def salvageGzip (dec : GzDecoder) (data : Bytes) : Option SalvageResult :=
  let res : SalvageResult := { format := "gzip" }
  if memberStarts data = [] then some (res.warn "no GZIP member magic (1F 8B 08) found")
  else do
    let res ← memberLoop dec data (memberStarts data) 0 res
    some (if res.membersVerified = 0 then
      res.warn "no member could be CRC-verified; nothing returned as exact" else res)

end VeraqisRecover.Gzip
