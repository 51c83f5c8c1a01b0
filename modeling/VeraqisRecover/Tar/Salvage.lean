import VeraqisRecover.Support.LossyUtf8
import VeraqisRecover.Support.Octal
import VeraqisRecover.Support.Overwrite

/-!
# TAR continuation salvage

`salvage_tar` of `resync/tar.rs`.  A TAR stream is read in 512-byte blocks.
Zero blocks and blocks without a valid header are stepped over; a member is
returned when its header checksum holds and its data is present.
-/

namespace VeraqisRecover.Tar

open ByteString LossyUtf8

def block : ℕ := 512

/-! ## What a salvage returns (`resync/mod.rs`) -/

inductive SegmentKind
  | verifiedGzipMember
  | verifiedTarMember
  | storedBlockSalvage
  | partialInflate
  deriving DecidableEq, Repr

def SegmentKind.isVerified : SegmentKind → Bool
  | verifiedGzipMember => true
  | verifiedTarMember => true
  | storedBlockSalvage => false
  | partialInflate => false

structure Segment where
  kind : SegmentKind
  name : Option Text
  sourceOffset : ℕ
  sourceEnd : ℕ
  bytes : Bytes
  note : String
  deriving DecidableEq, Repr

def Segment.verified (s : Segment) : Bool := s.kind.isVerified

structure SalvageResult where
  format : String
  segments : List Segment := []
  membersTotal : ℕ := 0
  membersVerified : ℕ := 0
  verifiedBytes : ℕ := 0
  unverifiedBytes : ℕ := 0
  warnings : List String := []
  deriving DecidableEq, Repr

namespace SalvageResult

def warn (res : SalvageResult) (w : String) : SalvageResult :=
  { res with warnings := res.warnings ++ [w] }

/-- Record a segment, updating byte and member tallies. -/
def push (res : SalvageResult) (seg : Segment) : SalvageResult :=
  if seg.verified then
    { res with
      verifiedBytes := res.verifiedBytes + seg.bytes.length
      membersVerified := res.membersVerified + 1
      segments := res.segments ++ [seg] }
  else
    { res with
      unverifiedBytes := res.unverifiedBytes + seg.bytes.length
      segments := res.segments ++ [seg] }

/-- Concatenated exact bytes (verified segments only). -/
def verifiedPayload (res : SalvageResult) : Bytes :=
  res.segments.foldl (fun out s ↦ if s.verified then out ++ s.bytes else out) []

@[simp] theorem push_segments (res : SalvageResult) (seg : Segment) :
    (res.push seg).segments = res.segments ++ [seg] := by
  unfold push
  split <;> rfl

end SalvageResult

/-! ## Header fields -/

/-- The first non-empty piece of a NUL- or space-separated field, as an octal number. -/
def octal (f : Bytes) : Option ℕ := do
  let s ← (f.splitOnP fun b ↦ b = 0 || b = 0x20).find? (· ≠ [])
  if isUtf8 s then Octal.fromStrRadix s else none

def cstr (f : Bytes) : Text := fromUtf8Lossy (f.takeWhile (· ≠ 0))

/-- The member path: the name, after the prefix when there is one. -/
def readName (b : Bytes) : Text :=
  let name := cstr (field b 0 100)
  let pre := cstr (field b 345 155)
  if pre = [] then name else pre ++ '/' :: name

/-- The sum of the bytes with the checksum field taken as spaces. -/
def computeChecksum (b : Bytes) : ℕ :=
  (b.zipIdx.map fun p ↦ if 148 ≤ p.2 ∧ p.2 < 156 then 0x20 else p.1.toNat).sum

def readChecksum (b : Bytes) : Option ℕ := (octal (field b 148 8)).map (· % 2 ^ 32)

def ustar : Bytes := [0x75, 0x73, 0x74, 0x61, 0x72]

def isZero (b : Bytes) : Bool := b.all (· = 0)

def hasMagic (b : Bytes) : Bool := field b 257 5 = ustar

def checksumHolds (b : Bytes) : Bool := readChecksum b = some (computeChecksum b)

/-- The declared data size; an unreadable field counts as none. -/
def declaredSize (b : Bytes) : ℕ := (octal (field b 124 12)).getD 0

def divCeil (a b : ℕ) : ℕ := (a + b - 1) / b

/-- Bytes the data of a member takes on disk. -/
def paddedSize (size : ℕ) : ℕ := divCeil size block * block

/-! ## The walk -/

structure SalvageState where
  res : SalvageResult
  zeroBlocks : ℕ := 0
  skippedHeaders : ℕ := 0
  deriving DecidableEq, Repr

/-- The segment of the member whose header stands at `pos`. -/
def memberSegment (data : Bytes) (pos : ℕ) : Segment :=
  let b := field data pos block
  let size := declaredSize b
  let dataStart := pos + block
  { kind := .verifiedTarMember
    name := some (readName b)
    sourceOffset := pos
    sourceEnd := min (dataStart + paddedSize size) data.length
    bytes := field data dataStart size
    note := s!"ustar checksum verified; {size} B data (header-proven)" }

/-- One block of the walk: the position it goes on at, and the state. -/
def salvageStep (data : Bytes) (pos : ℕ) (s : SalvageState) : ℕ × SalvageState :=
  let b := field data pos block
  if isZero b then (pos + block, { s with zeroBlocks := s.zeroBlocks + 1 })
  else if !hasMagic b then (pos + block, { s with skippedHeaders := s.skippedHeaders + 1 })
  else if !checksumHolds b then
    (pos + block, { s with
      skippedHeaders := s.skippedHeaders + 1
      res := s.res.warn s!"block {pos / block}: ustar checksum mismatch — skipped" })
  else
    let res := { s.res with membersTotal := s.res.membersTotal + 1 }
    let size := declaredSize b
    let dataStart := pos + block
    -- an end past the word size is past the end of the data as well
    if dataStart + size ≤ data.length then
      (dataStart + paddedSize size, { s with res := res.push (memberSegment data pos) })
    else
      (data.length, { s with
        res := res.warn <| s!"member '{String.ofList (readName b)}': declared {size} B data " ++
          "is truncated — abstained" })

theorem salvageStep_lt {data : Bytes} {pos : ℕ} (h : pos + block ≤ data.length)
    (s : SalvageState) : pos < (salvageStep data pos s).1 := by
  unfold salvageStep
  dsimp only
  unfold block at *
  split
  · omega
  · split
    · omega
    · split
      · omega
      · split
        · dsimp only
          omega
        · dsimp only
          omega

def salvageFrom (data : Bytes) (pos : ℕ) (s : SalvageState) : SalvageState :=
  if h : pos + block ≤ data.length then
    have := salvageStep_lt h s
    salvageFrom data (salvageStep data pos s).1 (salvageStep data pos s).2
  else s
termination_by data.length - pos
decreasing_by unfold block at *; omega

/-- Recover every checksum-verified member from a TAR byte stream. -/
def salvageTar (data : Bytes) : SalvageResult :=
  let res : SalvageResult := { format := "tar" }
  if data.length < block then res.warn "input shorter than one 512-byte TAR block"
  else
    let s := salvageFrom data 0 { res }
    { s.res with
      warnings := s.res.warnings ++
        (if 0 < s.zeroBlocks then
          [s!"skipped {s.zeroBlocks} zero block(s) and continued (ignore-zeros)"] else []) ++
        (if 0 < s.skippedHeaders then
          [s!"resynced past {s.skippedHeaders} unreadable block(s)"] else []) ++
        (if s.res.membersVerified = 0 then ["no member could be checksum-verified"] else []) }

end VeraqisRecover.Tar
