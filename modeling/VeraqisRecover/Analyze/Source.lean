import VeraqisRecover.Support.Checked
import VeraqisRecover.Support.LossyUtf8

/-!
# The bytes being analyzed, and what a defect looks like

The in-memory `DataSource` of `reader/data_source.rs`, and the records the
detector emits (`model/corruption.rs`, `corruption/classifier.rs`).
-/

namespace VeraqisRecover.Analyze

open ByteString Checked

/-- An in-memory source.  No buffer is longer than `isize::MAX`. -/
structure DataSource where
  bytes : Bytes
  addressable : bytes.length < 2 ^ 63

namespace DataSource

def len (s : DataSource) : ℕ := s.bytes.length

/-- What `read_at` puts into a buffer of `want` bytes. -/
def readAt (s : DataSource) (offset want : ℕ) : Checked Bytes :=
  if s.len ≤ offset then return []
  else do
    let avail ← range s.bytes offset s.len
    range avail 0 (min avail.length want)

/-- Read an exact-length region; a short read is an error. -/
def readExactAt (s : DataSource) (offset want : ℕ) : Checked (Option Bytes) := do
  allocate want
  let b ← s.readAt offset want
  return if b.length < want then none else some b

theorem len_lt (s : DataSource) : s.len < 2 ^ 63 := s.addressable

theorem readAt_eq (s : DataSource) (offset want : ℕ) :
    s.readAt offset want = .ok ((s.bytes.drop offset).take want) := by
  unfold readAt
  split
  · rename_i hlen
    rw [List.drop_eq_nil_of_le hlen, List.take_nil]
    rfl
  · rename_i hlen
    have hle : offset ≤ s.len := by omega
    have hdrop : (s.bytes.drop offset).take (s.len - offset) = s.bytes.drop offset :=
      List.take_of_length_le (by rw [List.length_drop]; exact le_rfl)
    rw [range_eq hle le_rfl, hdrop]
    change range (s.bytes.drop offset) 0 (min (s.bytes.drop offset).length want) = _
    rw [range_eq (Nat.zero_le _) (min_le_left _ _), List.drop_zero, Nat.sub_zero, min_comm,
      ← List.take_eq_take_min]

theorem readExactAt_eq (s : DataSource) {offset want : ℕ} (hwant : want < 2 ^ 63) :
    s.readExactAt offset want =
      .ok (if ((s.bytes.drop offset).take want).length < want then none
        else some ((s.bytes.drop offset).take want)) := by
  rw [readExactAt, allocate_eq hwant, readAt_eq]
  rfl

theorem readAt_returns (s : DataSource) (offset want : ℕ) :
    Returns (s.readAt offset want) fun b ↦ b.length ≤ want :=
  ⟨_, s.readAt_eq offset want, List.length_take_le _ _⟩

theorem readExactAt_returns (s : DataSource) {offset want : ℕ} (hwant : want < 2 ^ 63) :
    Returns (s.readExactAt offset want) fun r ↦
      ∀ b ∈ r, b.length = want ∧ (offset + want ≤ s.len ∨ want = 0) := by
  refine ⟨_, s.readExactAt_eq hwant, ?_⟩
  split
  · simp
  · rename_i hlen
    intro b hb
    obtain rfl := Option.some.inj hb
    rw [List.length_take, List.length_drop] at hlen ⊢
    unfold len
    omega

end DataSource

/-- The two-byte field at `pos + k`. -/
def u16Field (d : Bytes) (pos k : ℕ) : Checked ℕ := do
  let first ← add 64 pos k
  let last ← add 64 pos (k + 2)
  let b ← range d first last
  leAt 2 b 0

/-- The four-byte field at `pos + k`. -/
def u32Field (d : Bytes) (pos k : ℕ) : Checked ℕ := do
  let first ← add 64 pos k
  let last ← add 64 pos (k + 4)
  let b ← range d first last
  leAt 4 b 0

theorem u16Field_returns {d : Bytes} {pos k : ℕ} (hd : d.length < 2 ^ 63)
    (h : pos + k + 2 ≤ d.length) : Returns (u16Field d pos k) (· < 2 ^ 16) := by
  refine (add_returns (by omega)).bind fun first hfirst ↦ ?_
  refine (add_returns (by omega)).bind fun last hlast ↦ ?_
  refine (range_returns (by omega) (by omega)).bind fun b hb ↦ ?_
  exact leAt_returns (by omega)

theorem u32Field_returns {d : Bytes} {pos k : ℕ} (hd : d.length < 2 ^ 63)
    (h : pos + k + 4 ≤ d.length) : Returns (u32Field d pos k) (· < 2 ^ 32) := by
  refine (add_returns (by omega)).bind fun first hfirst ↦ ?_
  refine (add_returns (by omega)).bind fun last hlast ↦ ?_
  refine (range_returns (by omega) (by omega)).bind fun b hb ↦ ?_
  exact leAt_returns (by omega)

theorem u16Field_eq {d : Bytes} {pos k v : ℕ} (hd : d.length < 2 ^ 63)
    (h : u16le d (pos + k) = some v) : u16Field d pos k = .ok v := by
  have hle := le_length_of_u16le h
  have hfield : u16le ((d.drop (pos + k)).take 2) 0 = some v := by
    rw [← h]
    refine u16le_congr fun j hj ↦ ?_
    rw [List.getElem?_take_of_lt (by omega), List.getElem?_drop, Nat.zero_add]
  rw [u16Field, add_eq (by omega), add_eq (by omega)]
  change (range d (pos + k) (pos + (k + 2)) >>= fun b ↦ leAt 2 b 0) = _
  rw [range_eq (by omega) (by omega), show pos + (k + 2) - (pos + k) = 2 by omega]
  exact leAt_of_u16le hfield

theorem u32Field_eq {d : Bytes} {pos k v : ℕ} (hd : d.length < 2 ^ 63)
    (h : u32le d (pos + k) = some v) : u32Field d pos k = .ok v := by
  have hle := le_length_of_u32le h
  have hfield : u32le ((d.drop (pos + k)).take 4) 0 = some v := by
    rw [← h]
    refine u32le_congr fun j hj ↦ ?_
    rw [List.getElem?_take_of_lt (by omega), List.getElem?_drop, Nat.zero_add]
  rw [u32Field, add_eq (by omega), add_eq (by omega)]
  change (range d (pos + k) (pos + (k + 4)) >>= fun b ↦ leAt 4 b 0) = _
  rw [range_eq (by omega) (by omega), show pos + (k + 4) - (pos + k) = 4 by omega]
  exact leAt_of_u32le hfield

inductive ArchiveFormat
  | raw | zip | tar | iso9660 | gzip | sqlite | sevenZ | rar | pdf | bzip2 | xz | zstd | lz4
  deriving DecidableEq, Repr

/-- What the detector reads of an integrity result. -/
structure IntegrityResult where
  manifestPresent : Bool
  expectedHash : Option Text
  actualHash : Text
  isMatch : Bool
  deriving DecidableEq, Repr

/-- The kinds of defect the detector can locate. -/
inductive DefectKind
  | zipMissingEocd | zipEocdCdOffsetOob | zipCentralDirectoryMissing | zipEntryCountMismatch
  | zipLocalHeaderMissing | zipCrcMismatch | zipSizeMismatch
  | tarHeaderChecksumBad | tarMissingTerminator | tarTruncated
  | sqMagicBad | sqPageSizeBad | sqPageSizeMismatch | sqFileChangeCounter
  | sqBtreePageTypeBad | sqBtreeCellCountBad | sqBtreeCellPtrBad
  | sqFreelistTrunkBad | sqFreelistCountBad | sqTruncatedMidPage | sqTruncatedBeforePage2
  | sqWalMagicBad | sqWalSaltMismatch
  | isoMissingPvd | isoPathTableOutOfBounds
  | gzMagicBad | gzCompressionMethodBad | gzTruncated | gzCrcBad | gzIsizeBad
  | sevenZMagicBad | sevenZStartHeaderCrcBad | sevenZEndHeaderOob
  | rarMagicBad | manifestHashMismatch | referenceDiff
  deriving DecidableEq, Repr

structure ByteRange where
  start : ℕ
  stop : ℕ
  deriving DecidableEq, Repr

/-- Panics in debug builds if `stop < start`. -/
def ByteRange.new (start stop : ℕ) : Checked ByteRange := do
  debugAssert (start ≤ stop)
  return ⟨start, stop⟩

/-- Where a corruption was found. -/
structure CorruptionLocation where
  filePath : Option Text
  offsetStart : ℕ
  offsetEnd : ℕ
  deriving DecidableEq, Repr

/-- A stream-level location. -/
def CorruptionLocation.stream (offsetStart offsetEnd : ℕ) : Checked CorruptionLocation := do
  debugAssert (offsetStart ≤ offsetEnd)
  return ⟨none, offsetStart, offsetEnd⟩

/-- A defect located by the detector. -/
structure Detected where
  kind : DefectKind
  location : CorruptionLocation
  byteRange : Option ByteRange := none
  actualBytes : Bytes := []
  expectedBytes : Option Bytes := none
  confidence : Option ℚ := none
  ruleIdOverride : Option String := none
  detail : String := ""
  deriving DecidableEq, Repr

def Detected.Ordered (d : Detected) : Prop := d.location.offsetStart ≤ d.location.offsetEnd

def AllOrdered (out : List Detected) : Prop := ∀ d ∈ out, d.Ordered

/-- Confidence for a pointer beyond the end of the file, or else close to it
(`corruption/confidence.rs`). -/
def offsetOutOfBounds (offset fileSize : ℕ) : ℚ := if fileSize < offset then 1 else 9 / 10

theorem stream_returns {a b : ℕ} (h : a ≤ b) :
    Returns (CorruptionLocation.stream a b) fun l ↦ l.offsetStart ≤ l.offsetEnd :=
  ⟨⟨none, a, b⟩, by rw [CorruptionLocation.stream, debugAssert_eq h]; rfl, h⟩

theorem byteRange_new_returns {a b : ℕ} (h : a ≤ b) :
    Returns (ByteRange.new a b) fun _ ↦ True :=
  ⟨⟨a, b⟩, by rw [ByteRange.new, debugAssert_eq h]; rfl, trivial⟩

theorem AllOrdered.append {out new : List Detected} (hout : AllOrdered out)
    (hnew : AllOrdered new) : AllOrdered (out ++ new) := by
  intro d hd
  rcases List.mem_append.mp hd with hd | hd
  · exact hout d hd
  · exact hnew d hd

/-- One more finding, at a stream-level location. -/
theorem push_returns {a b : ℕ} {out : List Detected} {finding : CorruptionLocation → Detected}
    (h : a ≤ b) (hout : AllOrdered out) (hfinding : ∀ l, (finding l).location = l) :
    Returns (do
      let location ← CorruptionLocation.stream a b
      return out ++ [finding location]) AllOrdered := by
  refine (stream_returns h).bind fun l hl ↦ returns_pure (hout.append fun d hd ↦ ?_)
  rw [List.mem_singleton.mp hd, Detected.Ordered, hfinding]
  exact hl

/-- `n` in hexadecimal with at least `width` digits. -/
def hex (width n : ℕ) : String :=
  let digits := Nat.toDigits 16 n
  String.ofList (List.replicate (width - digits.length) '0' ++ digits)

/-- As `hex`, with capital letters. -/
def hexUpper (width n : ℕ) : String := (hex width n).toUpper

end VeraqisRecover.Analyze
