import VeraqisRecover.Analyze.Rules
import VeraqisRecover.Analyze.TarReader
import VeraqisRecover.Support.CursorLoop

/-!
# Diffing against a known-good copy

`corruption/reference.rs`: a damaged file is compared with a clean one, and the difference named
by a rule of the registry.  The walks over the clean file read whatever bytes it holds.
-/

namespace VeraqisRecover.Analyze.Reference

open ByteString Checked LossyUtf8

/-! ## Rule selection -/

/-- `0.01` and `0.05` as double-precision numbers. -/
def onePercent : ℚ := 5764607523034235 / 2 ^ 59
def fivePercent : ℚ := 3602879701896397 / 2 ^ 56

def tailTruncRule (format : String) (pct : ℚ) : String :=
  if format = "ZIP" then
    if pct ≤ onePercent then "ZIP_TRUNC_001"
    else if pct ≤ fivePercent then "ZIP_TRUNC_002"
    else "ZIP_TRUNC_003"
  else if format = "TAR" then
    if pct ≤ onePercent then "TAR_TRUNC_001" else "TAR_TRUNC_002"
  else if format = "ISO" then
    if pct ≤ fivePercent then "ISO_TRUNC_001" else "ISO_TRUNC_002"
  else "GEN_TRUNC_001"

def headTruncRule (format : String) : String :=
  if format = "ZIP" then "ZIP_TRUNC_004"
  else if format = "TAR" then "TAR_TRUNC_003"
  else if format = "ISO" then "ISO_TRUNC_003"
  else "GEN_TRUNC_001"

def flipRule (format : String) (header : Bool) (count : ℕ) : String :=
  if format = "ZIP" then
    if header then "ZIP_FLIP_003" else if 5 < count then "ZIP_FLIP_002" else "ZIP_FLIP_001"
  else if format = "TAR" then
    if header then "TAR_FLIP_002" else "TAR_FLIP_001"
  else if format = "ISO" then "ISO_SECTOR_001"
  else "GEN_FLIP_001"

def missingRule (format : String) : String :=
  if format = "ZIP" then "ZIP_CD_003"
  else if format = "TAR" then "TAR_SIZE_002"
  else if format = "ISO" then "ISO_SECTOR_002"
  else "GEN_MISSING_001"

def magicRule (format : String) : String :=
  if format = "GZIP" then "GZ_MAGIC_001"
  else if format = "BZIP2" then "BZ2_MAGIC_001"
  else if format = "XZ" then "XZ_MAGIC_001"
  else if format = "ZSTD" then "ZST_MAGIC_001"
  else if format = "LZ4" then "LZ4_MAGIC_001"
  else if format = "RAR" then "RAR_MAGIC_001"
  else if format = "7Z" then "7Z_MAGIC_001"
  else if format = "PDF" then "PDF_HDR_001"
  else if format = "SQLite" then "SQ_MAGIC_001"
  else "GEN_STRUCT_001"

/-! ## The field map -/

/-- The last place of a signature among these. -/
def findSignature (b : Bytes) : List ℕ → Checked (Option ℕ)
  | [] => return none
  | i :: rest => do
      let stop ← add 64 i 4
      let window ← range b i stop
      let word ← leAt 4 window 0
      if word = 0x06054b50 then return some i else findSignature b rest

def zipFindEocd (b : Bytes) : Checked (Option ℕ) :=
  if b.length < 22 then return none
  else do
    let last ← sub b.length 4
    findSignature b (List.range (last + 1)).reverse

/-- One central directory entry: the field at `offset`, or where the next entry starts. -/
def zipFieldTurn (clean : Bytes) (offset pos : ℕ) : Checked (Turn (Option String)) := do
  let fixed ← add 64 pos 46
  if clean.length < fixed then return .stop none else
  let signature ← u32Field clean pos 0
  if signature ≠ 0x02014b50 then return .stop none else
  if pos + 20 ≤ offset ∧ offset < pos + 24 then return .stop (some "ZIP_SIZE_001") else
  if pos + 30 ≤ offset ∧ offset < pos + 32 then return .stop (some "ZIP_EXTRA_001") else
  let nameLen ← u16Field clean pos 28
  let extraLen ← u16Field clean pos 30
  let commentLen ← u16Field clean pos 32
  let next ← add 64 pos (46 + nameLen + extraLen + commentLen)
  return .next next

theorem zipFieldTurn_advances {clean : Bytes} {offset pos pos' : ℕ}
    (h : zipFieldTurn clean offset pos = .ok (.next pos')) : pos < pos' ∧ pos < clean.length := by
  unfold zipFieldTurn at h
  obtain ⟨fixed, hfixed, h⟩ := bind_eq_ok.mp h
  have hfixed' := add_eq_ok hfixed
  split at h
  · cases Except.ok.inj h
  · obtain ⟨signature, -, h⟩ := bind_eq_ok.mp h
    split at h
    · cases Except.ok.inj h
    · split at h
      · cases Except.ok.inj h
      · split at h
        · cases Except.ok.inj h
        · obtain ⟨nameLen, -, h⟩ := bind_eq_ok.mp h
          obtain ⟨extraLen, -, h⟩ := bind_eq_ok.mp h
          obtain ⟨commentLen, -, h⟩ := bind_eq_ok.mp h
          obtain ⟨next, hnext, h⟩ := bind_eq_ok.mp h
          have hnext' := add_eq_ok hnext
          obtain rfl := Turn.next.inj (Except.ok.inj h)
          omega

def zipFieldLoop (clean : Bytes) (offset : ℕ) : CursorLoop (Option String) where
  bound := clean.length
  turn := zipFieldTurn clean offset
  advances := zipFieldTurn_advances

/-- The rule of the central directory field at `offset`. -/
def zipFieldAt (clean : Bytes) (offset : ℕ) : Checked (Option String) := do
  match ← zipFindEocd clean with
  | none => return none
  | some eocd =>
      let first ← add 64 eocd 16
      let last ← add 64 eocd 20
      match slice? clean first last with
      | none => return none
      | some field =>
          let cdOffset ← leAt 4 field 0
          (zipFieldLoop clean offset).run cdOffset

def tarOctal (f : Bytes) : Option ℕ :=
  Octal.fromStrRadix (TarReader.trim (f.takeWhile fun b ↦ b ≠ 0 && b ≠ 0x20))

/-- Where the header after the one at `off` starts. -/
def tarNext (clean : Bytes) (off : ℕ) : Checked ℕ := do
  let first ← add 64 off 124
  let last ← add 64 off 136
  let field ← range clean first last
  let size := (tarOctal field).getD 0
  let padded ← mul 64 (TarReader.divCeil size 512) 512
  let step ← add 64 512 padded
  add 64 off step

theorem lt_of_tarNext {clean : Bytes} {off next : ℕ} (h : tarNext clean off = .ok next) :
    off < next := by
  unfold tarNext at h
  obtain ⟨first, -, h⟩ := bind_eq_ok.mp h
  obtain ⟨last, -, h⟩ := bind_eq_ok.mp h
  obtain ⟨field, -, h⟩ := bind_eq_ok.mp h
  obtain ⟨padded, -, h⟩ := bind_eq_ok.mp h
  obtain ⟨step, hstep, h⟩ := bind_eq_ok.mp h
  have hstep' := add_eq_ok hstep
  have hnext := add_eq_ok h
  omega

/-- A walk over the headers of the clean archive, up to a zero block.  `answer` looks at the
header at an offset. -/
def tarTurn {α : Type} (clean : Bytes) (answer : ℕ → Option α) (off : ℕ) :
    Checked (Turn (Option α)) := do
  let stop ← add 64 off 512
  if clean.length < stop then return .stop none else
  let block ← range clean off stop
  if block.all (· = 0) then return .stop none else
  match answer off with
  | some a => return .stop (some a)
  | none =>
      let next ← tarNext clean off
      return .next next

theorem tarTurn_advances {α : Type} {clean : Bytes} {answer : ℕ → Option α} {off off' : ℕ}
    (h : tarTurn clean answer off = .ok (.next off')) : off < off' ∧ off < clean.length := by
  unfold tarTurn at h
  obtain ⟨stop, hstop, h⟩ := bind_eq_ok.mp h
  have hstop' := add_eq_ok hstop
  split at h
  · cases Except.ok.inj h
  · obtain ⟨block, -, h⟩ := bind_eq_ok.mp h
    split at h
    · cases Except.ok.inj h
    · split at h
      · cases Except.ok.inj h
      · obtain ⟨next, hnext, h⟩ := bind_eq_ok.mp h
        obtain rfl := Turn.next.inj (Except.ok.inj h)
        have hlt := lt_of_tarNext hnext
        omega

def tarLoop {α : Type} (clean : Bytes) (answer : ℕ → Option α) : CursorLoop (Option α) where
  bound := clean.length
  turn := tarTurn clean answer
  advances := tarTurn_advances

/-- The rule of the header field at `offset`. -/
def tarFieldAt (clean : Bytes) (offset : ℕ) : Checked (Option String) :=
  (tarLoop clean fun off ↦
    if off + 148 ≤ offset ∧ offset < off + 156 then some "TAR_UST_001"
    else if off + 124 ≤ offset ∧ offset < off + 136 then some "TAR_SIZE_001"
    else none).run 0

def isoFieldAt (corrupted : Bytes) (offset : ℕ) : Option String :=
  if 17 * 2048 + 1 ≤ offset ∧ offset < 17 * 2048 + 6 then some "ISO_SVD_001"
  else
    let dir := 16 * 2048 + 156
    if dir ≤ offset ∧ offset < dir + 34 ∧ corrupted[offset]? = some 0 then some "ISO_DIR_001"
    else none

/-- The rule of the known structural field that `offset` lands in. -/
def fieldResolve (format : String) (clean corrupted : Bytes) (offset : ℕ) :
    Checked (Option String) :=
  if format = "ZIP" then zipFieldAt clean offset
  else if format = "TAR" then tarFieldAt clean offset
  else if format = "ISO" then return isoFieldAt corrupted offset
  else return none

/-! ## Special edits of a TAR archive -/

/-- The 512-byte block of this number. -/
def blockAt (d : Bytes) (i : ℕ) : Checked Bytes := do
  let first ← mul 64 i 512
  let after ← add 64 i 1
  let last ← mul 64 after 512
  range d first last

/-- The blocks among these that differ. -/
def changedBlocks (clean corrupted : Bytes) : List ℕ → Checked (List ℕ)
  | [] => return []
  | i :: rest => do
      let c ← blockAt clean i
      let d ← blockAt corrupted i
      let others ← changedBlocks clean corrupted rest
      return if c ≠ d then i :: others else others

/-- Two swapped blocks. -/
def tarBlockSwap (clean corrupted : Bytes) : Checked (Option (ℕ × ℕ)) :=
  if clean.length ≠ corrupted.length then return none
  else do
    let changed ← changedBlocks clean corrupted (List.range (clean.length / 512))
    if changed.length = 2 then
      let a ← index changed 0
      let b ← index changed 1
      let ca ← blockAt clean a
      let cb ← blockAt clean b
      let da ← blockAt corrupted a
      let db ← blockAt corrupted b
      return if da = cb ∧ db = ca then some (a, b) else none
    else return none

/-- A header whose typeflag became the mark of a GNU long name. -/
def tarGnuLongname (clean corrupted : Bytes) : Checked (Option ℕ) :=
  if clean.length ≠ corrupted.length then return none
  else (tarLoop clean fun off ↦
    if corrupted[off + 156]? = some 0x4C ∧ clean[off + 156]? ≠ some 0x4C then some off
    else none).run 0

/-! ## The diff -/

def countOnes (b : UInt8) : ℕ := ((List.range 8).filter b.toNat.testBit).length

/-- Total number of differing bits. -/
def totalBitDiff (a b : Bytes) : Checked ℕ :=
  (a.zip b).foldlM (fun sum p ↦ add 32 sum (countOnes (p.1 ^^^ p.2))) 0

/-- The offsets among these at which the files differ. -/
def differing (corrupted clean : Bytes) : List ℕ → Checked (List ℕ)
  | [] => return []
  | i :: rest => do
      let d ← index corrupted i
      let c ← index clean i
      let others ← differing corrupted clean rest
      return if d ≠ c then i :: others else others

/-- What a shorter file has lost: the rule, the location and the range, and a word for it. -/
structure Cut where
  rule : String
  location : CorruptionLocation
  range : ByteRange
  what : String

/-- A file that lost `gone` bytes is a prefix of the clean one, a suffix of it, or neither. -/
def cutOf (format : String) (pct : ℚ) (corrupted clean : Bytes) (gone : ℕ) : Checked Cut := do
  let front ← range clean 0 corrupted.length
  let back ← range clean gone clean.length
  let removed ← ByteRange.new 0 gone
  if corrupted = front then
    let location ← CorruptionLocation.stream corrupted.length clean.length
    let tail ← ByteRange.new corrupted.length clean.length
    return ⟨tailTruncRule format pct, location, tail, "tail-truncated"⟩
  else if corrupted = back then
    let location ← CorruptionLocation.stream 0 gone
    return ⟨headTruncRule format, location, removed, "head-truncated"⟩
  else
    let location ← CorruptionLocation.stream 0 gone
    return ⟨missingRule format, location, removed, "middle-deleted"⟩

/-- A finding of the diff. -/
def finding (ruleId : String) (location : CorruptionLocation) : Detected where
  kind := .referenceDiff
  location := location
  ruleIdOverride := some ruleId

section Diff

variable (r : Rounding) (tenths : ℚ → String) (format : String) (corrupted clean : Bytes)

/-- Truncation, a deletion in the middle, or growth.  `tenths` writes a percentage with one
decimal. -/
def lengthFinding : Checked (List Detected) :=
  if corrupted.length < clean.length then do
    let gone ← sub clean.length corrupted.length
    let pct := r.fl (r.fl gone / r.fl clean.length)
    let cut ← cutOf format pct corrupted clean gone
    return [{ finding cut.rule cut.location with
      byteRange := some cut.range
      detail := s!"{cut.what} {tenths (r.fl (pct * 100))}% ({gone} of {clean.length} bytes)" }]
  else if clean.length < corrupted.length then do
    let location ← CorruptionLocation.stream clean.length corrupted.length
    let grown ← sub corrupted.length clean.length
    return [{ finding "GEN_STRUCT_001" location with
      detail := s!"grew by {grown} bytes (insertion)" }]
  else return []

/-- The magic of the ISO volume descriptor. -/
def isoMagicFinding : Checked Detected := do
  let actual ← range corrupted 32769 32774
  let expected ← range clean 32769 32774
  let location ← CorruptionLocation.stream 32769 32774
  return { finding "ISO_PVD_001" location with
    actualBytes := actual
    expectedBytes := some expected }

/-- A TAR archive with two blocks swapped, or with a GNU long name. -/
def tarFinding : Checked (Option Detected) := do
  match ← tarBlockSwap clean corrupted with
  | some (a, b) =>
      let first ← mul 64 a 512
      let after ← add 64 b 1
      let last ← mul 64 after 512
      let location ← CorruptionLocation.stream first last
      let span ← ByteRange.new first last
      return some { finding "TAR_BLOCK_001" location with
        byteRange := some span
        detail := s!"blocks {a} and {b} swapped" }
  | none =>
      match ← tarGnuLongname clean corrupted with
      | some off =>
          let stop ← add 64 off 512
          let location ← CorruptionLocation.stream off stop
          let span ← ByteRange.new off stop
          return some { finding "TAR_GNU_001" location with byteRange := some span }
      | none => return none

/-- Leading signature bytes changed, by more than one bit. -/
def magicChanged (diffs : List ℕ) (first span : ℕ) (actual expected : Bytes) : Checked Bool :=
  if first = 0 ∧ diffs.length = span ∧ span ≤ 16 ∧ magicRule format ≠ "GEN_STRUCT_001" then do
    let bits ← totalBitDiff actual expected
    return 1 < bits
  else return false

/-- The rule for what changed between the first and the last difference. -/
def spanRule (diffs : List ℕ) (first span : ℕ) (actual expected : Bytes) : Checked String := do
  let magic ← magicChanged format diffs first span actual expected
  if magic then return magicRule format else
  match ← fieldResolve format clean corrupted first with
  | some rule => return rule
  | none =>
      return if diffs.length = span ∧ 8 ≤ diffs.length ∨
          16 ≤ diffs.length ∧ diffs.all (corrupted[·]? = some 0) then missingRule format
        else flipRule format (first < 512) diffs.length

/-- One finding from the first to the last difference, which every rule reports alike. -/
def spanFinding (diffs : List ℕ) : Checked Detected := do
  let first ← index diffs 0
  let lastIndex ← sub diffs.length 1
  let last ← index diffs lastIndex
  let width ← sub last first
  let span ← add 64 width 1
  let sampled ← add 64 first 63
  let sampleEnd ← add 64 (min last sampled) 1
  let actual ← range corrupted first sampleEnd
  let expected ← range clean first sampleEnd
  let rule ← spanRule format corrupted clean diffs first span actual expected
  let stop ← add 64 last 1
  let location ← CorruptionLocation.stream first stop
  let byteRange ← ByteRange.new first stop
  return { finding rule location with
    byteRange := some byteRange
    actualBytes := actual
    expectedBytes := some expected }

/-- Diff `corrupted` against the known-good `clean`. -/
def diff : Checked (List Detected) := do
  let out ← lengthFinding r tenths format corrupted clean
  let diffs ← differing corrupted clean (List.range (min clean.length corrupted.length))
  if diffs = [] then return out
  else if format = "ISO" ∧ diffs.any (fun i ↦ 32769 ≤ i && i < 32774) then
    let found ← isoMagicFinding corrupted clean
    return out ++ [found]
  else
    let special ← if format = "TAR" then tarFinding corrupted clean else pure none
    match special with
    | some found => return out ++ [found]
    | none =>
        let found ← spanFinding format corrupted clean diffs
        return out ++ [found]

/-- The findings one after another, each classified with an id of its own. -/
def classifyAll (percent : ℚ → String) (newV4 : ℕ → ℕ) : ℕ → List Detected →
    Checked (List Corruption)
  | _, [] => return []
  | n, d :: rest => do
      let c ← classify r percent (newV4 n) d
      let others ← classifyAll percent newV4 (n + 1) rest
      return c.toList ++ others

/-- Classify the findings of a diff into corruptions. -/
def scanReference (percent : ℚ → String) (newV4 : ℕ → ℕ) : Checked (List Corruption) := do
  let found ← diff r tenths format corrupted clean
  classifyAll r percent newV4 0 found

end Diff

end VeraqisRecover.Analyze.Reference
