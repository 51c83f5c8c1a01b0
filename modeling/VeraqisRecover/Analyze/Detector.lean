import VeraqisRecover.Analyze.ArchiveDefects
import VeraqisRecover.Analyze.GzipDefects
import VeraqisRecover.Analyze.SevenzDefects
import VeraqisRecover.Analyze.SqliteDefects

/-!
# The detector

`detect` of `corruption/detector.rs`: every format's walk over damaged bytes
comes to its end, except for one kind of 7z header.
-/

namespace VeraqisRecover.Analyze

open ByteString Checked LossyUtf8

/-- The walk that belongs to a format. -/
def formatDefects (inflate : Bytes → Bytes × Bool) (wal : Option (Option Bytes))
    (s : DataSource) (format : ArchiveFormat) (verifyEmbeddedChecksums : Bool) (max : ℕ) :
    Checked (List Detected) :=
  match format with
  | .zip => do
      let parse ← ZipReader.parse s
      zipDefects s parse verifyEmbeddedChecksums [] max
  | .tar => do
      let parse ← TarReader.parse s
      tarDefects s parse [] max
  | .iso9660 => do
      let parse ← IsoReader.parse s
      isoDefects s parse []
  | .gzip => gzDefects inflate s []
  | .sqlite => do
      let parse ← SqliteReader.parse s wal
      sqliteDefects s parse [] max
  | .sevenZ => sevenzDefects s []
  | .rar => rarDefects s []
  | .pdf => pdfStubDefects s []
  | .bzip2 => magicDefect s [] [0x42, 0x5A, 0x68] "BZ2_MAGIC_001"
  | .xz => magicDefect s [] [0xFD, 0x37, 0x7A, 0x58, 0x5A, 0x00] "XZ_MAGIC_001"
  | .zstd => magicDefect s [] [0x28, 0xB5, 0x2F, 0xFD] "ZST_MAGIC_001"
  | .lz4 => magicDefect s [] [0x04, 0x22, 0x4D, 0x18] "LZ4_MAGIC_001"
  | .raw => return []

/-- A manifest mismatch is reported for every format. -/
def manifestDefect (s : DataSource) (integrity : IntegrityResult) (max : ℕ)
    (out : List Detected) : Checked (List Detected) :=
  if out.length < max ∧ integrity.manifestPresent ∧ integrity.expectedHash.isSome ∧
      ¬ integrity.isMatch then do
    let expected := integrity.expectedHash.getD ['?']
    let location ← CorruptionLocation.stream 0 s.len
    return out ++ [
      { kind := .manifestHashMismatch
        location
        actualBytes := asBytes integrity.actualHash
        expectedBytes := some (asBytes expected)
        detail := s!"expected {String.ofList expected}, " ++
          s!"computed {String.ofList integrity.actualHash}" }]
  else return out

/-- The findings, at most `max`, and whether the cap was reached. -/
def detect (inflate : Bytes → Bytes × Bool) (wal : Option (Option Bytes)) (s : DataSource)
    (format : ArchiveFormat) (integrity : IntegrityResult) (verifyEmbeddedChecksums : Bool)
    (max : ℕ) : Checked (List Detected × Bool) := do
  let out ← formatDefects inflate wal s format verifyEmbeddedChecksums max
  let out ← manifestDefect s integrity max out
  return (out.take max, max ≤ out.length)

theorem allOrdered_nil : AllOrdered [] := fun _ hd ↦ absurd hd List.not_mem_nil

theorem manifestDefect_returns (s : DataSource) (integrity : IntegrityResult) (max : ℕ)
    {out : List Detected} (hout : AllOrdered out) :
    Returns (manifestDefect s integrity max out) AllOrdered := by
  unfold manifestDefect
  split
  · exact push_returns (Nat.zero_le _) hout fun _ ↦ rfl
  · exact returns_pure hout

/-- One case per format; only 7z asks for anything. -/
theorem formatDefects_returns (inflate : Bytes → Bytes × Bool) (wal : Option (Option Bytes))
    (s : DataSource) {format : ArchiveFormat} (verify : Bool) (max : ℕ)
    (htame : ¬ (format = .sevenZ ∧ WildEndHeader s.bytes)) :
    Returns (formatDefects inflate wal s format verify max) AllOrdered := by
  cases format with
  | raw => exact returns_pure allOrdered_nil
  | zip =>
      refine (ZipReader.parse_returns s).bind fun parse hparse ↦ ?_
      exact zipDefects_returns s hparse verify allOrdered_nil max
  | tar =>
      refine (TarReader.parse_returns s).bind fun parse hparse ↦ ?_
      exact tarDefects_returns s hparse allOrdered_nil max
  | iso9660 =>
      refine (IsoReader.parse_returns s).bind fun parse hparse ↦ ?_
      exact isoDefects_returns s hparse allOrdered_nil
  | gzip => exact gzDefects_returns inflate s allOrdered_nil
  | sqlite =>
      refine (SqliteReader.parse_returns s wal).bind fun parse hparse ↦ ?_
      exact sqliteDefects_returns s hparse allOrdered_nil max
  | sevenZ => exact sevenzDefects_returns s (fun hwild ↦ htame ⟨rfl, hwild⟩) allOrdered_nil
  | rar => exact rarDefects_returns s allOrdered_nil
  | pdf => exact pdfStubDefects_returns s allOrdered_nil
  | bzip2 => exact magicDefect_returns s allOrdered_nil (by decide) _
  | xz => exact magicDefect_returns s allOrdered_nil (by decide) _
  | zstd => exact magicDefect_returns s allOrdered_nil (by decide) _
  | lz4 => exact magicDefect_returns s allOrdered_nil (by decide) _

theorem detect_overflow (inflate : Bytes → Bytes × Bool) (wal : Option (Option Bytes))
    {s : DataSource} (integrity : IntegrityResult) (verify : Bool) (max : ℕ)
    (hwild : WildEndHeader s.bytes) :
    detect inflate wal s .sevenZ integrity verify max = .error .overflow := by
  change (sevenzDefects s [] >>= _) = _
  rw [sevenzDefects_overflow s hwild]
  rfl

/-- Analysis returns, with every finding's offsets in order, on all input but a 7z file whose
intact start header points beyond the word. -/
theorem detect_returns_iff (inflate : Bytes → Bytes × Bool) (wal : Option (Option Bytes))
    (s : DataSource) (format : ArchiveFormat) (integrity : IntegrityResult) (verify : Bool)
    (max : ℕ) :
    Returns (detect inflate wal s format integrity verify max) (fun r ↦ AllOrdered r.1) ↔
      ¬ (format = .sevenZ ∧ WildEndHeader s.bytes) := by
  constructor
  · rintro hreturns ⟨rfl, hwild⟩
    exact hreturns.ne_error (detect_overflow inflate wal integrity verify max hwild)
  · intro htame
    refine (formatDefects_returns inflate wal s verify max htame).bind fun out hout ↦ ?_
    refine (manifestDefect_returns s integrity max hout).bind fun out hout ↦ ?_
    exact returns_pure fun d hd ↦ hout d (List.mem_of_mem_take hd)

/-- An intact 7z signature header; NextHeaderOffset is `2 ^ 64 - 1`, NextHeaderSize is 1. -/
def farEndHeader : DataSource where
  bytes := sevenzSig ++ [0x00, 0x04, 0x3A, 0x07, 0x1E, 0x77] ++ List.replicate 8 0xFF ++
    [0x01, 0x00, 0x00, 0x00, 0x00, 0x00, 0x00, 0x00] ++ List.replicate 4 0x00
  addressable := by decide

theorem farEndHeader_wild : WildEndHeader farEndHeader.bytes := by
  unfold WildEndHeader
  decide

theorem farEndHeader_stops_detect :
    detect (fun _ ↦ ([], true)) none farEndHeader .sevenZ ⟨false, none, ['x'], false⟩ true 100 =
        .error .overflow ∧
      ¬ Returns (detect (fun _ ↦ ([], true)) none farEndHeader .sevenZ
        ⟨false, none, ['x'], false⟩ true 100) fun r ↦ AllOrdered r.1 := by
  have hstop := detect_overflow (fun _ ↦ ([], true)) none ⟨false, none, ['x'], false⟩ true 100
    farEndHeader_wild
  exact ⟨hstop, fun hreturns ↦ hreturns.ne_error hstop⟩

end VeraqisRecover.Analyze
