import VeraqisRecover.Recovery.Engine
import VeraqisRecover.Zip.Adoption
import VeraqisRecover.Zip.Completeness

/-!
# Rebuilding a ZIP directory

The strategy of `strategies/zip_rebuild.rs`: walk the local headers one directly
after the other from the start of the file, keep the bytes up to the end of the
last one, and append a directory and an EOCD for them.
-/

namespace VeraqisRecover.Recovery

open ByteString LossyUtf8 Zip

/-- A parsed local file header. -/
structure LocalHeader where
  lfhOffset : ℕ
  versionNeeded : ℕ
  flags : ℕ
  method : ℕ
  modTime : ℕ
  modDate : ℕ
  crc32 : ℕ
  compSize : ℕ
  uncompSize : ℕ
  dataOffset : ℕ
  name : Bytes
  deriving DecidableEq, Repr

namespace LocalHeader

/-- Where the header's payload ends, and the next header is looked for. -/
def stop (h : LocalHeader) : ℕ := h.dataOffset + h.compSize

/-- The header at `pos`; absent where the walk stops. -/
def parse (data : Bytes) (pos : ℕ) : Option LocalHeader :=
  let flags := (u16le data (pos + 6)).getD 0
  let compSize := (u32le data (pos + 18)).getD 0
  let nameLen := (u16le data (pos + 26)).getD 0
  let extraLen := (u16le data (pos + 28)).getD 0
  let nameStart := pos + 30
  let nameEnd := nameStart + nameLen
  let dataOffset := nameEnd + extraLen
  if u32le data pos ≠ some lfhSig then none
  else if data.length < nameEnd + extraLen then none
  -- a streamed entry without sizes cannot be traversed
  else if flags &&& 0x0008 ≠ 0 ∧ compSize = 0 then none
  else if data.length < dataOffset + compSize then none
  else some {
    lfhOffset := pos
    versionNeeded := (u16le data (pos + 4)).getD 0
    flags
    method := (u16le data (pos + 8)).getD 0
    modTime := (u16le data (pos + 10)).getD 0
    modDate := (u16le data (pos + 12)).getD 0
    crc32 := (u32le data (pos + 14)).getD 0
    compSize
    uncompSize := (u32le data (pos + 22)).getD 0
    dataOffset
    name := slice data nameStart nameEnd }

/-- The directory record written for the header. -/
def dirRecord (h : LocalHeader) : DirRecord :=
  ⟨h.versionNeeded, h.flags, h.method, h.modTime, h.modDate, h.crc32, h.compSize, h.uncompSize,
    h.name, h.lfhOffset⟩

/-- What a parsed header has shown about the bytes it was parsed from. -/
structure Parsed (data : Bytes) (h : LocalHeader) : Prop where
  sig : u32le data h.lfhOffset = some lfhSig
  dataOffset : h.dataOffset = h.lfhOffset + 30 + (u16le data (h.lfhOffset + 26)).getD 0 +
    (u16le data (h.lfhOffset + 28)).getD 0
  stop_le : h.stop ≤ data.length
  fits : h.lfhOffset < 2 ^ 32 → h.dirRecord.Fits

theorem getD_u16le_lt (d : Bytes) (o : ℕ) : (u16le d o).getD 0 < 2 ^ 16 := by
  cases h : u16le d o with
  | none => decide
  | some v => exact u16le_lt h

theorem getD_u32le_lt (d : Bytes) (o : ℕ) : (u32le d o).getD 0 < 2 ^ 32 := by
  cases h : u32le d o with
  | none => decide
  | some v => exact u32le_lt h

theorem parsed_of_parse {data : Bytes} {pos : ℕ} {h : LocalHeader}
    (hp : parse data pos = some h) : h.lfhOffset = pos ∧ h.Parsed data := by
  unfold parse at hp
  simp only [Option.ite_none_left_eq_some, Option.some.injEq] at hp
  obtain ⟨hsig, -, -, hstop, rfl⟩ := hp
  refine ⟨rfl, not_not.mp hsig, rfl, by simpa [stop] using hstop, fun hlho ↦
    ⟨getD_u16le_lt _ _, getD_u16le_lt _ _, getD_u32le_lt _ _, getD_u32le_lt _ _,
      getD_u32le_lt _ _, ?_, hlho⟩⟩
  have hlen := getD_u16le_lt data (pos + 26)
  simp only [dirRecord, slice, List.length_take]
  omega

theorem Parsed.le_stop {data : Bytes} {h : LocalHeader} (hp : h.Parsed data) :
    h.lfhOffset + 30 ≤ h.stop := by
  have hd := hp.dataOffset
  unfold stop
  omega

end LocalHeader

/-- Walk local headers from `pos`, stopping at the first position without a traversable one. -/
def scanLocalHeadersFrom (data : Bytes) (pos : ℕ) (headers : List LocalHeader) :
    List LocalHeader :=
  if pos + 30 ≤ data.length then
    match h : LocalHeader.parse data pos with
    | none => headers
    | some hd =>
        have hp := LocalHeader.parsed_of_parse h
        have := hp.2.le_stop
        scanLocalHeadersFrom data hd.stop (headers ++ [hd])
  else headers
termination_by data.length - pos
decreasing_by have := hp.1; omega

def scanLocalHeaders (data : Bytes) : List LocalHeader := scanLocalHeadersFrom data 0 []

/-- The data region ends after the last member's payload. -/
def dataEnd (data : Bytes) (headers : List LocalHeader) : ℕ :=
  min ((headers.map (·.stop)).foldl max 0) data.length

/-- The bytes the strategy stages for the headers of a source. -/
def rebuilt (data : Bytes) (headers : List LocalHeader) : Bytes :=
  let cd := dirBytes (headers.map (·.dirRecord))
  data.take (dataEnd data headers) ++ cd ++
    endRecord headers.length cd.length (dataEnd data headers)

namespace ZipRebuild

def name : String := "zip-rebuild"

def handles (c : Corruption) : Bool :=
  c.ruleId.startsWith "ZIP_EOCD" || c.ruleId.startsWith "ZIP_CD" || c.ruleId.startsWith "ZIP_LFH"

def canApply (result : AnalysisResult) : Bool :=
  result.archiveFormat = some .zip && result.corruptions.any fun c ↦
    c.category = .structuralCorruption || c.ruleId.startsWith "ZIP_CD" ||
      c.ruleId.startsWith "ZIP_EOCD" || c.ruleId.startsWith "ZIP_LFH"

def apply (source : Bytes) : Except RecoveryError (Bytes × RecoveryReport) :=
  let report := { RecoveryReport.empty "" with strategiesApplied := [name] }
  let headers := scanLocalHeaders source
  if headers = [] then
    .ok ([], { report with
      warnings := ["no recoverable local file headers found"]
      success := false })
  else
    let output := rebuilt source headers
    .ok (output, { report with
      filesRecovered := headers.map fun h ↦ String.ofList (fromUtf8Lossy h.name)
      bytesRecovered := output.length
      success := true
      warnings :=
        [s!"rebuilt central directory for {headers.length} member(s) from local headers"] })

end ZipRebuild

/-- Rebuild a damaged or missing central directory. -/
def zipCentralDirectoryRebuild : RecoveryStrategy where
  name := ZipRebuild.name
  technique := "CentralDirRebuild"
  risk := .safe
  priority := 80
  handles := ZipRebuild.handles
  canApply := ZipRebuild.canApply
  predictedOutcome := fun _ ↦
    "rebuild the central directory and EOCD from surviving local headers"
  apply := ZipRebuild.apply

/-- What the strategy can report: that it found nothing, or that it succeeded and lost nothing. -/
theorem zipRebuild_apply_cases (source : Bytes) :
    (scanLocalHeaders source = [] ∧ ∃ report,
      zipCentralDirectoryRebuild.apply source = .ok ([], report) ∧ report.success = false) ∨
    (scanLocalHeaders source ≠ [] ∧ ∃ report,
      zipCentralDirectoryRebuild.apply source =
        .ok (rebuilt source (scanLocalHeaders source), report) ∧
      report.success = true ∧ report.bytesLost = 0) := by
  by_cases h : scanLocalHeaders source = []
  · exact .inl ⟨h, _, if_pos h, rfl⟩
  · exact .inr ⟨h, _, if_neg h, rfl, rfl⟩

theorem zipRebuild_reportsItself : zipCentralDirectoryRebuild.ReportsItself := by
  intro source staged report hrun
  simp only [zipCentralDirectoryRebuild, ZipRebuild.apply] at hrun
  split at hrun
  · obtain ⟨-, rfl⟩ := Prod.mk.inj (Except.ok.inj hrun)
    exact ⟨rfl, rfl⟩
  · obtain ⟨-, rfl⟩ := Prod.mk.inj (Except.ok.inj hrun)
    exact ⟨rfl, rfl⟩

/-! ## The walk -/

/-- The byte range of a walked member. -/
def LocalHeader.range (h : LocalHeader) : ℕ × ℕ := (h.lfhOffset, h.stop)

/-- The walk tiles the file from where it starts with headers it has parsed. -/
theorem scanLocalHeadersFrom_tiles {data : Bytes} {pos : ℕ} (headers : List LocalHeader)
    (hpos : pos ≤ data.length) :
    ∃ rest b, scanLocalHeadersFrom data pos headers = headers ++ rest ∧
      Consecutive pos (rest.map (·.range)) b ∧ b ≤ data.length ∧ ∀ h ∈ rest, h.Parsed data := by
  fun_induction scanLocalHeadersFrom data pos headers with
  | case1 pos headers _ hnone => exact ⟨[], pos, by simp, rfl, hpos, by simp⟩
  | case2 pos headers _ hd hsome hp hle ih =>
      obtain ⟨rfl, hparsed⟩ := hp
      obtain ⟨rest, b, heq, hcons, hb, hall⟩ := ih hparsed.stop_le
      refine ⟨hd :: rest, b, by simpa using heq, ⟨rfl, ?_, hcons⟩, hb, ?_⟩
      · dsimp only [LocalHeader.range]
        omega
      · intro h hh
        rcases List.mem_cons.mp hh with rfl | hh
        · exact hparsed
        · exact hall h hh
  | case3 pos headers _ => exact ⟨[], pos, by simp, rfl, hpos, by simp⟩

/-- The walked members tile the data region of the output. -/
theorem scanLocalHeaders_tiles (data : Bytes) :
    Consecutive 0 ((scanLocalHeaders data).map (·.range))
        (dataEnd data (scanLocalHeaders data)) ∧
      ∀ h ∈ scanLocalHeaders data, h.Parsed data := by
  obtain ⟨rest, b, heq, hcons, hb, hall⟩ :=
    scanLocalHeadersFrom_tiles [] (Nat.zero_le data.length)
  have hrest : scanLocalHeaders data = rest := heq
  have hmax := hcons.foldl_max
  rw [List.map_map] at hmax
  have hend : dataEnd data rest = b := by
    unfold dataEnd
    rw [show rest.map (·.stop) = rest.map (Prod.snd ∘ LocalHeader.range) from rfl, hmax,
      min_eq_left hb]
  rw [hrest, hend]
  exact ⟨hcons, hall⟩

end VeraqisRecover.Recovery
