import VeraqisRecover.Crc.Rocksoft
import VeraqisRecover.Recovery.Engine
import VeraqisRecover.Support.LossyUtf8
import VeraqisRecover.Support.Overwrite
import VeraqisRecover.Zip.Container

/-!
# Repairing CRC-32 fields of a ZIP

The strategy of `strategies/zip_crc_fix.rs`.  Every checksum stands twice, in
the local header and in the directory, and a field is corrected when the other
copy agrees with the payload.  The walk goes on over the buffer it writes to.
-/

namespace VeraqisRecover.Recovery

open ByteString LossyUtf8 Zip

namespace ZipCrcFix

/-- One directory record's CRC-32: where the field lives, and what it says. -/
structure CdCrc where
  fieldOffset : ℕ
  crc : ℕ
  deriving DecidableEq

/-- A field whose bounds the walk has checked. -/
def u16At (data : Bytes) (o : ℕ) : ℕ := (u16le data o).getD 0

def u32At (data : Bytes) (o : ℕ) : ℕ := (u32le data o).getD 0

def crc32Of (data : Bytes) : ℕ := (Crc.crc32 data).toNat

/-! ## The directory -/

/-- The last EOCD signature within reach of the longest comment. -/
def findEocd (data : Bytes) : Option ℕ :=
  let minStart := data.length - 65557
  (List.range' minStart (data.length - 21 - minStart)).reverse.find? fun i ↦
    u32le data i = some eocdSig

/-- The records from `pos` on, each under the offset of the local header it points at. -/
def indexFrom (data : Bytes) (pos : ℕ) : List (ℕ × CdCrc) :=
  if pos + 46 ≤ data.length then
    if u32le data pos ≠ some cdfhSig then []
    else
      (u32At data (pos + 42), ⟨pos + 16, u32At data (pos + 16)⟩) ::
        indexFrom data (pos + 46 + u16At data (pos + 28) + u16At data (pos + 30) +
          u16At data (pos + 32))
  else []
termination_by data.length - pos

/-- The directory the EOCD record points at, when there is one. -/
def indexFromEocd (data : Bytes) : Option ℕ → List (ℕ × CdCrc)
  | none => []
  | some eocdPos =>
      if data.length < eocdPos + 22 then []
      else
        let cdOffset := u32At data (eocdPos + 16)
        if data.length ≤ cdOffset then [] else indexFrom data cdOffset

def indexCentralDirectory (data : Bytes) : List (ℕ × CdCrc) :=
  indexFromEocd data (findEocd data)

/-- Of several records for one offset the last one is kept. -/
def lookup (index : List (ℕ × CdCrc)) (pos : ℕ) : Option CdCrc :=
  (index.reverse.find? fun r ↦ r.1 = pos).map Prod.snd

/-! ## The walk -/

/-- The fields of the local header at `pos` that the walk reads. -/
structure Header where
  pos : ℕ
  flags : ℕ
  method : ℕ
  storedCrc : ℕ
  compressedSize : ℕ
  nameLen : ℕ
  extraLen : ℕ
  deriving DecidableEq

def headerAt (data : Bytes) (pos : ℕ) : Header where
  pos := pos
  flags := u16At data (pos + 6)
  method := u16At data (pos + 8)
  storedCrc := u32At data (pos + 14)
  compressedSize := u32At data (pos + 18)
  nameLen := u16At data (pos + 26)
  extraLen := u16At data (pos + 28)

namespace Header

def dataStart (h : Header) : ℕ := h.pos + 30 + h.nameLen + h.extraLen

def dataEnd (h : Header) : ℕ := h.dataStart + h.compressedSize

def hasDescriptor (h : Header) : Bool := h.flags &&& 0x0008 != 0

/-- Where the walk goes on. -/
def next (len : ℕ) (h : Header) : ℕ :=
  if h.hasDescriptor then min h.dataEnd len
  else if len < h.dataEnd then h.dataStart
  else h.dataEnd

end Header

/-- The DEFLATE decoder: what it read to the end, and whether an error ended it. -/
abbrev ReadToEnd := Bytes → Bytes × Bool

/-- The CRC-32 of the content; absent for other methods and for what does not decode at all. -/
def contentCrc (readToEnd : ReadToEnd) (method : ℕ) (compressed : Bytes) : Option ℕ :=
  if method = 0 then some (crc32Of compressed)
  else if method = 8 then
    let (decompressed, err) := readToEnd compressed
    if err && decompressed.isEmpty then none else some (crc32Of decompressed)
  else none

def entryNameAt (data : Bytes) (start nameLen : ℕ) : Text :=
  let stop := min (start + nameLen) data.length
  if stop ≤ start then "<unnamed>".toList else fromUtf8Lossy (field data start (stop - start))

/-- What the walk makes of a local header. -/
inductive Verdict where
  | skipped
  | intact
  | fixDirectory (cd : CdCrc) (crc : ℕ)
  | fixLocal (crc : ℕ)
  | damaged (name : Text)
  deriving DecidableEq

def judge (readToEnd : ReadToEnd) (index : List (ℕ × CdCrc)) (len : ℕ) (data : Bytes)
    (h : Header) : Verdict :=
  if h.hasDescriptor then .skipped
  else if len < h.dataEnd then .skipped
  else
    match contentCrc readToEnd h.method (field data h.dataStart h.compressedSize) with
    | none => .skipped
    | some computed =>
        if computed = h.storedCrc then
          match lookup index h.pos with
          | some cd => if cd.crc ≠ computed then .fixDirectory cd computed else .intact
          | none => .intact
        else if (lookup index h.pos).map CdCrc.crc = some computed then .fixLocal computed
        else .damaged (entryNameAt data (h.pos + 30) h.nameLen)

structure State where
  data : Bytes
  lfhFixed : ℕ
  cdFixed : ℕ
  payloadDamaged : List Text
  deriving DecidableEq

def writeCrc (data : Bytes) (fieldOffset crc : ℕ) : Bytes := overwrite data fieldOffset (le32 crc)

def State.settle (s : State) (h : Header) : Verdict → State
  | .skipped => s
  | .intact => s
  | .fixDirectory cd crc =>
      { s with data := writeCrc s.data cd.fieldOffset crc, cdFixed := s.cdFixed + 1 }
  | .fixLocal crc => { s with data := writeCrc s.data (h.pos + 14) crc, lfhFixed := s.lfhFixed + 1 }
  | .damaged name => { s with payloadDamaged := s.payloadDamaged ++ [name] }

theorem Header.add_le_next {h : Header} {len : ℕ} (hroom : h.pos + 30 ≤ len)
    (hstart : h.pos + 30 ≤ h.dataStart) : h.pos + 30 ≤ h.next len := by
  have hend : h.dataStart ≤ h.dataEnd := Nat.le_add_right _ _
  rw [Header.next]
  split
  · omega
  · split
    · omega
    · omega

theorem le_dataStart_headerAt (data : Bytes) (pos : ℕ) :
    pos + 30 ≤ (headerAt data pos).dataStart := by
  change pos + 30 ≤ pos + 30 + _ + _
  omega

theorem lt_next_headerAt {data : Bytes} {len pos : ℕ} (h : pos + 30 ≤ len) :
    pos < (headerAt data pos).next len := by
  have hnext : pos + 30 ≤ (headerAt data pos).next len :=
    @Header.add_le_next (headerAt data pos) len h (le_dataStart_headerAt data pos)
  omega

def walk (readToEnd : ReadToEnd) (index : List (ℕ × CdCrc)) (len pos : ℕ) (s : State) : State :=
  if hroom : pos + 30 ≤ len then
    if u32le s.data pos ≠ some lfhSig then walk readToEnd index len (pos + 1) s
    else
      let h := headerAt s.data pos
      have := @lt_next_headerAt s.data _ _ hroom
      walk readToEnd index len (h.next len) (s.settle h (judge readToEnd index len s.data h))
  else s
termination_by len - pos

/-! ## The strategy -/

def name : String := "zip-crc-fix"

def handles (c : Corruption) : Bool := c.ruleId = "ZIP_CRC_001"

def canApply (result : AnalysisResult) : Bool :=
  result.archiveFormat = some .zip && result.corruptions.any fun c ↦ c.ruleId = "ZIP_CRC_001"

def predictedOutcome : String :=
  "correct a CRC32 field that a surviving independent copy disproves; annotate (never " ++
    "rewrite) a checksum the payload itself contradicts"

def damageWarning (names : List Text) : String :=
  s!"payload damage on {names.length} entr(ies): " ++
    String.intercalate ", " (names.map String.ofList) ++
    ". The stored CRC-32 contradicts the actual bytes and no surviving copy agrees with them, " ++
    "so the checksum was left intact and the entries stay detectably corrupt. Rewriting it " ++
    "would hide the damage, not repair it."

def walked (readToEnd : ReadToEnd) (source : Bytes) : State :=
  walk readToEnd (indexCentralDirectory source) source.length 0 ⟨source, 0, 0, []⟩

def apply (readToEnd : ReadToEnd) (source : Bytes) :
    Except RecoveryError (Bytes × RecoveryReport) :=
  let report := { RecoveryReport.empty "" with strategiesApplied := [name] }
  let s := walked readToEnd source
  let warnings := if s.payloadDamaged = [] then [] else [damageWarning s.payloadDamaged]
  if s.lfhFixed + s.cdFixed = 0 then
    .ok ([], { report with
      success := false
      warnings := warnings ++
        if s.payloadDamaged = [] then ["no correctable CRC32 fields found"] else [] })
  else
    .ok (s.data, { report with
      bytesRecovered := s.data.length
      success := true
      warnings := warnings ++
        [s!"corrected CRC32 against an independent surviving copy: {s.lfhFixed} LFH + " ++
          s!"{s.cdFixed} CD entr(ies)"] })

end ZipCrcFix

/-- Correct CRC-32 fields that a surviving copy disproves. -/
def zipCrcFix (readToEnd : ZipCrcFix.ReadToEnd) : RecoveryStrategy where
  name := ZipCrcFix.name
  technique := "CrcAnnotate"
  risk := .safe
  priority := 75
  handles := ZipCrcFix.handles
  canApply := ZipCrcFix.canApply
  predictedOutcome := fun _ ↦ ZipCrcFix.predictedOutcome
  apply := ZipCrcFix.apply readToEnd

theorem zipCrcFix_reportsItself (readToEnd : ZipCrcFix.ReadToEnd) :
    (zipCrcFix readToEnd).ReportsItself := by
  intro source staged report hrun
  simp only [zipCrcFix, ZipCrcFix.apply] at hrun
  split at hrun
  · obtain ⟨-, rfl⟩ := Prod.mk.inj (Except.ok.inj hrun)
    exact ⟨rfl, rfl⟩
  · obtain ⟨-, rfl⟩ := Prod.mk.inj (Except.ok.inj hrun)
    exact ⟨rfl, rfl⟩

end VeraqisRecover.Recovery
