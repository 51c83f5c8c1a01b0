import VeraqisRecover.Zip.Layout

/-!
# Streamed and mixed archives

`encode_zip_streamed` of `build.rs`: the local header carries zeros, the true
checksum and sizes follow the payload in a data descriptor, and the directory
is authoritative.  A mixed archive holds parts of both kinds.
-/

namespace VeraqisRecover.Zip

open ByteString LossyUtf8

/-! ## The streaming encoder -/

/-- The fixed part of the local header: bit 3 set, checksum and sizes left zero. -/
def streamedHeader (fl : Flate2) (p : Part) : Bytes :=
  le32 lfhSig ++ le16 20 ++ le16 0x0008 ++ le16 (p.method fl) ++ le16 0 ++ le16 0 ++ le32 0 ++
    le32 0 ++ le32 0 ++ le16 p.rawName.length ++ le16 0

def dataDescriptor (fl : Flate2) (p : Part) : Bytes :=
  le32 ddSig ++ le32 (p.crc fl) ++ le32 (p.payload fl).length ++ le32 p.data.length

def streamedRecord (fl : Flate2) (p : Part) : Bytes :=
  streamedHeader fl p ++ p.rawName ++ p.payload fl ++ dataDescriptor fl p

def streamedCentralHeader (fl : Flate2) (p : Part) (lho : ℕ) : Bytes :=
  le32 cdfhSig ++ le16 20 ++ le16 20 ++ le16 0x0008 ++ le16 (p.method fl) ++ le16 0 ++ le16 0 ++
    le32 (p.crc fl) ++ le32 (p.payload fl).length ++ le32 p.data.length ++
    le16 p.rawName.length ++ le16 0 ++ le16 0 ++ le16 0 ++ le16 0 ++ le32 0 ++ le32 lho

def streamedCentralRecord (fl : Flate2) (p : Part) (lho : ℕ) : Bytes :=
  streamedCentralHeader fl p lho ++ p.rawName

def streamedCentralRecords (fl : Flate2) : ℕ → List Part → Bytes
  | _, [] => []
  | lho, p :: parts =>
      streamedCentralRecord fl p lho ++
        streamedCentralRecords fl (lho + (streamedRecord fl p).length) parts

/-- Build a ZIP whose every part is written streaming. -/
def encodeZipStreamed (fl : Flate2) (parts : List Part) : Bytes :=
  let body := parts.flatMap (streamedRecord fl)
  let cd := streamedCentralRecords fl 0 parts
  body ++ cd ++ endRecord parts.length cd.length body.length

/-! ## Both kinds in one archive -/

/-- A part and how it is written. -/
structure MixedPart where
  part : Part
  streamed : Bool
  deriving DecidableEq, Repr

def plain (p : Part) : MixedPart := ⟨p, false⟩

def streaming (p : Part) : MixedPart := ⟨p, true⟩

namespace MixedPart

def record (fl : Flate2) (m : MixedPart) : Bytes :=
  if m.streamed then streamedRecord fl m.part else localRecord fl m.part

def centralRecord (fl : Flate2) (m : MixedPart) (lho : ℕ) : Bytes :=
  if m.streamed then streamedCentralRecord fl m.part lho else Zip.centralRecord fl m.part lho

end MixedPart

def mixedRecords (fl : Flate2) (ms : List MixedPart) : Bytes := ms.flatMap (MixedPart.record fl)

def mixedCentralRecords (fl : Flate2) : ℕ → List MixedPart → Bytes
  | _, [] => []
  | lho, m :: ms =>
      m.centralRecord fl lho ++ mixedCentralRecords fl (lho + (m.record fl).length) ms

/-- Build a ZIP from parts of both kinds. -/
def mixedZip (fl : Flate2) (ms : List MixedPart) : Bytes :=
  let body := mixedRecords fl ms
  let cd := mixedCentralRecords fl 0 ms
  body ++ cd ++ endRecord ms.length cd.length body.length

variable {fl : Flate2}

theorem mixedCentralRecords_plain (lho : ℕ) (parts : List Part) :
    mixedCentralRecords fl lho (parts.map plain) = centralRecords fl lho parts := by
  induction parts generalizing lho with
  | nil => rfl
  | cons p parts ih =>
      rw [List.map_cons, mixedCentralRecords, ih]
      rfl

theorem mixedCentralRecords_streaming (lho : ℕ) (parts : List Part) :
    mixedCentralRecords fl lho (parts.map streaming) = streamedCentralRecords fl lho parts := by
  induction parts generalizing lho with
  | nil => rfl
  | cons p parts ih =>
      rw [List.map_cons, mixedCentralRecords, ih]
      rfl

/-- The plain encoder writes the mixed archive without streamed parts. -/
theorem mixedZip_plain (fl : Flate2) (parts : List Part) :
    mixedZip fl (parts.map plain) = encodeZip fl parts := by
  have hbody : mixedRecords fl (parts.map plain) = localRecords fl parts := List.flatMap_map ..
  rw [mixedZip, mixedCentralRecords_plain, hbody, List.length_map]
  rfl

/-- The streaming encoder writes the mixed archive of streamed parts only. -/
theorem mixedZip_streaming (fl : Flate2) (parts : List Part) :
    mixedZip fl (parts.map streaming) = encodeZipStreamed fl parts := by
  have hbody : mixedRecords fl (parts.map streaming) = parts.flatMap (streamedRecord fl) :=
    List.flatMap_map ..
  rw [mixedZip, mixedCentralRecords_streaming, hbody, List.length_map]
  rfl

/-! ## The layout -/

/-- Parts with the offsets of their headers, the first one at `o`. -/
def mixedPlaced (fl : Flate2) : ℕ → List MixedPart → List (MixedPart × ℕ)
  | _, [] => []
  | o, m :: ms => (m, o) :: mixedPlaced fl (o + (m.record fl).length) ms

def MixedPart.dirRecord (fl : Flate2) (m : MixedPart) (lho : ℕ) : DirRecord :=
  { m.part.dirRecord fl lho with flags := if m.streamed then 0x0008 else 0 }

theorem MixedPart.centralRecord_eq (m : MixedPart) (lho : ℕ) :
    m.centralRecord fl lho = (m.dirRecord fl lho).bytes := by
  obtain ⟨p, streamed⟩ := m
  cases streamed <;> rfl

def mixedDirRecords (fl : Flate2) (o : ℕ) (ms : List MixedPart) : List DirRecord :=
  (mixedPlaced fl o ms).map fun q ↦ q.1.dirRecord fl q.2

/-- Both kinds of record are written the way of every directory here. -/
theorem mixedCentralRecords_eq (o : ℕ) (ms : List MixedPart) :
    mixedCentralRecords fl o ms = dirBytes (mixedDirRecords fl o ms) := by
  induction ms generalizing o with
  | nil => rfl
  | cons m ms ih =>
      rw [mixedCentralRecords, ih, m.centralRecord_eq]
      rfl

theorem length_mixedPlaced (o : ℕ) (ms : List MixedPart) :
    (mixedPlaced fl o ms).length = ms.length := by
  induction ms generalizing o with
  | nil => rfl
  | cons m ms ih => rw [mixedPlaced, List.length_cons, List.length_cons, ih]

@[simp] theorem length_mixedDirRecords (o : ℕ) (ms : List MixedPart) :
    (mixedDirRecords fl o ms).length = ms.length := by
  rw [mixedDirRecords, List.length_map, length_mixedPlaced]

theorem mem_mixedPlaced {o : ℕ} {ms : List MixedPart} {q : MixedPart × ℕ}
    (h : q ∈ mixedPlaced fl o ms) : q.1 ∈ ms ∧ o ≤ q.2 ∧
      q.2 + (q.1.record fl).length ≤ o + (mixedRecords fl ms).length := by
  induction ms generalizing o with
  | nil => cases h
  | cons m ms ih =>
      have hlen : (mixedRecords fl (m :: ms)).length =
          (m.record fl).length + (mixedRecords fl ms).length := by
        rw [mixedRecords, List.flatMap_cons, List.length_append]
        rfl
      rcases List.mem_cons.mp h with rfl | h
      · exact ⟨List.mem_cons_self, le_refl _, by dsimp only; omega⟩
      · obtain ⟨hmem, hle, hend⟩ := ih h
        exact ⟨List.mem_cons_of_mem m hmem, by omega, by omega⟩

theorem exists_mem_mixedPlaced {ms : List MixedPart} {m : MixedPart} (h : m ∈ ms) (o : ℕ) :
    ∃ lho, (m, lho) ∈ mixedPlaced fl o ms := by
  induction ms generalizing o with
  | nil => cases h
  | cons m' ms ih =>
      rcases List.mem_cons.mp h with rfl | h
      · exact ⟨o, List.mem_cons_self⟩
      · obtain ⟨lho, hmem⟩ := ih h (o + (m'.record fl).length)
        exact ⟨lho, List.mem_cons_of_mem _ hmem⟩

theorem at_record {d : Bytes} {o : ℕ} {ms : List MixedPart} (h : At d o (mixedRecords fl ms))
    {q : MixedPart × ℕ} (hq : q ∈ mixedPlaced fl o ms) : At d q.2 (q.1.record fl) := by
  induction ms generalizing o with
  | nil => cases hq
  | cons m ms ih =>
      obtain ⟨hm, hrest⟩ := At.append_iff.mp h
      rcases List.mem_cons.mp hq with rfl | hq
      · exact hm
      · exact ih hrest hq

/-! ## Headers, read back -/

/-- The compressed size as the local header has it. -/
def MixedPart.headerSize (fl : Flate2) (m : MixedPart) : ℕ :=
  if m.streamed then 0 else (m.part.payload fl).length

/-- What a reader finds behind the start of a part's record, whichever way it was written. -/
structure MixedHeaderAt (fl : Flate2) (d : Bytes) (o : ℕ) (m : MixedPart) : Prop where
  sig : u32le d o = some lfhSig
  comp : u32le d (o + 18) = some (m.headerSize fl)
  nameLen : u16le d (o + 26) = some m.part.rawName.length
  extraLen : u16le d (o + 28) = some 0
  payload : At d (o + 30 + m.part.rawName.length) (m.part.payload fl)
  room : o + 30 + m.part.rawName.length + (m.part.payload fl).length ≤ d.length

theorem length_record (m : MixedPart) : 30 + m.part.rawName.length +
    (m.part.payload fl).length ≤ (m.record fl).length := by
  obtain ⟨p, streamed⟩ := m
  cases streamed with
  | false => exact (length_localRecord p).ge
  | true =>
      change _ ≤ (streamedRecord fl p).length
      simp only [streamedRecord, streamedHeader, List.length_append, length_le16, length_le32]
      omega

theorem mixedHeaderAt {d : Bytes} {o : ℕ} {m : MixedPart} (h : At d o (m.record fl))
    (hname : m.part.rawName.length < 2 ^ 16) (hpayload : (m.part.payload fl).length < 2 ^ 32) :
    MixedHeaderAt fl d o m := by
  have hlen := @length_record fl m
  have hroom := h.add_length_le (List.ne_nil_of_length_pos (by omega))
  obtain ⟨p, streamed⟩ := m
  cases streamed with
  | false =>
      change At d o (localRecord fl p) at h
      simp only [localRecord, localHeader, List.append_assoc, At.le16_append_iff,
        At.le32_append_iff] at h
      obtain ⟨h₀, -, -, -, -, -, -, h₁₈, -, h₂₆, h₂₈, hrest⟩ := h
      exact ⟨h₀.u32le_le32 (by decide), h₁₈.u32le_le32 hpayload, h₂₆.u16le_le16 hname,
        h₂₈.u16le_le16 (by decide), (At.append_iff.mp hrest).2, by omega⟩
  | true =>
      change At d o (streamedRecord fl p) at h
      simp only [streamedRecord, streamedHeader, List.append_assoc, At.le16_append_iff,
        At.le32_append_iff] at h
      obtain ⟨h₀, -, -, -, -, -, -, h₁₈, -, h₂₆, h₂₈, hrest⟩ := h
      have hbody := At.append_iff.mp (At.append_iff.mp hrest).2
      exact ⟨h₀.u32le_le32 (by decide), h₁₈.u32le_le32 (by decide), h₂₆.u16le_le16 hname,
        h₂₈.u16le_le16 (by decide), hbody.1, by omega⟩

end VeraqisRecover.Zip
