import VeraqisRecover.Support.Overwrite
import VeraqisRecover.Zip.Extract
import VeraqisRecover.Zip.Reconcile

/-!
# Stored local records

A concatenation of stored entries, each behind its own local header and with
no directory.  A record may declare a compressed size that is not its own.
-/

namespace VeraqisRecover.Zip

open ByteString LossyUtf8

/-- A stored entry: its data, and what its header says beside them. -/
structure StoredEntry where
  version : ℕ
  flags : ℕ
  modTime : ℕ
  modDate : ℕ
  name : Bytes
  extra : Bytes
  data : Bytes

/-- None of the signatures at which a scan can stop. -/
def SignatureFree (b : Bytes) : Prop :=
  ∀ p, u32le b p ≠ some lfhSig ∧ u32le b p ≠ some cdfhSig ∧ u32le b p ≠ some ddSig

namespace StoredEntry

/-- Header, name, extra field and data, with `size` in the compressed-size field. -/
def record (fl : Flate2) (e : StoredEntry) (size : ℕ) : Bytes :=
  le32 lfhSig ++ le16 e.version ++ le16 e.flags ++ le16 0 ++ le16 e.modTime ++ le16 e.modDate ++
    le32 (fl.crc32 e.data).toNat ++ le32 size ++ le32 e.data.length ++ le16 e.name.length ++
    le16 e.extra.length ++ e.name ++ e.extra ++ e.data

/-- The offset of the data in the record. -/
def headerLength (e : StoredEntry) : ℕ := 30 + e.name.length + e.extra.length

def recordLength (e : StoredEntry) : ℕ := e.headerLength + e.data.length

/-- The header's fields hold what they say, no size needs ZIP64, nothing is encrypted or
streamed, and the data spell no signature. -/
structure WellFormed (e : StoredEntry) : Prop where
  name : e.name.length < 2 ^ 16
  extra : e.extra.length < 2 ^ 16
  data : e.data.length < 2 ^ 32 - 1
  flags : e.flags < 2 ^ 16
  plain : e.flags &&& 0x0001 = 0 ∧ e.flags &&& 0x0040 = 0
  sized : e.flags &&& 0x0008 = 0
  noZip64 : extraHasZip64 (some e.extra) = false
  signatureFree : SignatureFree e.data

theorem length_record (fl : Flate2) (e : StoredEntry) (size : ℕ) :
    (e.record fl size).length = e.recordLength := by
  simp only [record, recordLength, headerLength, List.length_append, length_le16, length_le32]

theorem headerLength_pos (e : StoredEntry) : 30 ≤ e.headerLength := by
  unfold headerLength
  omega

end StoredEntry

/-- Records one after another, each declaring the size it is paired with. -/
def storedRecords (fl : Flate2) (qs : List (StoredEntry × ℕ)) : Bytes :=
  qs.flatMap fun q ↦ q.1.record fl q.2

/-- The entries with their own sizes. -/
def ownSizes (es : List StoredEntry) : List (StoredEntry × ℕ) := es.map fun e ↦ (e, e.data.length)

/-- Where the header of the `j`-th entry stands. -/
def headerOffset (es : List StoredEntry) (j : ℕ) : ℕ :=
  ((es.take j).map StoredEntry.recordLength).sum

/-- The file of the entries with `v` written over the compressed-size field of the `k`-th. -/
def damagedFile (fl : Flate2) (es : List StoredEntry) (k v : ℕ) : Bytes :=
  overwrite (storedRecords fl (ownSizes es)) (headerOffset es k + 18) (le32 v)

variable {fl : Flate2}

theorem storedRecords_cons (q : StoredEntry × ℕ) (qs : List (StoredEntry × ℕ)) :
    storedRecords fl (q :: qs) = q.1.record fl q.2 ++ storedRecords fl qs := List.flatMap_cons

@[simp] theorem headerOffset_zero (es : List StoredEntry) : headerOffset es 0 = 0 := rfl

theorem headerOffset_cons_succ (e : StoredEntry) (es : List StoredEntry) (j : ℕ) :
    headerOffset (e :: es) (j + 1) = e.recordLength + headerOffset es j := by
  simp [headerOffset]

theorem overwrite_append_right (a d s : Bytes) (o : ℕ) :
    overwrite (a ++ d) (a.length + o) s = a ++ overwrite d o s := by
  simp only [overwrite, List.take_length_add_append, Nat.add_assoc, List.drop_length_add_append,
    List.append_assoc]

theorem overwrite_middle (a b s t : Bytes) (h : t.length = s.length) :
    overwrite (a ++ (t ++ b)) a.length s = a ++ (s ++ b) := by
  have hzero := overwrite_append_right a (t ++ b) s 0
  rw [Nat.add_zero] at hzero
  rw [hzero, overwrite, List.take_zero, List.nil_append, Nat.zero_add, ← h, List.drop_left]

/-- Writing over a record's size field leaves the record with the size written. -/
theorem overwrite_record (e : StoredEntry) (size v : ℕ) (rest : Bytes) :
    overwrite (e.record fl size ++ rest) 18 (le32 v) = e.record fl v ++ rest := by
  have h := overwrite_middle
    (le32 lfhSig ++ le16 e.version ++ le16 e.flags ++ le16 0 ++ le16 e.modTime ++
      le16 e.modDate ++ le32 (fl.crc32 e.data).toNat)
    (le32 e.data.length ++ (le16 e.name.length ++ (le16 e.extra.length ++ (e.name ++
      (e.extra ++ (e.data ++ rest)))))) (le32 v) (le32 size) rfl
  simpa [StoredEntry.record] using h

/-- The damaged file is the file of the records with one size exchanged. -/
theorem damagedFile_eq (es : List StoredEntry) {k : ℕ} (hk : k < es.length) (v : ℕ) :
    damagedFile fl es k v = storedRecords fl ((ownSizes es).modify k fun q ↦ (q.1, v)) := by
  unfold damagedFile
  induction es generalizing k with
  | nil => simp at hk
  | cons e es ih =>
      have hcons : ownSizes (e :: es) = (e, e.data.length) :: ownSizes es := rfl
      rw [hcons, storedRecords_cons]
      cases k with
      | zero =>
          rw [List.modify_zero_cons, storedRecords_cons]
          exact overwrite_record e _ v _
      | succ k =>
          have hlen := e.length_record fl e.data.length
          rw [List.modify_succ_cons, storedRecords_cons, headerOffset_cons_succ, Nat.add_assoc,
            ← hlen, overwrite_append_right, ih (by simpa using hk)]

/-! ## Records, read back -/

/-- The fields of a stored record with declared size `size` at offset `o`. -/
structure Stands (fl : Flate2) (d : Bytes) (o : ℕ) (e : StoredEntry) (size : ℕ) : Prop where
  sig : u32le d o = some lfhSig
  flags : u16le d (o + 6) = some e.flags
  method : u16le d (o + 8) = some 0
  crc : u32le d (o + 14) = some (fl.crc32 e.data).toNat
  comp : u32le d (o + 18) = some size
  uncomp : u32le d (o + 22) = some e.data.length
  nameLen : u16le d (o + 26) = some e.name.length
  extraLen : u16le d (o + 28) = some e.extra.length
  name : At d (o + 30) e.name
  extra : At d (o + 30 + e.name.length) e.extra
  payload : At d (o + e.headerLength) e.data
  length_le : o + e.recordLength ≤ d.length

theorem stands_of_at {d : Bytes} {o size : ℕ} {e : StoredEntry} (h : At d o (e.record fl size))
    (hw : e.WellFormed) (hsize : size < 2 ^ 32) : Stands fl d o e size := by
  have hpos := e.headerLength_pos
  have hlen := h.add_length_le (List.ne_nil_of_length_pos (by
    rw [StoredEntry.length_record, StoredEntry.recordLength]
    omega))
  rw [StoredEntry.length_record] at hlen
  simp only [StoredEntry.record, List.append_assoc, At.le16_append_iff, At.le32_append_iff] at h
  obtain ⟨h₀, -, h₆, h₈, -, -, h₁₄, h₁₈, h₂₂, h₂₆, h₂₈, hrest⟩ := h
  obtain ⟨hname, hrest⟩ := At.append_iff.mp hrest
  obtain ⟨hextra, hdata⟩ := At.append_iff.mp hrest
  have hlength := hw.data
  refine ⟨h₀.u32le_le32 (by decide), h₆.u16le_le16 hw.flags, h₈.u16le_le16 (by decide),
    h₁₄.u32le_le32 (UInt32.toNat_lt _), h₁₈.u32le_le32 hsize, h₂₂.u32le_le32 (by omega),
    h₂₆.u16le_le16 hw.name, h₂₈.u16le_le16 hw.extra, hname, hextra, ?_, hlen⟩
  have hoff : o + e.headerLength = o + 30 + e.name.length + e.extra.length := by
    unfold StoredEntry.headerLength
    omega
  rw [hoff]
  exact hdata

namespace Stands

variable {d : Bytes} {o size : ℕ} {e : StoredEntry}

/-- The entry the scan makes of the header. -/
theorem scanned (h : Stands fl d o e size) : (scannedHeaderAt d o).1 =
    { name := fromUtf8Lossy e.name, nameValidUtf8 := isUtf8 e.name, method := 0,
      crc32 := (fl.crc32 e.data).toNat, compSize := size, uncompSize := e.data.length,
      localHeaderOffset := o, flags := e.flags,
      zip64 := isZip64 size e.data.length 0 || extraHasZip64 (some e.extra),
      fromCentralDir := false } := by
  have hlen := h.length_le
  unfold StoredEntry.recordLength StoredEntry.headerLength at hlen
  have hname := h.name.slice?_of_le (by omega)
  have hextra := h.extra.slice?_of_le (by omega)
  simp [scannedHeaderAt, h.flags, h.method, h.crc, h.comp, h.uncomp, h.nameLen, h.extraLen,
    hname, hextra]

/-- Where the scan goes from the header. -/
theorem scanned_next (h : Stands fl d o e size) : (scannedHeaderAt d o).2 =
    if 0 < size then saturatingAdd (o + e.headerLength) size
    else (nextSignature d (o + e.headerLength)).getD d.length := by
  have hoff : o + 30 + e.name.length + e.extra.length = o + e.headerLength := by
    unfold StoredEntry.headerLength
    omega
  simp [scannedHeaderAt, h.comp, h.nameLen, h.extraLen, hoff]

theorem payloadStart (h : Stands fl d o e size) (hd : d.length ≤ wordMax) :
    payloadStart d o = some (o + e.headerLength) := by
  have hlen := h.length_le
  unfold StoredEntry.recordLength at hlen
  have hoff : o + e.headerLength = o + 30 + e.name.length + e.extra.length := by
    unfold StoredEntry.headerLength
    omega
  simp only [Zip.payloadStart, h.nameLen, h.extraLen, Option.bind_eq_bind]
  rw [checkedAdd_of_le (by omega), Option.bind_some, if_neg (by omega), Option.bind_some,
    Option.bind_some, checkedAdd_of_le (by omega), Option.bind_some, checkedAdd_of_le (by omega),
    hoff]

/-- A record with its own size extracts to its data. -/
theorem extractEntry (h : Stands fl d o e e.data.length) (hw : e.WellFormed)
    (hd : d.length ≤ wordMax) : extractEntry fl d (scannedHeaderAt d o).1 =
      ⟨fromUtf8Lossy e.name, e.data, .verifiedCrc, (fl.crc32 e.data).toNat,
        (fl.crc32 e.data).toNat⟩ := by
  have hlen := h.length_le
  have hdata := hw.data
  unfold StoredEntry.recordLength at hlen
  have hoff : o + 30 + e.name.length + e.extra.length = o + e.headerLength := by
    unfold StoredEntry.headerLength
    omega
  have hslice := h.payload.slice?_of_le (by omega)
  have hcomp : compressedBytes d (scannedHeaderAt d o).1 = .ok e.data := by
    rw [h.scanned]
    simp only [compressedBytes, h.sig, h.nameLen, h.extraLen, ne_eq, not_true_eq_false, if_false,
      hoff]
    rw [checkedAdd_of_le (by omega)]
    dsimp only
    rw [hslice]
  have hplain : ((scannedHeaderAt d o).1).isEncrypted = false := by
    simp [h.scanned, ZipEntry.isEncrypted, hw.plain]
  have hzip64 : ((scannedHeaderAt d o).1).zip64 = false := by
    have hne : e.data.length ≠ 0xFFFFFFFF := by omega
    rw [h.scanned]
    simp [isZip64, zip64SentinelU32, hne, hw.noZip64]
  have hsized : ((scannedHeaderAt d o).1).hasDataDescriptor = false := by
    simp [h.scanned, ZipEntry.hasDataDescriptor, hw.sized]
  have hmethod : (scannedHeaderAt d o).1.method = 0 := by rw [h.scanned]
  have hname : (scannedHeaderAt d o).1.name = fromUtf8Lossy e.name := by rw [h.scanned]
  have hcrc : (scannedHeaderAt d o).1.crc32 = (fl.crc32 e.data).toNat := by rw [h.scanned]
  unfold Zip.extractEntry
  simp only [hplain, hzip64, hsized, hcomp, hmethod, hname, hcrc]
  simp [decodePayload]

end Stands

end VeraqisRecover.Zip
