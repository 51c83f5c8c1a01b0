import VeraqisRecover.Zip.Extract
import VeraqisRecover.Zip.Host

/-!
# The layout of an encoded archive

Each part's header stands where its directory record says, and the records of
the parts tile the payload area.  A header read at its place is named as the
part is and leads to the part's data.
-/

namespace VeraqisRecover.Zip

open ByteString LossyUtf8

/-- Parts with the offsets of their headers, the first one at `o`. -/
def placed (fl : Flate2) : ℕ → List Part → List (Part × ℕ)
  | _, [] => []
  | o, p :: parts => (p, o) :: placed fl (o + (localRecord fl p).length) parts

/-- The directory record of a part whose header is at `lho`. -/
def Part.dirRecord (fl : Flate2) (p : Part) (lho : ℕ) : DirRecord :=
  ⟨20, 0, p.method fl, 0, 0, p.crc fl, (p.payload fl).length, p.data.length, p.rawName, lho⟩

def dirRecords (fl : Flate2) (o : ℕ) (parts : List Part) : List DirRecord :=
  (placed fl o parts).map fun q ↦ q.1.dirRecord fl q.2

/-- The bounds under which the encoder's fields hold what is put into them. -/
structure Part.Fits (fl : Flate2) (p : Part) : Prop where
  name : p.rawName.length < 2 ^ 16
  payload : (p.payload fl).length < 2 ^ 32 - 1
  data : p.data.length < 2 ^ 32 - 1

variable {fl : Flate2}

@[simp] theorem placed_nil (o : ℕ) : placed fl o [] = [] := rfl

@[simp] theorem placed_cons (o : ℕ) (p : Part) (parts : List Part) :
    placed fl o (p :: parts) = (p, o) :: placed fl (o + (localRecord fl p).length) parts := rfl

theorem map_fst_placed (fl : Flate2) (o : ℕ) (parts : List Part) :
    (placed fl o parts).map Prod.fst = parts := by
  induction parts generalizing o with
  | nil => rfl
  | cons p parts ih => simp [ih]

theorem length_placed (o : ℕ) (parts : List Part) :
    (placed fl o parts).length = parts.length := by
  simpa using congrArg List.length (map_fst_placed fl o parts)

@[simp] theorem length_dirRecords (o : ℕ) (parts : List Part) :
    (dirRecords fl o parts).length = parts.length := by
  simp [dirRecords, length_placed]

theorem length_localRecord (p : Part) :
    (localRecord fl p).length = 30 + p.rawName.length + (p.payload fl).length := by
  simp only [localRecord, localHeader, List.length_append, length_le16, length_le32,
    Nat.reduceAdd]

theorem length_localRecords_cons (p : Part) (parts : List Part) :
    (localRecords fl (p :: parts)).length =
      (localRecord fl p).length + (localRecords fl parts).length := by
  simp [localRecords]

theorem mem_placed_bounds {o : ℕ} {parts : List Part} {q : Part × ℕ}
    (h : q ∈ placed fl o parts) :
    q.1 ∈ parts ∧ o ≤ q.2 ∧
      q.2 + (localRecord fl q.1).length ≤ o + (localRecords fl parts).length := by
  induction parts generalizing o with
  | nil => simp at h
  | cons p parts ih =>
      rw [length_localRecords_cons]
      rcases List.mem_cons.mp h with rfl | h
      · exact ⟨List.mem_cons_self, le_refl _, by simp only; omega⟩
      · obtain ⟨hm, hle, hend⟩ := ih h
        exact ⟨List.mem_cons_of_mem p hm, by omega, by omega⟩

/-- The encoder's directory is the written directory of the placed parts. -/
theorem centralRecords_eq (o : ℕ) (parts : List Part) :
    centralRecords fl o parts = dirBytes (dirRecords fl o parts) := by
  induction parts generalizing o with
  | nil => rfl
  | cons p parts ih =>
      rw [centralRecords, ih]
      rfl

theorem at_localRecord {d : Bytes} {o : ℕ} {parts : List Part}
    (h : At d o (localRecords fl parts)) {q : Part × ℕ} (hq : q ∈ placed fl o parts) :
    At d q.2 (localRecord fl q.1) := by
  induction parts generalizing o with
  | nil => simp at hq
  | cons p parts ih =>
      obtain ⟨hp, hrest⟩ := At.append_iff.mp h
      rcases List.mem_cons.mp hq with rfl | hq
      · exact hp
      · exact ih hrest hq

theorem payload_le (fl : Flate2) (p : Part) : (p.payload fl).length ≤ p.data.length := by
  unfold Part.payload Part.deflates
  split
  · rename_i h
    exact le_of_lt (by simpa using h)
  · exact le_refl _

theorem Part.method_lt (p : Part) : p.method fl < 2 ^ 16 := by
  unfold Part.method
  split <;> decide

theorem Part.crc_lt (p : Part) : p.crc fl < 2 ^ 32 := UInt32.toNat_lt _

theorem Part.dirRecord_fits {p : Part} (h : p.Fits fl) {lho : ℕ} (hlho : lho < 2 ^ 32) :
    (p.dirRecord fl lho).Fits :=
  ⟨Nat.two_pow_pos 16, p.method_lt, p.crc_lt, by have := h.payload; simp only [dirRecord]; omega,
    by have := h.data; simp only [dirRecord]; omega, h.name, hlho⟩

/-! ## Headers, read back -/

/-- The fields of a local header written for `p`. -/
structure HeaderAt (fl : Flate2) (d : Bytes) (o : ℕ) (p : Part) : Prop where
  sig : u32le d o = some lfhSig
  flags : u16le d (o + 6) = some 0
  method : u16le d (o + 8) = some (p.method fl)
  crc : u32le d (o + 14) = some (p.crc fl)
  comp : u32le d (o + 18) = some (p.payload fl).length
  uncomp : u32le d (o + 22) = some p.data.length
  nameLen : u16le d (o + 26) = some p.rawName.length
  extraLen : u16le d (o + 28) = some 0
  name : At d (o + 30) p.rawName
  payload : At d (o + 30 + p.rawName.length) (p.payload fl)
  length_le : o + (localRecord fl p).length ≤ d.length

theorem headerAt {d : Bytes} {o : ℕ} {p : Part} (h : At d o (localRecord fl p))
    (hf : p.Fits fl) : HeaderAt fl d o p := by
  have hlen := h.add_length_le (List.ne_nil_of_length_pos (by rw [length_localRecord]; omega))
  simp only [localRecord, localHeader, List.append_assoc, At.le16_append_iff,
    At.le32_append_iff] at h
  obtain ⟨h₀, -, h₆, h₈, -, -, h₁₄, h₁₈, h₂₂, h₂₆, h₂₈, hrest⟩ := h
  obtain ⟨hname, hpay⟩ := At.append_iff.mp hrest
  have hpayload := hf.payload
  have hdata := hf.data
  exact ⟨h₀.u32le_le32 (by decide), h₆.u16le_le16 (by decide), h₈.u16le_le16 p.method_lt,
    h₁₄.u32le_le32 p.crc_lt, h₁₈.u32le_le32 (by omega), h₂₂.u32le_le32 (by omega),
    h₂₆.u16le_le16 hf.name, h₂₈.u16le_le16 (by decide), hname, hpay, hlen⟩

namespace HeaderAt

variable {d : Bytes} {o : ℕ} {p : Part}

theorem present (h : HeaderAt fl d o p) (hd : d.length ≤ wordMax) :
    localHeaderPresent d o = true := by
  have hlen := h.length_le
  rw [length_localRecord] at hlen
  rw [localHeaderPresent, checkedAdd_of_le (by omega)]
  simp only [Option.any_some, h.sig, decide_true, Bool.and_true, decide_eq_true_eq]
  omega

theorem named (h : HeaderAt fl d o p) (hd : d.length ≤ wordMax) :
    headerNamedAt d o p.rawName = true := by
  have hlen := h.length_le
  rw [length_localRecord] at hlen
  have hslice := h.name.slice?_of_le (by omega)
  simp [headerNamedAt, h.present hd, h.nameLen, hslice]

/-- The range a directory entry of the part's sizes occupies is the part's record. -/
theorem payloadRange (h : HeaderAt fl d o p) (hd : d.length ≤ wordMax) {e : ZipEntry}
    (ho : e.localHeaderOffset = o) (hc : e.compSize = (p.payload fl).length) :
    payloadRange d e = some (o, o + (localRecord fl p).length) := by
  have hlen := h.length_le
  rw [length_localRecord] at hlen ⊢
  have hstart : payloadStart d o = some (o + 30 + p.rawName.length) := by
    simp only [payloadStart, h.nameLen, h.extraLen, Option.bind_eq_bind]
    rw [checkedAdd_of_le (by omega), Option.bind_some, if_neg (by omega), Option.bind_some,
      Option.bind_some, checkedAdd_of_le (by omega), Option.bind_some,
      checkedAdd_of_le (by omega)]
    rfl
  simp only [Zip.payloadRange, ho, hc, hstart, Option.bind_eq_bind, Option.bind_some]
  rw [checkedAdd_of_le (by omega), Option.bind_some, if_neg (by omega)]
  simp only [Option.some.injEq, Prod.mk.injEq, true_and]
  omega

theorem compressedBytes (h : HeaderAt fl d o p) (hd : d.length ≤ wordMax) {e : ZipEntry}
    (ho : e.localHeaderOffset = o) (hc : e.compSize = (p.payload fl).length) :
    compressedBytes d e = .ok (p.payload fl) := by
  have hlen := h.length_le
  rw [length_localRecord] at hlen
  have hslice := h.payload.slice?_of_le (by omega)
  have hadd : checkedAdd (o + 30 + p.rawName.length) (p.payload fl).length =
      some (o + 30 + p.rawName.length + (p.payload fl).length) := checkedAdd_of_le (by omega)
  simp [Zip.compressedBytes, ho, hc, h.sig, h.nameLen, h.extraLen, hadd, hslice]

end HeaderAt

/-- The payload of a part decodes to its data. -/
theorem decodePayload_payload (hrt : fl.RoundTrips) {p : Part}
    (hlen : p.data.length ≤ maxInflateBytes) :
    decodePayload fl (p.method fl) (p.payload fl) = some (some p.data) := by
  unfold Part.method Part.payload decodePayload
  cases p.deflates fl with
  | false => simp
  | true => simp [inflateBounded, hrt p.data, hlen]

/-- What the extraction of a part's entry returns. -/
def Part.verified (fl : Flate2) (p : Part) : ExtractedPart :=
  ⟨p.name, p.data, .verifiedCrc, p.crc fl, p.crc fl⟩

/-- An entry with a part's fields, pointed at a header written for the part, extracts to the
part's data. -/
theorem extractEntry_part (hrt : fl.RoundTrips) {d : Bytes} {o : ℕ} {p : Part}
    (h : HeaderAt fl d o p) (hd : d.length ≤ wordMax) (hlen : p.data.length ≤ maxInflateBytes)
    {e : ZipEntry} (hname : e.name = p.name) (henc : e.isEncrypted = false)
    (hzip64 : e.zip64 = false) (hcd : e.fromCentralDir = true) (ho : e.localHeaderOffset = o)
    (hc : e.compSize = (p.payload fl).length) (hm : e.method = p.method fl)
    (hcrc : e.crc32 = p.crc fl) : extractEntry fl d e = p.verified fl := by
  unfold extractEntry
  simp only [henc, hzip64, hcd, h.compressedBytes hd ho hc, hm, decodePayload_payload hrt hlen,
    hcrc, hname]
  simp [Part.verified, Part.crc]

/-- The entry the reader makes of a part's directory record. -/
def Part.entry (fl : Flate2) (p : Part) (lho : ℕ) : ZipEntry := (p.dirRecord fl lho).entry

@[simp] theorem Part.entry_name (p : Part) (lho : ℕ) : (p.entry fl lho).name = p.name :=
  fromUtf8Lossy_asBytes p.name

@[simp] theorem Part.entry_localHeaderOffset (p : Part) (lho : ℕ) :
    (p.entry fl lho).localHeaderOffset = lho := rfl

@[simp] theorem Part.entry_compSize (p : Part) (lho : ℕ) :
    (p.entry fl lho).compSize = (p.payload fl).length := rfl

@[simp] theorem Part.entry_method (p : Part) (lho : ℕ) :
    (p.entry fl lho).method = p.method fl := rfl

@[simp] theorem Part.entry_crc32 (p : Part) (lho : ℕ) : (p.entry fl lho).crc32 = p.crc fl := rfl

@[simp] theorem Part.entry_fromCentralDir (p : Part) (lho : ℕ) :
    (p.entry fl lho).fromCentralDir = true := rfl

@[simp] theorem Part.entry_isEncrypted (p : Part) (lho : ℕ) :
    (p.entry fl lho).isEncrypted = false := by
  simp [entry, DirRecord.entry, dirRecord, ZipEntry.isEncrypted]

@[simp] theorem Part.entry_nameValidUtf8 (p : Part) (lho : ℕ) :
    (p.entry fl lho).nameValidUtf8 = true := isUtf8_asBytes p.name

theorem Part.entry_zip64 {p : Part} (hf : p.Fits fl) {lho : ℕ} (hlho : lho < 2 ^ 32 - 1) :
    (p.entry fl lho).zip64 = false := by
  have hpay := hf.payload
  have hdata := hf.data
  have hc : (p.payload fl).length ≠ zip64SentinelU32 := by
    unfold zip64SentinelU32
    omega
  have hu : p.data.length ≠ zip64SentinelU32 := by
    unfold zip64SentinelU32
    omega
  have hl : lho ≠ zip64SentinelU32 := by
    unfold zip64SentinelU32
    omega
  simp [entry, DirRecord.entry, dirRecord, isZip64, hc, hu, hl]

theorem map_entry_dirRecords (o : ℕ) (parts : List Part) :
    (dirRecords fl o parts).map DirRecord.entry =
      (placed fl o parts).map fun q ↦ q.1.entry fl q.2 := by
  rw [dirRecords, List.map_map]
  rfl

end VeraqisRecover.Zip
