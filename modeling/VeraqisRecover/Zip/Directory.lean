import VeraqisRecover.Zip.Build
import VeraqisRecover.Zip.Parse

/-!
# A directory as written

Both writers of this repository, the encoder and the directory rebuild, emit
records without extra field and comment, one after the other, followed by an
EOCD without comment.  Wherever such a directory stands, the EOCD search finds
its EOCD, and the directory walk reads its records back and stops after the
last one.
-/

namespace VeraqisRecover.Zip

open ByteString LossyUtf8

/-- The fields of a directory record as the writers fill them in. -/
structure DirRecord where
  needed : ℕ
  flags : ℕ
  method : ℕ
  time : ℕ
  date : ℕ
  crc : ℕ
  comp : ℕ
  uncomp : ℕ
  name : Bytes
  lho : ℕ
  deriving DecidableEq, Repr

namespace DirRecord

def bytes (r : DirRecord) : Bytes :=
  le32 cdfhSig ++ le16 20 ++ le16 r.needed ++ le16 r.flags ++ le16 r.method ++ le16 r.time ++
    le16 r.date ++ le32 r.crc ++ le32 r.comp ++ le32 r.uncomp ++ le16 r.name.length ++ le16 0 ++
    le16 0 ++ le16 0 ++ le16 0 ++ le32 0 ++ le32 r.lho ++ r.name

/-- Every field the reader looks at fits in its width. -/
structure Fits (r : DirRecord) : Prop where
  flags : r.flags < 2 ^ 16
  method : r.method < 2 ^ 16
  crc : r.crc < 2 ^ 32
  comp : r.comp < 2 ^ 32
  uncomp : r.uncomp < 2 ^ 32
  name : r.name.length < 2 ^ 16
  lho : r.lho < 2 ^ 32

/-- The entry the reader makes of the record. -/
def entry (r : DirRecord) : ZipEntry where
  name := fromUtf8Lossy r.name
  nameValidUtf8 := isUtf8 r.name
  method := r.method
  crc32 := r.crc
  compSize := r.comp
  uncompSize := r.uncomp
  localHeaderOffset := r.lho
  flags := r.flags
  zip64 := isZip64 r.comp r.uncomp r.lho
  fromCentralDir := true

@[simp] theorem length_bytes (r : DirRecord) : r.bytes.length = 46 + r.name.length := by
  delta bytes
  simp only [List.length_append, length_le16, length_le32, Nat.reduceAdd]

/-- The numeric fields, read back. -/
structure ReadAt (d : Bytes) (o : ℕ) (r : DirRecord) : Prop where
  sig : u32le d o = some cdfhSig
  flags : u16le d (o + 8) = some r.flags
  method : u16le d (o + 10) = some r.method
  crc : u32le d (o + 16) = some r.crc
  comp : u32le d (o + 20) = some r.comp
  uncomp : u32le d (o + 24) = some r.uncomp
  nameLen : u16le d (o + 28) = some r.name.length
  extraLen : u16le d (o + 30) = some 0
  commentLen : u16le d (o + 32) = some 0
  lho : u32le d (o + 42) = some r.lho
  name : At d (o + 46) r.name

theorem readAt {d : Bytes} {o : ℕ} {r : DirRecord} (h : At d o r.bytes) (hf : r.Fits) :
    r.ReadAt d o := by
  delta bytes at h
  simp only [List.append_assoc, At.le16_append_iff, At.le32_append_iff] at h
  obtain ⟨h₀, -, -, h₈, h₁₀, -, -, h₁₆, h₂₀, h₂₄, h₂₈, h₃₀, h₃₂, -, -, -, h₄₂, h₄₆⟩ := h
  exact ⟨h₀.u32le_le32 (by decide), h₈.u16le_le16 hf.flags, h₁₀.u16le_le16 hf.method,
    h₁₆.u32le_le32 hf.crc, h₂₀.u32le_le32 hf.comp, h₂₄.u32le_le32 hf.uncomp,
    h₂₈.u16le_le16 hf.name, h₃₀.u16le_le16 (by decide), h₃₂.u16le_le16 (by decide),
    h₄₂.u32le_le32 hf.lho, h₄₆⟩

/-- A written record reads back as its entry. -/
theorem ReadAt.centralRecordAt {cd : Bytes} {o : ℕ} {r : DirRecord} (h : r.ReadAt cd o)
    (policy : ZipRecoveryPolicy) (hlen : o + 46 + r.name.length ≤ cd.length)
    (hcd : cd.length ≤ wordMax) (hname : r.name.length ≤ policy.maxNameBytes) :
    centralRecordAt cd o policy =
      some ⟨r.entry, r.name.length, o + (46 + r.name.length)⟩ := by
  have hslice := h.name.slice?_of_le (by omega)
  have hextra : slice? cd (o + 46 + r.name.length) (o + 46 + r.name.length + 0) = some [] :=
    slice?_eq_some.mpr ⟨⟨by omega, by omega⟩, by simp⟩
  have hzip64 : extraHasZip64 (some []) = false := by
    simp [extraHasZip64, extraHasZip64From]
  simp only [Zip.centralRecordAt, h.flags, h.method, h.crc, h.comp, h.uncomp, h.nameLen,
    h.extraLen, h.commentLen, h.lho, Option.getD_some, Option.bind_eq_bind]
  rw [if_neg (by omega), checkedAdd_of_le (by omega), Option.bind_some,
    checkedAdd_of_le (by omega), Option.bind_some, checkedAdd_of_le (by omega), Option.bind_some,
    if_neg (by omega), hslice, hextra, hzip64]
  simp [entry, Nat.add_assoc]

end DirRecord

/-! ## The walk -/

/-- Directory records one after the other. -/
def dirBytes (rs : List DirRecord) : Bytes := rs.flatMap DirRecord.bytes

@[simp] theorem dirBytes_cons (r : DirRecord) (rs : List DirRecord) :
    dirBytes (r :: rs) = r.bytes ++ dirBytes rs := rfl

theorem dirBytes_append (rs rs' : List DirRecord) :
    dirBytes (rs ++ rs') = dirBytes rs ++ dirBytes rs' := List.flatMap_append

/-- Filename bytes a directory retains. -/
def nameBytes (rs : List DirRecord) : ℕ := (rs.map (·.name.length)).sum

theorem length_dirBytes (rs : List DirRecord) :
    (dirBytes rs).length = 46 * rs.length + nameBytes rs := by
  induction rs with
  | nil => rfl
  | cons r rs ih =>
      rw [dirBytes_cons, List.length_append, ih, DirRecord.length_bytes, nameBytes, nameBytes,
        List.map_cons, List.sum_cons, List.length_cons]
      omega

/-- What the reader needs of the policy to take in a whole directory. -/
structure Admits (policy : ZipRecoveryPolicy) (rs : List DirRecord) : Prop where
  records : rs.length ≤ policy.maxCentralRecords
  bytes : (dirBytes rs).length ≤ policy.maxCentralBytes
  metadata : nameBytes rs ≤ policy.maxMetadataBytes
  names : ∀ r ∈ rs, r.name.length ≤ policy.maxNameBytes

/-- The walk takes in the records standing before it, one by one. -/
theorem parseCentralFrom_records {cd : Bytes} {policy : ZipRecoveryPolicy} {region : ℕ}
    (hcd : cd.length ≤ wordMax) (rs : List DirRecord) {o : ℕ} {entries : List ZipEntry}
    {metadata : ℕ} (hat : At cd o (dirBytes rs)) (hfits : ∀ r ∈ rs, r.Fits)
    (hnames : ∀ r ∈ rs, r.name.length ≤ policy.maxNameBytes)
    (hregion : o + (dirBytes rs).length ≤ region) (hle : region ≤ cd.length)
    (hrecords : entries.length + rs.length ≤ policy.maxCentralRecords)
    (hmeta : metadata + nameBytes rs ≤ policy.maxMetadataBytes)
    (hword : metadata + nameBytes rs ≤ wordMax) :
    parseCentralFrom cd policy region o entries metadata =
      parseCentralFrom cd policy region (o + (dirBytes rs).length)
        (entries ++ rs.map DirRecord.entry) (metadata + nameBytes rs) := by
  induction rs generalizing o entries metadata with
  | nil => simp [dirBytes, nameBytes]
  | cons r rs ih =>
      rw [dirBytes_cons] at hat hregion ⊢
      rw [List.length_append, DirRecord.length_bytes] at hregion ⊢
      have hn : nameBytes (r :: rs) = r.name.length + nameBytes rs := rfl
      rw [hn] at hmeta hword ⊢
      rw [List.length_cons] at hrecords
      obtain ⟨hr, hrest⟩ := At.append_iff.mp hat
      rw [DirRecord.length_bytes] at hrest
      have hread := DirRecord.readAt hr (hfits r List.mem_cons_self)
      have hrec := hread.centralRecordAt policy (by omega) hcd
        (hnames r List.mem_cons_self)
      have hsat : saturatingAdd metadata r.name.length = metadata + r.name.length :=
        saturatingAdd_of_le (by omega)
      rw [parseCentralFrom, if_pos (by omega), if_neg (by omega), if_neg (by simp [hread.sig])]
      split
      · rename_i hnone
        rw [hrec] at hnone
        simp at hnone
      · rename_i rec hsome
        obtain rfl := Option.some.inj (hrec.symm.trans hsome)
        dsimp only
        rw [hsat, if_neg (by omega), ih hrest (fun r' hr' ↦ hfits r' (List.mem_cons_of_mem r hr'))
          (fun r' hr' ↦ hnames r' (List.mem_cons_of_mem r hr')) (by omega)
          (by rw [List.length_append, List.length_singleton]; omega) (by omega) (by omega)]
        simp [Nat.add_assoc]

/-- A directory followed by too few bytes for another record is read back in full. -/
theorem parseCentralDirectoryBounded_append {policy : ZipRecoveryPolicy} {rs : List DirRecord}
    (tail : Bytes) (count : ℕ) (hfits : ∀ r ∈ rs, r.Fits) (hadm : Admits policy rs)
    (hbytes : (dirBytes rs ++ tail).length ≤ policy.maxCentralBytes)
    (hlen : (dirBytes rs ++ tail).length ≤ wordMax) (htail : tail.length < 46) :
    parseCentralDirectoryBounded (dirBytes rs ++ tail) count policy =
      (rs.map DirRecord.entry, none) := by
  have hsize : (dirBytes rs ++ tail).length = (dirBytes rs).length + tail.length :=
    List.length_append
  have hname : nameBytes rs ≤ (dirBytes rs).length := by
    rw [length_dirBytes]
    omega
  have hself : At (dirBytes rs ++ tail) 0 (dirBytes rs) := by simp [At]
  unfold parseCentralDirectoryBounded
  rw [min_eq_left hbytes, parseCentralFrom_records hlen rs hself hfits hadm.names (by omega)
    (le_refl _) (by simpa using hadm.records) (by simpa using hadm.metadata)
    (by omega), Nat.zero_add, Nat.zero_add, List.nil_append, parseCentralFrom,
    if_neg (by omega)]

/-- A directory on its own is read back in full. -/
theorem parseCentralDirectoryBounded_dirBytes {policy : ZipRecoveryPolicy} {rs : List DirRecord}
    (count : ℕ) (hfits : ∀ r ∈ rs, r.Fits) (hadm : Admits policy rs)
    (hlen : (dirBytes rs).length ≤ wordMax) :
    parseCentralDirectoryBounded (dirBytes rs) count policy = (rs.map DirRecord.entry, none) := by
  have h := parseCentralDirectoryBounded_append [] count hfits hadm
    (by simpa using hadm.bytes) (by simpa using hlen) (by simp)
  rwa [List.append_nil] at h

end VeraqisRecover.Zip
