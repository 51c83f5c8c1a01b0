import VeraqisRecover.Zip.Merge
import VeraqisRecover.Zip.StoredCodec

/-!
# What a verified extraction proves

The payload is delimited by the header at the entry's offset and by the declared
compressed size; the checksum alone decides.  The declared uncompressed size is
metadata: no step of the extraction reads it.
-/

namespace VeraqisRecover.Zip

open ByteString

/-- `bytes` is the stored or the inflated content of `comp`. -/
def Decodes (fl : Flate2) (method : ℕ) (comp bytes : Bytes) : Prop :=
  method = 0 ∧ bytes = comp ∨
    method = 8 ∧ fl.inflate comp = some bytes ∧ bytes.length ≤ maxInflateBytes

theorem decodes_of_decodePayload {fl : Flate2} {method : ℕ} {comp bytes : Bytes}
    (h : decodePayload fl method comp = some (some bytes)) : Decodes fl method comp bytes := by
  unfold decodePayload at h
  split_ifs at h with hstored hdeflated
  · exact .inl ⟨hstored, (Option.some.inj (Option.some.inj h)).symm⟩
  · obtain ⟨hinf, hlen⟩ := Option.filter_eq_some_iff.mp (Option.some.inj h)
    exact .inr ⟨hdeflated, hinf, of_decide_eq_true hlen⟩

/-- The compressed size many bytes after the name and extra fields of the header at the entry's
offset are `comp`. -/
structure PayloadOf (data : Bytes) (e : ZipEntry) (comp : Bytes) : Prop where
  signed : u32le data e.localHeaderOffset = some lfhSig
  placed : ∃ nameLen extraLen, u16le data (e.localHeaderOffset + 26) = some nameLen ∧
    u16le data (e.localHeaderOffset + 28) = some extraLen ∧
    slice? data (e.localHeaderOffset + 30 + nameLen + extraLen)
      (e.localHeaderOffset + 30 + nameLen + extraLen + e.compSize) = some comp
  sized : comp.length = e.compSize

theorem payloadOf_of_compressedBytes {data comp : Bytes} {e : ZipEntry}
    (h : compressedBytes data e = .ok comp) : PayloadOf data e comp := by
  unfold compressedBytes at h
  dsimp only at h
  split at h
  · cases h
  · rename_i hsig
    split at h
    · rename_i nameLen extraLen hname hextra
      split at h
      · cases h
      · rename_i dataEnd hend
        obtain ⟨-, rfl⟩ := checkedAdd_eq_some.mp hend
        split at h
        · cases h
        · rename_i comp' hslice
          cases h
          refine ⟨not_not.mp hsig, ⟨nameLen, extraLen, hname, hextra, hslice⟩, ?_⟩
          rw [length_of_slice? hslice, Nat.add_sub_cancel_left]
    · cases h

/-- What a verified extraction of an entry rests on. -/
structure VerifiedContent (fl : Flate2) (data : Bytes) (e : ZipEntry) (bytes : Bytes) : Prop where
  notEncrypted : e.isEncrypted = false
  notZip64 : e.zip64 = false
  content : ∃ comp, PayloadOf data e comp ∧ Decodes fl e.method comp bytes
  crc : (fl.crc32 bytes).toNat = e.crc32

theorem notEncrypted_of_verified {fl : Flate2} {data : Bytes} {e : ZipEntry}
    (h : (extractEntry fl data e).status = .verifiedCrc) : e.isEncrypted = false := by
  cases he : e.isEncrypted with
  | false => rfl
  | true => simp [extractEntry, he] at h

theorem notZip64_of_verified {fl : Flate2} {data : Bytes} {e : ZipEntry}
    (h : (extractEntry fl data e).status = .verifiedCrc) : e.zip64 = false := by
  cases hz : e.zip64 with
  | false => rfl
  | true => simp [extractEntry, hz, notEncrypted_of_verified h] at h

/-- A verified extraction is the content its header delimits, under the stored checksum; the
declared uncompressed size has no say in it. -/
theorem extractEntry_verifiedContent (fl : Flate2) (data : Bytes) (e : ZipEntry)
    (h : (extractEntry fl data e).status = .verifiedCrc) :
    VerifiedContent fl data e (extractEntry fl data e).bytes ∧
      ∀ n, extractEntry fl data { e with uncompSize := n } = extractEntry fl data e := by
  obtain ⟨comp, bytes, hcomp, hdec, hcrc, hbytes⟩ := extractEntry_verified h
  rw [hbytes]
  refine ⟨⟨notEncrypted_of_verified h, notZip64_of_verified h, ⟨comp, ?_, ?_⟩, hcrc⟩, fun n ↦ rfl⟩
  · exact payloadOf_of_compressedBytes hcomp
  · exact decodes_of_decodePayload hdec

/-- One stored byte whose header declares five. -/
def overstatedArchive : Bytes := (localRecord storedFlate ⟨['a'], [0x61]⟩).set 22 5

def overstatedEntry : ZipEntry where
  name := ['a']
  nameValidUtf8 := true
  method := 0
  crc32 := 0xE8B7BE43
  compSize := 1
  uncompSize := 5
  localHeaderOffset := 0
  flags := 0
  zip64 := false
  fromCentralDir := false

theorem overstatedEntry_verifiedContent : VerifiedContent storedFlate overstatedArchive
      overstatedEntry (extractEntry storedFlate overstatedArchive overstatedEntry).bytes ∧
    ∀ n, extractEntry storedFlate overstatedArchive { overstatedEntry with uncompSize := n } =
      extractEntry storedFlate overstatedArchive overstatedEntry :=
  extractEntry_verifiedContent storedFlate overstatedArchive overstatedEntry (by decide +kernel)

theorem overstatedEntry_not_declared_length :
    overstatedEntry ∈ (parseZip overstatedArchive).entries ∧
      (extractEntry storedFlate overstatedArchive overstatedEntry).status = .verifiedCrc ∧
      (extractEntry storedFlate overstatedArchive overstatedEntry).bytes.length ≠
        overstatedEntry.uncompSize := by
  decide +kernel

end VeraqisRecover.Zip
