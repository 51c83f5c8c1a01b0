import VeraqisRecover.Zip.Entry

/-!
# Extracting and verifying an entry

`extract_entry` of `opc_zip.rs`.  The checksum and the DEFLATE codec are a
third-party library and enter as a parameter.
-/

namespace VeraqisRecover.Zip

open ByteString LossyUtf8

/-- The codec library: CRC-32, DEFLATE compression, and decompression of a complete stream
(absent on corrupt data). -/
structure Flate2 where
  crc32 : Bytes → UInt32
  deflate : Bytes → Bytes
  inflate : Bytes → Option Bytes

/-- Inflating a deflated string returns it. -/
def Flate2.RoundTrips (fl : Flate2) : Prop := ∀ d, fl.inflate (fl.deflate d) = some d

/-- Hard cap on a single decompressed entry. -/
def maxInflateBytes : ℕ := 512 * 1024 * 1024

/-- Why an entry's bytes could or could not be recovered exactly. -/
inductive ExtractStatus
  | verifiedCrc
  | crcMismatch
  | decodeFailed
  | badLocalHeader
  | truncated
  | unsupported (method : ℕ)
  | encrypted
  | zip64Unsupported
  | streamedUnsized
  deriving DecidableEq, Repr

/-- An entry's extracted bytes and verification outcome. -/
structure ExtractedPart where
  name : Text
  bytes : Bytes
  status : ExtractStatus
  crcExpected : ℕ
  crcActual : ℕ
  deriving DecidableEq, Repr

def inflateBounded (fl : Flate2) (data : Bytes) (max : ℕ) : Option Bytes :=
  (fl.inflate data).filter (·.length ≤ max)

/-- The decoded payload of a method, or `none` for one that is not supported. -/
def decodePayload (fl : Flate2) (method : ℕ) (comp : Bytes) : Option (Option Bytes) :=
  if method = 0 then some (some comp)
  else if method = 8 then some (inflateBounded fl comp maxInflateBytes)
  else none

/-- The compressed bytes the header at the entry's offset leads to. -/
def compressedBytes (data : Bytes) (e : ZipEntry) : Except ExtractStatus Bytes :=
  let lfh := e.localHeaderOffset
  if u32le data lfh ≠ some lfhSig then .error .badLocalHeader
  else
    match u16le data (lfh + 26), u16le data (lfh + 28) with
    | some nameLen, some extraLen =>
        let dataStart := lfh + 30 + nameLen + extraLen
        match checkedAdd dataStart e.compSize with
        | none => .error .badLocalHeader
        | some dataEnd =>
            match slice? data dataStart dataEnd with
            | none => .error .truncated
            | some comp => .ok comp
    | _, _ => .error .badLocalHeader

/-- Extract and CRC-verify one entry's bytes from the container. -/
def extractEntry (fl : Flate2) (data : Bytes) (e : ZipEntry) : ExtractedPart :=
  let base : ExtractedPart :=
    { name := e.name, bytes := [], status := .badLocalHeader, crcExpected := e.crc32,
      crcActual := 0 }
  if e.isEncrypted then { base with status := .encrypted }
  else if e.zip64 then { base with status := .zip64Unsupported }
  else if !e.fromCentralDir && e.hasDataDescriptor && e.compSize = 0 then
    { base with status := .streamedUnsized }
  else
    match compressedBytes data e with
    | .error status => { base with status }
    | .ok comp =>
        match decodePayload fl e.method comp with
        | none => { base with status := .unsupported e.method }
        | some none => { base with status := .decodeFailed }
        | some (some bytes) =>
            let actual := (fl.crc32 bytes).toNat
            { base with
              bytes
              status := if actual = e.crc32 then .verifiedCrc else .crcMismatch
              crcActual := actual }

theorem compressedBytes_error {data : Bytes} {e : ZipEntry} {status : ExtractStatus}
    (h : compressedBytes data e = .error status) :
    status = .badLocalHeader ∨ status = .truncated := by
  unfold compressedBytes at h
  dsimp only at h
  repeat' split at h
  all_goals simp_all

/-- What a verified extraction rests on. -/
theorem extractEntry_verified {fl : Flate2} {data : Bytes} {e : ZipEntry}
    (h : (extractEntry fl data e).status = .verifiedCrc) :
    ∃ comp bytes, compressedBytes data e = .ok comp ∧
      decodePayload fl e.method comp = some (some bytes) ∧
      (fl.crc32 bytes).toNat = e.crc32 ∧ (extractEntry fl data e).bytes = bytes := by
  unfold extractEntry at h ⊢
  dsimp only at h ⊢
  split_ifs at h ⊢ with h₁ h₂ h₃
  cases hcomp : compressedBytes data e with
  | error status =>
      rw [hcomp] at h
      dsimp only at h
      rcases compressedBytes_error hcomp with hs | hs <;> simp [hs] at h
  | ok comp =>
      rw [hcomp] at h
      dsimp only at h ⊢
      cases hdec : decodePayload fl e.method comp with
      | none => simp [hdec] at h
      | some decoded =>
          cases decoded with
          | none => simp [hdec] at h
          | some bytes =>
              refine ⟨comp, bytes, rfl, hdec, ?_, rfl⟩
              by_contra hne
              simp [hdec, hne] at h

end VeraqisRecover.Zip
