import VeraqisRecover.Crc.Agreement
import VeraqisRecover.Crc.Burst
import VeraqisRecover.Recovery.Engine
import VeraqisRecover.Support.Checked
import VeraqisRecover.Support.Overwrite

/-!
# Restoring the signature of a 7z file

A start header that its own checksum confirms licenses one repair
(`sevenz/mod.rs`, `sevenz_restore.rs`): the six bytes in front of it are those
that the format prescribes.  The repair is stated against the file that was
damaged.  It gives exactly that file back, and it is made only where such a
file exists.
-/

namespace VeraqisRecover.Recovery

open ByteString Checked Crc

namespace Sevenz

def SIGNATURE : Bytes := [0x37, 0x7A, 0xBC, 0xAF, 0x27, 0x1C]

def SIGNATURE_HEADER_LEN : ℕ := 32

def signatureOk (data : Bytes) : Bool := decide (6 ≤ data.length) && data.take 6 = SIGNATURE

/-- `CRC32_ISO_HDLC.checksum(data) as u32` -/
def checksum32 (data : Bytes) : ℕ := ((crc32IsoHdlcParams.checksum data).setWidth 32).toNat

def startHeaderCrcOk (data : Bytes) : Bool :=
  if data.length < SIGNATURE_HEADER_LEN then false
  else leValue (field data 8 4) = checksum32 (field data 12 20)

/-- The facts read from the signature header. -/
structure Inspect where
  signatureOk : Bool
  startHeaderCrcOk : Bool
  nextHeaderOffset : ℕ
  nextHeaderSize : ℕ
  endHeaderInBounds : Bool
  endHeaderCrcOk : Bool
  deriving DecidableEq, Repr

/-- The bytes of `signature` are written where they differ, and counted. -/
def writeLoop : Bytes → ℕ → Bytes → ℕ → Bytes × ℕ
  | [], _, out, written => (out, written)
  | b :: signature, i, out, written =>
      if out[i]? = some b then writeLoop signature (i + 1) out written
      else writeLoop signature (i + 1) (out.set i b) (written + 1)

structure SignatureRepair where
  data : Bytes
  bytesWritten : ℕ
  verifiedBy : String
  deriving DecidableEq, Repr

def VERIFIER : String := "7z Start-Header CRC-32 over [12,32)"

def repairSignature (data : Bytes) : Option SignatureRepair :=
  if data.length < SIGNATURE_HEADER_LEN then none
  else if signatureOk data then none
  else if ¬ startHeaderCrcOk data then none
  else
    let out := writeLoop SIGNATURE 0 data 0
    some ⟨out.1, out.2, VERIFIER⟩

def endHeaderInBounds (data : Bytes) (nextOff nextSize : ℕ) : Bool :=
  (((checkedAdd SIGNATURE_HEADER_LEN nextOff).bind (checkedAdd · nextSize)).map fun stop ↦
    decide (stop ≤ data.length)).getD false

def endHeaderCrcOk (data : Bytes) (nextOff nextSize nextCrc : ℕ) : Checked Bool := do
  let start ← add 64 SIGNATURE_HEADER_LEN nextOff
  let stop ← add 64 start nextSize
  let endHeader ← range data start stop
  return checksum32 endHeader = nextCrc

def inspect (data : Bytes) : Checked Inspect := do
  if data.length < SIGNATURE_HEADER_LEN then
    return ⟨signatureOk data, false, 0, 0, false, false⟩
  else
    let nextOff ← leAt 8 data 12
    let nextSize ← leAt 8 data 20
    let nextCrc ← leAt 4 data 28
    let inBounds := endHeaderInBounds data nextOff nextSize
    let endCrcOk ←
      if inBounds ∧ 0 < nextSize then endHeaderCrcOk data nextOff nextSize nextCrc else pure false
    return ⟨signatureOk data, startHeaderCrcOk data, nextOff, nextSize, inBounds, endCrcOk⟩

/-! ## The repair -/

/-- How many positions the two strings differ at. -/
def differing (a b : Bytes) : ℕ := (a.zip b).countP fun p ↦ p.1 ≠ p.2

theorem writeLoop_eq (signature front damaged rest : Bytes) (written : ℕ)
    (hlen : damaged.length = signature.length) :
    writeLoop signature front.length (front ++ damaged ++ rest) written =
      (front ++ signature ++ rest, written + differing damaged signature) := by
  induction signature generalizing front damaged written with
  | nil =>
      rw [List.length_nil, List.length_eq_zero_iff] at hlen
      subst hlen
      rfl
  | cons b signature ih =>
      obtain ⟨c, damaged, rfl⟩ := List.exists_cons_of_length_eq_add_one hlen
      have hlen' : damaged.length = signature.length := Nat.succ.inj hlen
      have hget : (front ++ c :: damaged ++ rest)[front.length]? = some c := by simp
      have hset : (front ++ c :: damaged ++ rest).set front.length b =
          (front ++ [b]) ++ damaged ++ rest := by simp
      have hnext (written : ℕ) := ih (front ++ [b]) damaged written hlen'
      rw [List.length_append, List.length_singleton] at hnext
      rw [writeLoop, hget, hset]
      by_cases hc : c = b
      · subst hc
        rw [if_pos rfl, List.append_cons front c damaged, hnext]
        simp [differing, List.append_assoc]
      · rw [if_neg (by simpa using hc), hnext]
        simp [differing, hc, List.append_assoc]
        omega

theorem checksum32_eq (data : Bytes) : checksum32 data = (crc32 data).toNat := by
  rw [checksum32, checksum_eq, setWidth_64_32]

theorem signatureOk_iff {data : Bytes} (h : SIGNATURE_HEADER_LEN ≤ data.length) :
    signatureOk data = true ↔ data.take 6 = SIGNATURE := by
  unfold SIGNATURE_HEADER_LEN at h
  simp [signatureOk, show 6 ≤ data.length by omega]

theorem startHeaderCrcOk_iff {data : Bytes} (h : SIGNATURE_HEADER_LEN ≤ data.length) :
    startHeaderCrcOk data = true ↔
      leValue (field data 8 4) = (crc32 (field data 12 20)).toNat := by
  rw [startHeaderCrcOk, if_neg (by omega), checksum32_eq, decide_eq_true_iff]

/-- A signature header in order: the signature stands, and the start header's own checksum
confirms it. -/
structure Intact (file : Bytes) : Prop where
  long : SIGNATURE_HEADER_LEN ≤ file.length
  signature : file.take 6 = SIGNATURE
  confirmed : leValue (field file 8 4) = (crc32 (field file 12 20)).toNat

/-- Only bytes of the signature differ between the two files. -/
def DiffersInSignature (data file : Bytes) : Prop :=
  data.length = file.length ∧ data.drop 6 = file.drop 6 ∧ data.take 6 ≠ file.take 6

theorem field_of_drop {data file : Bytes} {k o n : ℕ} (h : data.drop k = file.drop k)
    (hk : k ≤ o) : field data o n = field file o n := by
  obtain ⟨j, rfl⟩ := Nat.exists_eq_add_of_le hk
  rw [field, field, ← List.drop_drop, ← List.drop_drop, h]

theorem writeLoop_front {data : Bytes} (hlong : SIGNATURE_HEADER_LEN ≤ data.length) :
    writeLoop SIGNATURE 0 data 0 =
      (SIGNATURE ++ data.drop 6, differing (data.take 6) SIGNATURE) := by
  have hthirtyTwo : 32 ≤ data.length := hlong
  have hdamaged : (data.take 6).length = SIGNATURE.length := by
    rw [List.length_take, show SIGNATURE.length = 6 from rfl]
    omega
  have hout := writeLoop_eq SIGNATURE [] (data.take 6) (data.drop 6) 0 hdamaged
  rwa [List.nil_append, List.take_append_drop, List.length_nil, List.nil_append,
    Nat.zero_add] at hout

/-- What is repaired was a file in order, but for its signature. -/
theorem repairSignature_sound {data : Bytes} {r : SignatureRepair}
    (h : repairSignature data = some r) : Intact r.data ∧ DiffersInSignature data r.data ∧
      r.bytesWritten = differing (data.take 6) SIGNATURE ∧ r.verifiedBy = VERIFIER := by
  have hsix : SIGNATURE.length = 6 := rfl
  unfold repairSignature at h
  split at h
  · cases h
  split at h
  · cases h
  split at h
  · cases h
  rename_i hlong hsig hcrc
  have hlen : SIGNATURE_HEADER_LEN ≤ data.length := not_lt.mp hlong
  have hthirtyTwo : 32 ≤ data.length := hlen
  rw [signatureOk_iff hlen] at hsig
  rw [not_not, startHeaderCrcOk_iff hlen] at hcrc
  obtain rfl := (Option.some.inj h).symm
  dsimp only
  rw [writeLoop_front hlen]
  have hdrop : (SIGNATURE ++ data.drop 6).drop 6 = data.drop 6 := List.drop_left' hsix
  have htake : (SIGNATURE ++ data.drop 6).take 6 = SIGNATURE := List.take_left' hsix
  have hfile : data.length = (SIGNATURE ++ data.drop 6).length := by
    rw [List.length_append, List.length_drop, hsix]
    omega
  refine ⟨⟨hfile ▸ hlen, htake, ?_⟩, ⟨hfile, hdrop.symm, htake ▸ hsig⟩, rfl, rfl⟩
  rw [field_of_drop hdrop (by decide), field_of_drop hdrop (by decide)]
  exact hcrc

/-- A file in order, but for its signature, is repaired. -/
theorem repairSignature_complete {data file : Bytes} (hfile : Intact file)
    (hdamage : DiffersInSignature data file) :
    repairSignature data = some ⟨file, differing (data.take 6) SIGNATURE, VERIFIER⟩ := by
  obtain ⟨hsame, hdrop, hsig⟩ := hdamage
  have hlen : SIGNATURE_HEADER_LEN ≤ data.length := hsame ▸ hfile.long
  rw [hfile.signature] at hsig
  have hcrc := hfile.confirmed
  rw [← field_of_drop hdrop (by decide), ← field_of_drop hdrop (by decide)] at hcrc
  have hdata : SIGNATURE ++ data.drop 6 = file := by
    rw [hdrop, ← hfile.signature, List.take_append_drop]
  rw [repairSignature, if_neg (by omega), if_neg (mt (signatureOk_iff hlen).mp hsig),
    if_neg (not_not.mpr ((startHeaderCrcOk_iff hlen).mpr hcrc)), writeLoop_front hlen, hdata]

/-- The repair is made exactly when only the signature of a file in order is damaged.  It gives
that file back, and counts the bytes that were damaged. -/
theorem repairSignature_iff {data : Bytes} {r : SignatureRepair} :
    repairSignature data = some r ↔ Intact r.data ∧ DiffersInSignature data r.data ∧
      r.bytesWritten = differing (data.take 6) SIGNATURE ∧ r.verifiedBy = VERIFIER := by
  refine ⟨repairSignature_sound, ?_⟩
  rintro ⟨hfile, hdamage, hwritten, hverifier⟩
  obtain ⟨file, written, verifier⟩ := r
  dsimp only at hfile hdamage hwritten hverifier
  rw [repairSignature_complete hfile hdamage, hwritten, hverifier]

/-- A burst of up to 32 bits in the start header leaves nothing to license the repair. -/
theorem repairSignature_burst {file damaged e : Bytes} (hfile : Intact file)
    (hdamaged : damaged.length = 6) (hlen : e.length = 20) {s : ℕ}
    (hspan : ∀ i, (crc32IsoHdlcParams.messageBits e)[i]? = some true → s ≤ i ∧ i < s + 32)
    (hne : ∃ b ∈ e, b ≠ 0) :
    repairSignature (overwrite (overwrite file 12 (applyError (field file 12 20) e)) 0 damaged) =
      none := by
  have hlong : 32 ≤ file.length := hfile.long
  have hstart : (field file 12 20).length = 20 := length_field (by omega)
  have herr : (applyError (field file 12 20) e).length = 20 := by
    rw [applyError, List.length_zipWith, hstart, hlen, min_self]
  have hverify := CrcParams.verify_burst (p := crc32IsoHdlcParams) (by decide) (by decide)
    (by decide) (hlen.trans hstart.symm) hspan hne
  by_contra hfires
  obtain ⟨r, hr⟩ := Option.ne_none_iff_exists'.mp hfires
  obtain ⟨hintact, ⟨-, hdrop, -⟩, -⟩ := repairSignature_sound hr
  have hcrc := hintact.confirmed
  rw [← field_of_drop hdrop (by decide), ← field_of_drop hdrop (by decide),
    field_overwrite_of_apart (Nat.zero_le _) (.inr (by omega)),
    field_overwrite_of_apart (Nat.zero_le _) (.inr (by omega)),
    field_overwrite_of_apart (by omega) (.inl (by decide)),
    field_overwrite_self (by omega) (by omega), List.take_of_length_le (by omega),
    hfile.confirmed] at hcrc
  -- The two checksums would agree, against the burst bound.
  have hsame : crc32IsoHdlcParams.checksum (applyError (field file 12 20) e) =
      crc32IsoHdlcParams.checksum (field file 12 20) := by
    rw [checksum_eq, checksum_eq, BitVec.eq_of_toNat_eq hcrc]
  refine Bool.false_ne_true (hverify.symm.trans (decide_eq_true ?_))
  rw [hsame, and_mask, checksum_eq, setWidth_64_32]

/-- The start header of a file with no end header, behind the signature. -/
def emptyFile : Bytes :=
  SIGNATURE ++ [0x00, 0x04, 0x8D, 0x9B, 0xD5, 0x0F] ++ List.replicate 20 0x00

theorem emptyFile_intact : Intact emptyFile where
  long := by decide
  signature := rfl
  confirmed := by decide

theorem repairSignature_burst_emptyFile :
    repairSignature (overwrite (overwrite emptyFile 12 (applyError (field emptyFile 12 20)
      (0x81 :: List.replicate 19 0x00))) 0 (List.replicate 6 0x00)) = none := by
  have hspan : ∀ i < 160, (crc32IsoHdlcParams.messageBits
      (0x81 :: List.replicate 19 0x00))[i]? = some true → 0 ≤ i ∧ i < 0 + 32 := by
    decide +kernel
  refine repairSignature_burst emptyFile_intact rfl rfl (fun i hi ↦ hspan i ?_ hi)
    ⟨0x81, List.mem_cons_self, by decide⟩
  have hlen := (List.getElem?_eq_some_iff.mp hi).1
  rwa [CrcParams.length_messageBits] at hlen

/-! ## Inspection -/

/-- The end header, its checksum and the bytes on either side of it make up the file. -/
def HoldsEndHeader (data : Bytes) (offset size crc : ℕ) : Prop :=
  ∃ front endHeader tail, data = front ++ endHeader ++ tail ∧
    front.length = SIGNATURE_HEADER_LEN + offset ∧ endHeader.length = size ∧
    (crc32 endHeader).toNat = crc

theorem endHeaderInBounds_iff {data : Bytes} {nextOff nextSize : ℕ}
    (hdata : data.length < 2 ^ 63) : endHeaderInBounds data nextOff nextSize = true ↔
      SIGNATURE_HEADER_LEN + nextOff + nextSize ≤ data.length := by
  unfold endHeaderInBounds checkedAdd wordMax SIGNATURE_HEADER_LEN
  by_cases h₁ : 32 + nextOff ≤ 2 ^ 64 - 1
  · rw [if_pos h₁, Option.bind_some]
    by_cases h₂ : 32 + nextOff + nextSize ≤ 2 ^ 64 - 1
    · rw [if_pos h₂, Option.map_some, Option.getD_some, decide_eq_true_iff]
    · rw [if_neg h₂]
      simp only [Option.map_none, Option.getD_none, Bool.false_eq_true, false_iff]
      omega
  · rw [if_neg h₁]
    simp only [Option.bind_none, Option.map_none, Option.getD_none, Bool.false_eq_true, false_iff]
    omega

theorem endHeaderCrcOk_returns {data : Bytes} {nextOff nextSize nextCrc : ℕ}
    (hdata : data.length < 2 ^ 63)
    (hin : SIGNATURE_HEADER_LEN + nextOff + nextSize ≤ data.length) :
    Returns (endHeaderCrcOk data nextOff nextSize nextCrc)
      (· = decide ((crc32 (field data (SIGNATURE_HEADER_LEN + nextOff) nextSize)).toNat =
        nextCrc)) := by
  refine (add_returns (by omega)).bind fun start hstart ↦ ?_
  refine (add_returns (by omega)).bind fun stop hstop ↦ ?_
  subst hstart hstop
  have hrange := range_eq (d := data) (Nat.le_add_right _ _) hin
  refine (returns_of_eq hrange rfl).bind fun endHeader hend ↦ returns_pure ?_
  subst hend
  rw [checksum32_eq, Nat.add_sub_cancel_left, field]

theorem holdsEndHeader_iff {data : Bytes} {offset size crc : ℕ}
    (hin : SIGNATURE_HEADER_LEN + offset + size ≤ data.length) :
    HoldsEndHeader data offset size crc ↔
      (crc32 (field data (SIGNATURE_HEADER_LEN + offset) size)).toNat = crc := by
  constructor
  · rintro ⟨front, endHeader, tail, rfl, hfront, rfl, hcrc⟩
    rw [← hfront, List.append_assoc, ← Nat.add_zero front.length, field_append,
      field_zero_length rfl]
    exact hcrc
  · intro hcrc
    refine ⟨data.take (SIGNATURE_HEADER_LEN + offset), _,
      data.drop (SIGNATURE_HEADER_LEN + offset + size), ?_, ?_, length_field hin, hcrc⟩
    · have hdrop : data.drop (SIGNATURE_HEADER_LEN + offset + size) =
          (data.drop (SIGNATURE_HEADER_LEN + offset)).drop size := List.drop_drop.symm
      rw [field, List.append_assoc, hdrop, List.take_append_drop, List.take_append_drop]
    · rw [List.length_take]
      omega

theorem HoldsEndHeader.inside {data : Bytes} {offset size crc : ℕ}
    (h : HoldsEndHeader data offset size crc) :
    SIGNATURE_HEADER_LEN + offset + size ≤ data.length := by
  obtain ⟨front, endHeader, tail, rfl, hfront, rfl, -⟩ := h
  rw [List.length_append, List.length_append, hfront]
  exact Nat.le_add_right _ _

/-- What an inspection says of the file, each field read back into the file's own bytes. -/
structure Describes (i : Inspect) (data : Bytes) : Prop where
  signature : i.signatureOk = true ↔ SIGNATURE <+: data
  short : data.length < SIGNATURE_HEADER_LEN →
    i = ⟨signatureOk data, false, 0, 0, false, false⟩
  startHeader : i.startHeaderCrcOk = true ↔ SIGNATURE_HEADER_LEN ≤ data.length ∧
    leValue (field data 8 4) = (crc32 (field data 12 20)).toNat
  offset : SIGNATURE_HEADER_LEN ≤ data.length → i.nextHeaderOffset = leValue (field data 12 8)
  size : SIGNATURE_HEADER_LEN ≤ data.length → i.nextHeaderSize = leValue (field data 20 8)
  bounds : i.endHeaderInBounds = true ↔ SIGNATURE_HEADER_LEN ≤ data.length ∧
    SIGNATURE_HEADER_LEN + leValue (field data 12 8) + leValue (field data 20 8) ≤ data.length
  endHeader : i.endHeaderCrcOk = true ↔ SIGNATURE_HEADER_LEN ≤ data.length ∧
    0 < leValue (field data 20 8) ∧ HoldsEndHeader data (leValue (field data 12 8))
      (leValue (field data 20 8)) (leValue (field data 28 4))

theorem signatureOk_iff_prefix {data : Bytes} : signatureOk data = true ↔ SIGNATURE <+: data := by
  rw [List.prefix_iff_eq_take, show SIGNATURE.length = 6 from rfl]
  simp only [signatureOk, Bool.and_eq_true, decide_eq_true_eq]
  constructor
  · exact fun h ↦ h.2.symm
  · intro h
    have hlen : SIGNATURE.length = min 6 data.length := by rw [h, List.length_take]
    rw [show SIGNATURE.length = 6 from rfl] at hlen
    exact ⟨by omega, h.symm⟩

theorem describes_of_short {data : Bytes} (hshort : data.length < SIGNATURE_HEADER_LEN) :
    Describes ⟨signatureOk data, false, 0, 0, false, false⟩ data where
  signature := signatureOk_iff_prefix
  short _ := rfl
  startHeader := ⟨fun h ↦ absurd h Bool.false_ne_true, fun h ↦ absurd h.1 (by omega)⟩
  offset h := absurd h (by omega)
  size h := absurd h (by omega)
  bounds := ⟨fun h ↦ absurd h Bool.false_ne_true, fun h ↦ absurd h.1 (by omega)⟩
  endHeader := ⟨fun h ↦ absurd h Bool.false_ne_true, fun h ↦ absurd h.1 (by omega)⟩

theorem describes_of_long {data : Bytes} (hlong : SIGNATURE_HEADER_LEN ≤ data.length)
    (hdata : data.length < 2 ^ 63) {ok : Bool}
    (hok : ok = true ↔ 0 < leValue (field data 20 8) ∧ HoldsEndHeader data
      (leValue (field data 12 8)) (leValue (field data 20 8)) (leValue (field data 28 4))) :
    Describes ⟨signatureOk data, startHeaderCrcOk data, leValue (field data 12 8),
      leValue (field data 20 8), endHeaderInBounds data (leValue (field data 12 8))
        (leValue (field data 20 8)), ok⟩ data where
  signature := signatureOk_iff_prefix
  short h := absurd hlong (by omega)
  startHeader := (startHeaderCrcOk_iff hlong).trans (and_iff_right hlong).symm
  offset _ := rfl
  size _ := rfl
  bounds := (endHeaderInBounds_iff hdata).trans (and_iff_right hlong).symm
  endHeader := hok.trans (and_iff_right hlong).symm

/-- Inspection reaches no fault, and every field of its result is what the bytes say. -/
theorem inspect_returns {data : Bytes} (hdata : data.length < 2 ^ 63) :
    ∃ i, inspect data = .ok i ∧ Describes i data := by
  unfold inspect
  by_cases hshort : data.length < SIGNATURE_HEADER_LEN
  · rw [if_pos hshort]
    exact ⟨_, rfl, describes_of_short hshort⟩
  · have hlong : 32 ≤ data.length := not_lt.mp hshort
    rw [if_neg hshort, leAt_eq (by omega), leAt_eq (by omega), leAt_eq (by omega)]
    simp only [bind, Except.bind]
    rw [← field, ← field, ← field]
    by_cases hcheck : endHeaderInBounds data (leValue (field data 12 8))
        (leValue (field data 20 8)) = true ∧ 0 < leValue (field data 20 8)
    · have hin := (endHeaderInBounds_iff hdata).mp hcheck.1
      obtain ⟨ok, hok, rfl⟩ :=
        @endHeaderCrcOk_returns data _ _ (leValue (field data 28 4)) hdata hin
      rw [if_pos hcheck, hok]
      refine ⟨_, rfl, describes_of_long hlong hdata ?_⟩
      rw [decide_eq_true_iff, ← holdsEndHeader_iff hin]
      exact (and_iff_right hcheck.2).symm
    · rw [if_neg hcheck]
      refine ⟨_, rfl, describes_of_long hlong hdata ?_⟩
      refine ⟨fun h ↦ absurd h Bool.false_ne_true, fun h ↦ absurd ?_ hcheck⟩
      exact ⟨(endHeaderInBounds_iff hdata).mpr h.2.inside, h.1⟩

/-- One packed byte and, behind it, an end header of two bytes. -/
def packedLetter : Bytes :=
  SIGNATURE ++ [0x00, 0x04] ++ [0x4E, 0x93, 0x53, 0xDD] ++
    [0x01, 0x00, 0x00, 0x00, 0x00, 0x00, 0x00, 0x00] ++
    [0x02, 0x00, 0x00, 0x00, 0x00, 0x00, 0x00, 0x00] ++ [0xBE, 0x23, 0xC2, 0x58] ++
    [0x41, 0x01, 0x00]

theorem inspect_returns_packedLetter :
    ∃ i, inspect packedLetter = .ok i ∧ Describes i packedLetter :=
  inspect_returns (by decide)

example : inspect packedLetter = .ok ⟨true, true, 1, 2, true, true⟩ := by decide +kernel

end Sevenz

/-! ## The strategy -/

namespace SevenZSignatureRestore

def name : String := "sevenz-signature-restore"

def handles (c : Corruption) : Bool := c.ruleId = "7Z_MAGIC_001"

def canApply (result : AnalysisResult) : Bool :=
  result.archiveFormat = some .sevenZ && result.corruptions.any (·.ruleId = "7Z_MAGIC_001")

def apply (source : Bytes) : Except RecoveryError (Bytes × RecoveryReport) :=
  let report := { RecoveryReport.empty "" with strategiesApplied := [name] }
  match Sevenz.repairSignature source with
  | some rep => .ok (rep.data, { report with
      bytesRecovered := rep.data.length
      success := true
      warnings := [s!"restored 7z signature ({rep.bytesWritten} byte(s) at offset 0); " ++
        s!"verified by {rep.verifiedBy}"] })
  | none => .ok ([], { report with
      warnings := ["7z Start-Header CRC does not validate — abstaining (structure not " ++
        "provably intact)"] })

end SevenZSignatureRestore

/-- Restore the 7z signature behind the checksum of the start header. -/
def sevenZSignatureRestore : RecoveryStrategy where
  name := SevenZSignatureRestore.name
  technique := "SevenZSignatureRestore"
  risk := .safe
  priority := 85
  handles := SevenZSignatureRestore.handles
  canApply := SevenZSignatureRestore.canApply
  predictedOutcome := fun _ ↦
    "restore the 7z signature 37 7A BC AF 27 1C (gated by the Start-Header CRC)"
  apply := SevenZSignatureRestore.apply

theorem sevenZSignatureRestore_reportsItself : sevenZSignatureRestore.ReportsItself := by
  intro source staged report hrun
  simp only [sevenZSignatureRestore, SevenZSignatureRestore.apply] at hrun
  split at hrun
  · obtain ⟨-, rfl⟩ := Prod.mk.inj (Except.ok.inj hrun)
    exact ⟨rfl, rfl⟩
  · obtain ⟨-, rfl⟩ := Prod.mk.inj (Except.ok.inj hrun)
    exact ⟨rfl, rfl⟩

end VeraqisRecover.Recovery
