import VeraqisRecover.Support.Radix
import VeraqisRecover.Support.Reader

/-!
# Android backup headers

`parse_header` of `android_backup_container.rs`: four text lines, five more for
an encrypted container, and the payload directly behind the last newline.
-/

namespace VeraqisRecover.Android

open ByteString LossyUtf8

def magic : Text := "ANDROID BACKUP".toList

def encryptionNone : Text := "none".toList

def encryptionAes256 : Text := "AES-256".toList

/-- 512 bits. -/
def userSaltBytes : ℕ := 64

/-- The largest `u32`. -/
def u32Max : ℕ := 2 ^ 32 - 1

/-- The further lines of an encrypted header. -/
structure EncryptedBackupFields where
  userSalt : Bytes
  checksumSalt : Bytes
  rounds : ℕ
  userIv : Bytes
  masterKeyBlob : Bytes
  payloadOffset : ℕ
  deriving DecidableEq, Repr

structure AndroidBackupHeader where
  version : ℕ
  compressed : Bool
  encrypted : Bool
  payloadOffset : ℕ
  encryptedFields : Option EncryptedBackupFields
  deriving DecidableEq, Repr

inductive AndroidBackupRefusal
  | badMagic | truncatedHeader | unsupportedVersion | malformedField | malformedEncryptedField
  deriving DecidableEq, Repr

/-- Two hexadecimal digits a byte. -/
def hexPairs : Bytes → Option Bytes
  | [] => some []
  | [_] => none
  | a :: b :: rest => do
      let hi ← Radix.toDigit 16 a.toNat
      let lo ← Radix.toDigit 16 b.toNat
      let out ← hexPairs rest
      return UInt8.ofNat (hi <<< 4 ||| lo) :: out

def hexDecode (s : Text) : Option Bytes :=
  if (asBytes s).length % 2 ≠ 0 then none else hexPairs (asBytes s)

/-- One line and the offset behind its newline. -/
def nextLine : Reader Text := fun data offset ↦
  let line := (data.drop offset).takeWhile (· ≠ 0x0A)
  let stop := offset + line.length
  if data.length ≤ stop then none
  else if isUtf8 line then some (fromUtf8Lossy line, stop + 1)
  else none

/-- `line.parse::<u32>()` -/
def parseU32 (line : Text) : Option ℕ := Radix.fromStrRadix 10 u32Max (asBytes line)

/-- The third line. -/
def parseFlag (line : Text) : Option Bool :=
  if line = ['1'] then some true else if line = ['0'] then some false else none

/-- The fourth line: whether the container is encrypted. -/
def parseEncryption (line : Text) : Option Bool :=
  if line = encryptionNone then some false
  else if line = encryptionAes256 then some true
  else none

section Parse

open Reader AndroidBackupRefusal

/-- The five lines of an encrypted header. -/
def parseEncrypted (version : ℕ) (compressed : Bool) (data : Bytes) (offset : ℕ) :
    Except AndroidBackupRefusal AndroidBackupHeader := do
  let (userSaltLine, offset) ← okOr truncatedHeader (nextLine data offset)
  let userSalt ← okOr malformedEncryptedField (hexDecode userSaltLine)
  if userSalt.length ≠ userSaltBytes then .error malformedEncryptedField
  else do
    let (checksumSaltLine, offset) ← okOr truncatedHeader (nextLine data offset)
    let checksumSalt ← okOr malformedEncryptedField (hexDecode checksumSaltLine)
    let (roundsLine, offset) ← okOr truncatedHeader (nextLine data offset)
    let rounds ← okOr malformedEncryptedField (parseU32 roundsLine)
    let (userIvLine, offset) ← okOr truncatedHeader (nextLine data offset)
    let userIv ← okOr malformedEncryptedField (hexDecode userIvLine)
    let (masterKeyBlobLine, offset) ← okOr truncatedHeader (nextLine data offset)
    let masterKeyBlob ← okOr malformedEncryptedField (hexDecode masterKeyBlobLine)
    .ok ⟨version, compressed, true, offset,
      some ⟨userSalt, checksumSalt, rounds, userIv, masterKeyBlob, offset⟩⟩

/-- All lines from this offset on. -/
def parseHeaderFrom (data : Bytes) (offset : ℕ) :
    Except AndroidBackupRefusal AndroidBackupHeader := do
  let (magicLine, offset) ← okOr truncatedHeader (nextLine data offset)
  if magicLine ≠ magic then .error badMagic
  else do
    let (versionLine, offset) ← okOr truncatedHeader (nextLine data offset)
    let version ← okOr malformedField (parseU32 versionLine)
    -- `SUPPORTED_VERSIONS`
    if ¬(1 ≤ version ∧ version ≤ 5) then .error unsupportedVersion
    else do
      let (compressedLine, offset) ← okOr truncatedHeader (nextLine data offset)
      let compressed ← okOr malformedField (parseFlag compressedLine)
      let (encryptionLine, offset) ← okOr truncatedHeader (nextLine data offset)
      let encrypted ← okOr malformedField (parseEncryption encryptionLine)
      if ¬encrypted then .ok ⟨version, compressed, encrypted, offset, none⟩
      else parseEncrypted version compressed data offset

def parseHeader (data : Bytes) : Except AndroidBackupRefusal AndroidBackupHeader :=
  parseHeaderFrom data 0

end Parse

/-! ## One line -/

section Line

variable {data : Bytes} {p q : ℕ} {line : Bytes} {text : Text}

theorem takeWhile_newline (hline : (0x0A : UInt8) ∉ line) (rest : Bytes) :
    (line ++ 0x0A :: rest).takeWhile (· ≠ 0x0A) = line := by
  rw [List.takeWhile_append_of_pos fun b hb ↦ decide_eq_true (ne_of_mem_of_not_mem hb hline),
    List.takeWhile_cons_of_neg (by simp), List.append_nil]

theorem notMem_takeWhile (rest : Bytes) : (0x0A : UInt8) ∉ rest.takeWhile (· ≠ 0x0A) := by
  intro h
  have hne := List.mem_takeWhile_imp h
  simp at hne

theorem eq_takeWhile_or (rest : Bytes) : rest = rest.takeWhile (· ≠ 0x0A) ∨
    ∃ tail, rest = rest.takeWhile (· ≠ 0x0A) ++ 0x0A :: tail := by
  induction rest with
  | nil => exact Or.inl rfl
  | cons b rest ih =>
      by_cases hb : b = 0x0A
      · subst hb
        exact Or.inr ⟨rest, rfl⟩
      · have hcons : (b :: rest).takeWhile (· ≠ 0x0A) = b :: rest.takeWhile (· ≠ 0x0A) :=
          List.takeWhile_cons_of_pos (by simpa using hb)
        rw [hcons]
        rcases ih with h | ⟨tail, h⟩
        · exact Or.inl (congrArg (b :: ·) h)
        · exact Or.inr ⟨tail, congrArg (b :: ·) h⟩

/-- A line is read where its bytes and a newline stand. -/
theorem nextLine_eq_some : nextLine data p = some (text, q) ↔
    ∃ line, (0x0A : UInt8) ∉ line ∧ At data p (line ++ [0x0A]) ∧ isUtf8 line ∧
      text = fromUtf8Lossy line ∧ q = p + line.length + 1 := by
  rw [nextLine]
  constructor
  · intro h
    have hnone := notMem_takeWhile (data.drop p)
    split at h
    · cases h
    · split at h
      · obtain ⟨rfl, rfl⟩ := Prod.mk.inj (Option.some.inj h)
        refine ⟨_, hnone, ?_, ‹_›, rfl, rfl⟩
        rcases eq_takeWhile_or (data.drop p) with hwhole | ⟨tail, htail⟩
        · have hlen := congrArg List.length hwhole
          rw [List.length_drop] at hlen
          omega
        · refine ⟨tail, ?_⟩
          rw [List.append_assoc, List.singleton_append, ← htail]
      · cases h
  · rintro ⟨line, hline, hat, hutf8, rfl, rfl⟩
    have hlen := hat.add_length_le (List.append_ne_nil_of_right_ne_nil line (List.cons_ne_nil _ _))
    rw [List.length_append, List.length_singleton] at hlen
    obtain ⟨tail, htail⟩ := hat
    rw [List.append_assoc, List.singleton_append] at htail
    rw [← htail, takeWhile_newline hline, if_neg (by omega), if_pos hutf8]

theorem framed_nextLine : Reader.Framed nextLine where
  le h := by
    obtain ⟨line, -, -, -, -, rfl⟩ := nextLine_eq_some.mp h
    omega
  le_length h _ := by
    obtain ⟨line, -, hat, -, -, rfl⟩ := nextLine_eq_some.mp h
    have hle := hat.add_length_le (List.append_ne_nil_of_right_ne_nil line (List.cons_ne_nil _ _))
    rwa [List.length_append] at hle
  congr h hsame := by
    obtain ⟨line, hline, hat, hutf8, htext, rfl⟩ := nextLine_eq_some.mp h
    refine nextLine_eq_some.mpr ⟨line, hline, ?_, hutf8, htext, rfl⟩
    refine List.prefix_iff_getElem?.mpr fun i hi ↦ ?_
    have hlen : (line ++ [(0x0A : UInt8)]).length = line.length + 1 := List.length_append
    rw [List.getElem?_drop, hsame (_ + i) (Nat.le_add_right _ i) (by omega),
      hat.getElem? hi, List.getElem?_eq_getElem hi]

end Line

/-! ## Nothing behind the payload offset matters -/

section Framed

open Reader

theorem reports_parseEncrypted (version : ℕ) (compressed : Bool) :
    Reports AndroidBackupHeader.payloadOffset (parseEncrypted version compressed) := by
  refine Reports.bind framed_nextLine fun userSaltLine ↦ ?_
  refine Reports.field (fun userSalt ↦ ?_) _ _
  refine Reports.ite (reports_error _ _) ?_ _
  refine Reports.bind framed_nextLine fun checksumSaltLine ↦ ?_
  refine Reports.field (fun checksumSalt ↦ ?_) _ _
  refine Reports.bind framed_nextLine fun roundsLine ↦ ?_
  refine Reports.field (fun rounds ↦ ?_) _ _
  refine Reports.bind framed_nextLine fun userIvLine ↦ ?_
  refine Reports.field (fun userIv ↦ ?_) _ _
  refine Reports.bind framed_nextLine fun masterKeyBlobLine ↦ ?_
  refine Reports.field (fun masterKeyBlob ↦ ?_) _ _
  exact reports_ok fun _ ↦ rfl

theorem reports_parseHeaderFrom :
    Reports AndroidBackupHeader.payloadOffset parseHeaderFrom := by
  refine Reports.bind framed_nextLine fun magicLine ↦ ?_
  refine Reports.ite (reports_error _ _) ?_ _
  refine Reports.bind framed_nextLine fun versionLine ↦ ?_
  refine Reports.field (fun version ↦ ?_) _ _
  refine Reports.ite (reports_error _ _) ?_ _
  refine Reports.bind framed_nextLine fun compressedLine ↦ ?_
  refine Reports.field (fun compressed ↦ ?_) _ _
  refine Reports.bind framed_nextLine fun encryptionLine ↦ ?_
  refine Reports.field (fun encrypted ↦ ?_) _ _
  exact Reports.ite (reports_ok fun _ ↦ rfl) (reports_parseEncrypted version compressed) _

/-- Whatever stands from the payload offset on, the header is the same. -/
theorem parseHeader_take_append {data : Bytes} {hd : AndroidBackupHeader}
    (h : parseHeader data = .ok hd) (other : Bytes) :
    parseHeader (data.take hd.payloadOffset ++ other) = .ok hd := by
  have hrun : (parseHeaderFrom data 0).toOption.map (fun hd ↦ (hd, hd.payloadOffset)) =
      some (hd, hd.payloadOffset) := by
    rw [show parseHeaderFrom data 0 = .ok hd from h]
    rfl
  have hsame : ∀ i, 0 ≤ i → i < hd.payloadOffset →
      (data.take hd.payloadOffset ++ other)[i]? = data[i]? := by
    intro i _ hi
    have hlen := reports_parseHeaderFrom.le_length hrun ((Nat.zero_le i).trans_lt hi)
    rw [List.getElem?_append_left (by rw [List.length_take]; omega),
      List.getElem?_take_of_lt hi]
  have hrun' := reports_parseHeaderFrom.congr hrun hsame
  rw [parseHeader]
  cases hother : parseHeaderFrom (data.take hd.payloadOffset ++ other) 0 with
  | error e =>
      rw [hother] at hrun'
      cases hrun'
  | ok hd' =>
      rw [hother] at hrun'
      rw [(Prod.mk.inj (Option.some.inj hrun')).1]

end Framed

/-! ## The header of given fields -/

/-- What the further lines of an encrypted header say. -/
structure Encryption where
  userSalt : Bytes
  checksumSalt : Bytes
  rounds : ℕ
  userIv : Bytes
  masterKeyBlob : Bytes
  length_userSalt : userSalt.length = userSaltBytes
  rounds_le : rounds ≤ u32Max

structure BackupFields where
  version : ℕ
  compressed : Bool
  encryption : Option Encryption
  supported : 1 ≤ version ∧ version ≤ 5

/-- The digits of the hexadecimal lines. -/
def digitsOf (upper : Bool) : Text := if upper then Radix.upperDigits else Radix.lowerDigits

def Encryption.lines (e : Encryption) (upper : Bool) : List Text :=
  [Radix.hexWith (digitsOf upper) e.userSalt, Radix.hexWith (digitsOf upper) e.checksumSalt,
    Nat.toDigits 10 e.rounds, Radix.hexWith (digitsOf upper) e.userIv,
    Radix.hexWith (digitsOf upper) e.masterKeyBlob]

def Encryption.fields (e : Encryption) (payloadOffset : ℕ) : EncryptedBackupFields :=
  ⟨e.userSalt, e.checksumSalt, e.rounds, e.userIv, e.masterKeyBlob, payloadOffset⟩

namespace BackupFields

def encryptionLine (f : BackupFields) : Text :=
  if f.encryption.isSome then encryptionAes256 else encryptionNone

def lines (f : BackupFields) (upper : Bool) : List Text :=
  [magic, Nat.toDigits 10 f.version, [if f.compressed then '1' else '0'], f.encryptionLine] ++
    f.encryption.elim [] (·.lines upper)

def header (f : BackupFields) (payloadOffset : ℕ) : AndroidBackupHeader :=
  ⟨f.version, f.compressed, f.encryption.isSome, payloadOffset,
    f.encryption.map (·.fields payloadOffset)⟩

end BackupFields

/-- Each line with its newline. -/
def headerBytes (lines : List Text) : Bytes := lines.flatMap fun line ↦ asBytes line ++ [0x0A]

section RoundTrip

theorem digitTable_digitsOf (upper : Bool) : Radix.DigitTable (digitsOf upper) := by
  cases upper with
  | false => exact Radix.digitTable_lower
  | true => exact Radix.digitTable_upper

theorem hexPairs_pairOf {digits : Text} (h : Radix.DigitTable digits) (bytes : Bytes) :
    hexPairs (bytes.flatMap (Radix.pairOf digits)) = some bytes := by
  induction bytes with
  | nil => rfl
  | cons b bytes ih =>
      have hhi := Radix.toDigit_digitByte h (Radix.shiftRight_lt b)
      have hlo := Radix.toDigit_digitByte h (Radix.and_lt b)
      have hbyte : b.toNat >>> 4 <<< 4 ||| (b.toNat &&& 0x0F) = b.toNat := by
        rw [← Nat.shiftLeft_add_eq_or_of_lt (Radix.and_lt b), Nat.shiftLeft_eq]
        exact Radix.halves_eq b
      rw [List.flatMap_cons, Radix.pairOf, List.cons_append, List.singleton_append, hexPairs, hhi,
        hlo, ih]
      change some (UInt8.ofNat (b.toNat >>> 4 <<< 4 ||| (b.toNat &&& 0x0F)) :: bytes) = _
      rw [hbyte, UInt8.ofNat_toNat]

theorem hexDecode_hexWith {digits : Text} (h : Radix.DigitTable digits) (bytes : Bytes) :
    hexDecode (Radix.hexWith digits bytes) = some bytes := by
  have heven : (bytes.flatMap (Radix.pairOf digits)).length % 2 = 0 := by
    rw [List.length_flatMap, show (fun b ↦ (Radix.pairOf digits b).length) = fun _ ↦ 2 from rfl,
      List.map_const', List.sum_replicate, smul_eq_mul, Nat.mul_mod_left]
  rw [hexDecode, Radix.asBytes_hexWith h, if_neg (not_not.mpr heven)]
  exact hexPairs_pairOf h bytes

theorem newline_notMem_hexWith {digits : Text} (h : Radix.DigitTable digits) (bytes : Bytes) :
    '\n' ∉ Radix.hexWith digits bytes := by
  have hdigit : ∀ v < 16, '\n' ≠ digits.getD v '0' := by
    intro v hv hnewline
    have hcode := (Radix.toDigit_ascii (h v hv)).1
    rw [← hnewline] at hcode
    exact absurd hcode (by decide)
  intro hmem
  obtain ⟨b, -, hb⟩ := List.mem_flatMap.mp hmem
  rcases List.mem_cons.mp hb with heq | hb
  · exact hdigit _ (Radix.shiftRight_lt b) heq
  · exact hdigit _ (Radix.and_lt b) (List.mem_singleton.mp hb)

theorem newline_notMem_toDigits (n : ℕ) : '\n' ∉ Nat.toDigits 10 n := by
  intro h
  have hdigit := Nat.isDigit_of_mem_toDigits (by decide) (by decide) h
  cases hdigit

theorem newline_notMem_encryption (e : Encryption) (upper : Bool) :
    ∀ line ∈ e.lines upper, '\n' ∉ line := by
  have hhex := fun bytes ↦ newline_notMem_hexWith (digitTable_digitsOf upper) bytes
  simp only [Encryption.lines, List.forall_mem_cons]
  exact ⟨hhex _, hhex _, newline_notMem_toDigits _, hhex _, hhex _, List.forall_mem_nil _⟩

theorem newline_notMem_lines (f : BackupFields) (upper : Bool) :
    ∀ line ∈ f.lines upper, '\n' ∉ line := by
  have hflag : ∀ compressed : Bool, '\n' ∉ [if compressed then '1' else '0'] := by decide
  have hencryption : '\n' ∉ f.encryptionLine := by
    rw [BackupFields.encryptionLine]
    split <;> decide
  simp only [BackupFields.lines, List.cons_append, List.nil_append, List.forall_mem_cons]
  refine ⟨by decide, newline_notMem_toDigits _, hflag _, hencryption, ?_⟩
  cases f.encryption with
  | none => exact List.forall_mem_nil _
  | some e => exact newline_notMem_encryption e upper

/-- The lines are read one after the other from the one offset to the other. -/
def LinesAt (data : Bytes) : ℕ → List Text → ℕ → Prop
  | p, [], q => p = q
  | p, line :: lines, q => ∃ p', nextLine data p = some (line, p') ∧ LinesAt data p' lines q

theorem nextLine_of_at {data : Bytes} {p : ℕ} {line : Text} (hline : '\n' ∉ line)
    (h : At data p (asBytes line ++ [0x0A])) :
    nextLine data p = some (line, p + (asBytes line).length + 1) := by
  have hnone : (0x0A : UInt8) ∉ asBytes line :=
    fun hmem ↦ hline (mem_of_mem_asBytes (by decide) hmem)
  exact nextLine_eq_some.mpr
    ⟨_, hnone, h, isUtf8_asBytes line, (fromUtf8Lossy_asBytes line).symm, rfl⟩

theorem linesAt_headerBytes {data : Bytes} {p : ℕ} {lines : List Text}
    (hlines : ∀ line ∈ lines, '\n' ∉ line) (h : At data p (headerBytes lines)) :
    LinesAt data p lines (p + (headerBytes lines).length) := by
  induction lines generalizing p with
  | nil => rfl
  | cons line lines ih =>
      obtain ⟨hline, hrest⟩ := List.forall_mem_cons.mp hlines
      rw [headerBytes, List.flatMap_cons, ← headerBytes] at h ⊢
      obtain ⟨hfirst, hnext⟩ := At.append_iff.mp h
      have hlen : (asBytes line ++ [(0x0A : UInt8)]).length = (asBytes line).length + 1 :=
        List.length_append
      rw [hlen, ← Nat.add_assoc] at hnext
      refine ⟨_, nextLine_of_at hline hfirst, ?_⟩
      rw [List.length_append, hlen, ← Nat.add_assoc, ← Nat.add_assoc]
      exact ih hrest hnext

theorem parseU32_toDigits {n : ℕ} (h : n ≤ u32Max) : parseU32 (Nat.toDigits 10 n) = some n :=
  Radix.fromStrRadix_decimal h

theorem parseFlag_line (compressed : Bool) :
    parseFlag [if compressed then '1' else '0'] = some compressed := by
  cases compressed with
  | false => rfl
  | true => rfl

theorem parseEncryption_line (f : BackupFields) :
    parseEncryption f.encryptionLine = some f.encryption.isSome := by
  rw [BackupFields.encryptionLine]
  cases f.encryption with
  | none => rfl
  | some e => rfl

theorem parseEncrypted_lines {data : Bytes} {p q : ℕ} (version : ℕ) (compressed : Bool)
    (e : Encryption) (upper : Bool) (h : LinesAt data p (e.lines upper) q) :
    parseEncrypted version compressed data p =
      .ok ⟨version, compressed, true, q, some (e.fields q)⟩ := by
  obtain ⟨_, h₁, _, h₂, _, h₃, _, h₄, _, h₅, rfl⟩ := h
  have hhex := fun bytes ↦ hexDecode_hexWith (digitTable_digitsOf upper) bytes
  simp only [parseEncrypted, h₁, h₂, h₃, h₄, h₅, hhex, parseU32_toDigits e.rounds_le,
    Reader.okOr_some, bind, Except.bind, e.length_userSalt, ne_eq, not_true_eq_false, if_false]
  rfl

/-- The header's own lines are read back, whatever the payload is. -/
theorem parseHeader_lines (f : BackupFields) (upper : Bool) (payload : Bytes) :
    parseHeader (headerBytes (f.lines upper) ++ payload) =
      .ok (f.header (headerBytes (f.lines upper)).length) := by
  have hat : At (headerBytes (f.lines upper) ++ payload) 0 (headerBytes (f.lines upper)) :=
    List.prefix_append _ _
  have hlines := linesAt_headerBytes (newline_notMem_lines f upper) hat
  rw [Nat.zero_add] at hlines
  have hversion := parseU32_toDigits (f.supported.2.trans (by decide : 5 ≤ u32Max))
  obtain ⟨p, h₁, _, h₂, _, h₃, q, h₄, hrest⟩ := hlines
  simp only [parseHeader, parseHeaderFrom, h₁, h₂, h₃, h₄, Reader.okOr_some, bind, Except.bind,
    ne_eq, not_true_eq_false, if_false, hversion, f.supported, and_self, parseFlag_line,
    parseEncryption_line]
  cases hencryption : f.encryption with
  | none =>
      rw [hencryption] at hrest
      rw [BackupFields.header, hencryption, ← show q = _ from hrest]
      rfl
  | some e =>
      rw [hencryption] at hrest
      rw [BackupFields.header, hencryption]
      exact parseEncrypted_lines f.version f.compressed e upper hrest

end RoundTrip

/-- The parser returns the fields of a header with the offset where it ends, and never looks behind
that offset. -/
theorem parseHeader_exact (f : BackupFields) (upper : Bool) (payload : Bytes) {data : Bytes}
    {hd : AndroidBackupHeader} (h : parseHeader data = .ok hd) (other : Bytes) :
    parseHeader (headerBytes (f.lines upper) ++ payload) =
        .ok (f.header (headerBytes (f.lines upper)).length) ∧
      parseHeader (data.take hd.payloadOffset ++ other) = .ok hd :=
  ⟨parseHeader_lines f upper payload, parseHeader_take_append h other⟩

/-- A container of version 3, encrypted.  Its salts and its key blob have letters among their
digits. -/
def encryptedFields : BackupFields where
  version := 3
  compressed := true
  encryption := some
    { userSalt := List.replicate 64 0xA5
      checksumSalt := List.replicate 64 0x5A
      rounds := 10000
      userIv := List.replicate 16 0x0C
      masterKeyBlob := List.replicate 96 0xFE
      length_userSalt := List.length_replicate
      rounds_le := by decide }
  supported := by decide

/-- Payloads that begin with a newline, with a letter and with a digit. -/
theorem encryptedBackup_exact :
    parseHeader (headerBytes (encryptedFields.lines true) ++ [0x0A, 0x31]) =
        .ok (encryptedFields.header (headerBytes (encryptedFields.lines true)).length) ∧
      parseHeader ((headerBytes (encryptedFields.lines true) ++ [0x78]).take
        (encryptedFields.header (headerBytes (encryptedFields.lines true)).length).payloadOffset ++
          [0x39]) =
        .ok (encryptedFields.header (headerBytes (encryptedFields.lines true)).length) :=
  parseHeader_exact encryptedFields true [0x0A, 0x31]
    (parseHeader_lines encryptedFields true [0x78]) [0x39]

/-- A plain container of version 1, compressed. -/
def plainFields : BackupFields := ⟨1, true, none, by decide⟩

example : parseHeader (headerBytes (plainFields.lines false) ++ [0x78]) =
    .ok (plainFields.header 24) := by decide +kernel

end VeraqisRecover.Android
