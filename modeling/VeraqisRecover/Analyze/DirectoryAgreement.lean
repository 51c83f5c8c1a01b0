import VeraqisRecover.Analyze.ZipReader
import VeraqisRecover.Zip.Entry

/-!
# Two walks over a central directory

The analyzer takes a record when its name is inside the slice, the recovery
walk when all of it is.
-/

namespace VeraqisRecover.Analyze

open ByteString Checked LossyUtf8 Zip

/-! ## The fields of a record -/

def u16At (d : Bytes) (o : ℕ) : ℕ := (u16le d o).getD 0

def u32At (d : Bytes) (o : ℕ) : ℕ := (u32le d o).getD 0

variable {cd : Bytes} {o : ℕ}

theorem u16le_eq_u16At (h : o + 2 ≤ cd.length) : u16le cd o = some (u16At cd o) := by
  obtain ⟨v, hv⟩ := u16le_isSome h
  rw [u16At, hv, Option.getD_some]

theorem u32le_eq_u32At (h : o + 4 ≤ cd.length) : u32le cd o = some (u32At cd o) := by
  obtain ⟨v, hv⟩ := u32le_isSome h
  rw [u32At, hv, Option.getD_some]

theorem u16At_lt (cd : Bytes) (o : ℕ) : u16At cd o < 2 ^ 16 := by
  cases hread : u16le cd o with
  | none => simp [u16At, hread]
  | some v =>
      rw [u16At, hread]
      exact u16le_lt hread

/-- A record signature with room for the fixed part. -/
def FixedPart (cd : Bytes) (o : ℕ) : Prop := o + 46 ≤ cd.length ∧ u32le cd o = some Zip.cdfhSig

instance (cd : Bytes) (o : ℕ) : Decidable (FixedPart cd o) := inferInstanceAs (Decidable (_ ∧ _))

def nameEnd (cd : Bytes) (o : ℕ) : ℕ := o + 46 + u16At cd (o + 28)

/-- Behind the name, the extra field and the comment. -/
def recordEnd (cd : Bytes) (o : ℕ) : ℕ :=
  nameEnd cd o + u16At cd (o + 30) + u16At cd (o + 32)

/-- What the analyzer makes of a record. -/
def memberAt (cd : Bytes) (o : ℕ) : ArchiveEntry where
  path := fromUtf8Lossy ((cd.drop (o + 46)).take (u16At cd (o + 28)))
  size := u32At cd (o + 24)
  compressedSize := u32At cd (o + 20)
  offset := u32At cd (o + 42)
  encrypted := u16At cd (o + 8) &&& 0x0001 ≠ 0 || u16At cd (o + 8) &&& 0x0040 ≠ 0
  storedCrc32 := some (u32At cd (o + 16))
  isLink := (u32At cd (o + 38) >>> 16) &&& 0xFFFF &&& 0xF000 = 0xA000
  linkTarget := none

/-! ## One record of the analyzer's walk -/

theorem centralHeaderAt_of_no_signature (hcd : cd.length < 2 ^ 63) (h : o + 46 ≤ cd.length)
    (hsig : u32le cd o ≠ some Zip.cdfhSig) : ZipReader.centralHeaderAt cd o = .ok none := by
  have hread : u32le cd (o + 0) = some (u32At cd o) := u32le_eq_u32At (by omega)
  have hne : u32At cd o ≠ ZipReader.cdfhSig := fun heq ↦ hsig (hread.trans (congrArg some heq))
  rw [ZipReader.centralHeaderAt, u32Field_eq hcd hread]
  exact if_pos hne

theorem centralHeaderAt_eq (hcd : cd.length < 2 ^ 63) (h : FixedPart cd o) :
    ZipReader.centralHeaderAt cd o = .ok (if cd.length < nameEnd cd o then none
      else some (memberAt cd o, u16At cd (o + 10), recordEnd cd o)) := by
  obtain ⟨hroom, hsig⟩ := h
  have h16 : ∀ k, k + 2 ≤ 46 → u16Field cd o k = .ok (u16At cd (o + k)) := fun k hk ↦
    u16Field_eq hcd (u16le_eq_u16At (by omega))
  have h32 : ∀ k, k + 4 ≤ 46 → u32Field cd o k = .ok (u32At cd (o + k)) := fun k hk ↦
    u32Field_eq hcd (u32le_eq_u32At (by omega))
  have hname := u16At_lt cd (o + 28)
  have hextra := u16At_lt cd (o + 30)
  have hcomment := u16At_lt cd (o + 32)
  have hat : u32At cd o = ZipReader.cdfhSig := by
    rw [u32At, hsig]
    rfl
  rw [ZipReader.centralHeaderAt]
  simp only [h32 0 (by omega), h16 8 (by omega), h16 10 (by omega), h32 16 (by omega),
    h32 20 (by omega), h32 24 (by omega), h16 28 (by omega), h16 30 (by omega), h16 32 (by omega),
    h32 38 (by omega), h32 42 (by omega), Nat.add_zero, hat, ne_eq, not_true_eq_false, if_false,
    bind, Except.bind, add_eq (show o + 46 < 2 ^ 64 by omega),
    add_eq (show o + 46 + u16At cd (o + 28) < 2 ^ 64 by omega)]
  unfold recordEnd nameEnd
  by_cases hend : cd.length < o + 46 + u16At cd (o + 28)
  · rw [if_pos hend, if_pos hend]
    rfl
  · rw [if_neg hend, if_neg hend]
    simp only [range_eq (show o + 46 ≤ o + 46 + u16At cd (o + 28) by omega) (Nat.not_lt.mp hend),
      add_eq (show o + 46 + u16At cd (o + 28) + u16At cd (o + 30) < 2 ^ 64 by omega),
      add_eq (show o + 46 + u16At cd (o + 28) + u16At cd (o + 30) + u16At cd (o + 32) < 2 ^ 64 by
        omega), Nat.add_sub_cancel_left]
    rfl

/-! ## One record of the recovery walk -/

/-- A member of the analyzer, with its method, and an entry of the recovery walk say the same. -/
structure SameRecord (m : ArchiveEntry × ℕ) (e : ZipEntry) : Prop where
  name : m.1.path = e.name
  method : m.2 = e.method
  crc : m.1.storedCrc32 = some e.crc32
  compSize : m.1.compressedSize = e.compSize
  uncompSize : m.1.size = e.uncompSize
  offset : m.1.offset = e.localHeaderOffset
  encrypted : m.1.encrypted = e.isEncrypted

theorem recordEnd_lt (hcd : cd.length < 2 ^ 63) (h : FixedPart cd o) :
    recordEnd cd o ≤ wordMax := by
  have hname := u16At_lt cd (o + 28)
  have hextra := u16At_lt cd (o + 30)
  have hcomment := u16At_lt cd (o + 32)
  have hroom := h.1
  unfold recordEnd nameEnd wordMax
  omega

/-- Under the default policy a record is taken just when all of it is in the slice. -/
theorem centralRecordAt_default (hcd : cd.length < 2 ^ 63) (h : FixedPart cd o) :
    if cd.length < recordEnd cd o then centralRecordAt cd o .default = none
    else ∃ r, centralRecordAt cd o .default = some r ∧ r.recordEnd = recordEnd cd o ∧
      o + 46 + r.metadata = recordEnd cd o ∧
      SameRecord (memberAt cd o, u16At cd (o + 10)) r.entry := by
  have hname := u16At_lt cd (o + 28)
  have hextra := u16At_lt cd (o + 30)
  have hcomment := u16At_lt cd (o + 32)
  have hword := recordEnd_lt hcd h
  unfold recordEnd nameEnd at hword ⊢
  have hfields : ¬(ZipRecoveryPolicy.default.maxNameBytes < u16At cd (o + 28) ∨
      ZipRecoveryPolicy.default.maxExtraBytes < u16At cd (o + 30) ∨
      ZipRecoveryPolicy.default.maxCommentBytes < u16At cd (o + 32)) := by
    change ¬(65535 < _ ∨ 65535 < _ ∨ 65535 < _)
    omega
  unfold u16At at hfields hword ⊢
  have hadd₁ := checkedAdd_of_le
    (show o + 46 + (u16le cd (o + 28)).getD 0 ≤ wordMax by omega)
  have hadd₂ := checkedAdd_of_le
    (show o + 46 + (u16le cd (o + 28)).getD 0 + (u16le cd (o + 30)).getD 0 ≤ wordMax by omega)
  have hadd₃ := checkedAdd_of_le hword
  rw [centralRecordAt, if_neg hfields]
  simp only [hadd₁, hadd₂, hadd₃, Option.bind_eq_bind, Option.bind_some]
  split
  · rfl
  · rename_i hwhole
    have hslice : slice? cd (o + 46) (o + 46 + (u16le cd (o + 28)).getD 0) =
        some ((cd.drop (o + 46)).take ((u16le cd (o + 28)).getD 0)) := by
      rw [slice?, if_pos (by omega), Nat.add_sub_cancel_left]
    refine ⟨_, rfl, rfl, by dsimp only; omega, ?_⟩
    constructor
    · dsimp only
      rw [hslice]
      rfl
    all_goals rfl

/-! ## The two walks -/

/-- From one whole record to the position behind it. -/
def NextRecord (cd : Bytes) (o next : ℕ) : Prop :=
  FixedPart cd o ∧ next = recordEnd cd o ∧ next ≤ cd.length

/-- The name is inside the slice, the extra field or the comment is not. -/
def CutOff (cd : Bytes) (o : ℕ) : Prop :=
  FixedPart cd o ∧ nameEnd cd o ≤ cd.length ∧ cd.length < recordEnd cd o

/-- No record that the whole ones lead to is cut off behind its name. -/
def WholeFrom (cd : Bytes) (o : ℕ) : Prop :=
  ∀ q, Relation.ReflTransGen (NextRecord cd) o q → ¬CutOff cd q

theorem wholeFrom_of_stuck (hstuck : ∀ next, ¬NextRecord cd o next) (h : ¬CutOff cd o) :
    WholeFrom cd o := by
  intro q hq
  rcases Relation.ReflTransGen.cases_head hq with rfl | ⟨next, hnext, -⟩
  · exact h
  · exact absurd hnext (hstuck next)

theorem wholeFrom_iff_next {next : ℕ} (h : NextRecord cd o next) :
    WholeFrom cd o ↔ WholeFrom cd next := by
  constructor
  · exact fun hwhole q hq ↦ hwhole q (hq.head h)
  · intro hwhole q hq
    rcases Relation.ReflTransGen.cases_head hq with rfl | ⟨next', hnext', hq'⟩
    · have hend := h.2.1 ▸ h.2.2
      exact fun hcut ↦ absurd hcut.2.2 (Nat.not_lt.mpr hend)
    · obtain rfl := hnext'.2.1.trans h.2.1.symm
      exact hwhole q hq'

/-- One turn of the analyzer's loop, its arithmetic within the word. -/
theorem centralFrom_eq (members : List (ArchiveEntry × ℕ)) (hcd : cd.length < 2 ^ 63)
    (ho : o + 46 < 2 ^ 64) : ZipReader.centralFrom cd o members =
      if ¬FixedPart cd o ∨ cd.length < nameEnd cd o then .ok members
      else ZipReader.centralFrom cd (recordEnd cd o)
        (members ++ [(memberAt cd o, u16At cd (o + 10))]) := by
  rw [ZipReader.centralFrom]
  split
  · rename_i f hfixed
    rw [add_eq ho] at hfixed
    cases hfixed
  · rename_i fixedEnd hfixed
    obtain rfl := add_eq_ok hfixed
    by_cases hroom : cd.length < o + 46
    · have hno : ¬FixedPart cd o := fun h ↦ absurd h.1 (Nat.not_le.mpr hroom)
      rw [if_pos hroom, if_pos (.inl hno)]
    · rw [if_neg hroom]
      by_cases hsig : u32le cd o = some Zip.cdfhSig
      · have hheader := centralHeaderAt_eq hcd ⟨Nat.not_lt.mp hroom, hsig⟩
        have hfix : FixedPart cd o := ⟨Nat.not_lt.mp hroom, hsig⟩
        by_cases hend : cd.length < nameEnd cd o
        · rw [if_pos hend] at hheader
          rw [if_pos (.inr hend)]
          split
          · rename_i f h
            rw [hheader] at h
            cases h
          · rfl
          · rename_i h
            rw [hheader] at h
            cases h
        · rw [if_neg hend] at hheader
          rw [if_neg (not_or.mpr ⟨not_not.mpr hfix, hend⟩)]
          split
          · rename_i f h
            rw [hheader] at h
            cases h
          · rename_i h
            rw [hheader] at h
            cases h
          · rename_i h
            rw [hheader] at h
            cases h
            rfl
      · have hheader := centralHeaderAt_of_no_signature hcd (Nat.not_lt.mp hroom) hsig
        rw [if_pos (.inl fun h ↦ hsig h.2)]
        split
        · rename_i f h
          rw [hheader] at h
          cases h
        · rfl
        · rename_i h
          rw [hheader] at h
          cases h

/-- The walks have come to the same record. -/
structure InStep (cd : Bytes) (o : ℕ) (members : List (ArchiveEntry × ℕ))
    (entries : List ZipEntry) (metadata : ℕ) : Prop where
  same : List.Forall₂ SameRecord members entries
  position : o = 46 * entries.length + metadata
  records : entries.length ≤ 262144
  metadataBytes : metadata ≤ 64 * 1024 * 1024
  inside : o ≤ cd.length

/-- Where the recovery walk stops, the analyzer's has the same members unless it takes a record
that is cut off. -/
theorem agree_of_stop {members : List (ArchiveEntry × ℕ)} {entries : List ZipEntry}
    (hcd : cd.length < 2 ^ 63) (ho : o ≤ cd.length)
    (hsame : List.Forall₂ SameRecord members entries)
    (hstop : ∀ next, ¬NextRecord cd o next) :
    (∃ ms, ZipReader.centralFrom cd o members = .ok ms ∧ List.Forall₂ SameRecord ms entries) ↔
      WholeFrom cd o := by
  have hturn := centralFrom_eq members hcd (show o + 46 < 2 ^ 64 by omega)
  by_cases hcut : CutOff cd o
  · obtain ⟨hfix, hname, hpast⟩ := hcut
    have hextra := u16At_lt cd (o + 30)
    have hcomment := u16At_lt cd (o + 32)
    have hend : recordEnd cd o = nameEnd cd o + u16At cd (o + 30) + u16At cd (o + 32) := rfl
    have hlast := centralFrom_eq (members ++ [(memberAt cd o, u16At cd (o + 10))]) hcd
      (show recordEnd cd o + 46 < 2 ^ 64 by omega)
    have hbeyond : ¬FixedPart cd (recordEnd cd o) := fun h ↦ by
      have hroom := h.1
      omega
    rw [if_pos (.inl hbeyond)] at hlast
    rw [if_neg (not_or.mpr ⟨not_not.mpr hfix, Nat.not_lt.mpr hname⟩), hlast] at hturn
    refine iff_of_false ?_ fun hwhole ↦ hwhole o .refl ⟨hfix, hname, hpast⟩
    rintro ⟨ms, hms, hall⟩
    obtain rfl := Except.ok.inj (hturn.symm.trans hms)
    have hlength := hall.length_eq
    rw [List.length_append, hsame.length_eq] at hlength
    exact absurd hlength (Nat.succ_ne_self _)
  · have hleave : ¬FixedPart cd o ∨ cd.length < nameEnd cd o := by
      by_contra hboth
      obtain ⟨hfix, hname⟩ := not_or.mp hboth
      have hfix := not_not.mp hfix
      by_cases hpast : cd.length < recordEnd cd o
      · exact hcut ⟨hfix, Nat.not_lt.mp hname, hpast⟩
      · exact hstop _ ⟨hfix, rfl, Nat.not_lt.mp hpast⟩
    rw [if_pos hleave] at hturn
    exact iff_of_true ⟨members, hturn, hsame⟩ (wholeFrom_of_stuck hstop hcut)

theorem walks_agree_iff {policy : ZipRecoveryPolicy} {region : ℕ} {entries : List ZipEntry}
    {metadata : ℕ} {members : List (ArchiveEntry × ℕ)} (hpolicy : policy = .default)
    (hregion : region = min cd.length policy.maxCentralBytes) (hcd : cd.length < 2 ^ 63)
    (hstep : InStep cd o members entries metadata)
    (hlimit : (parseCentralFrom cd policy region o entries metadata).2 = none) :
    (∃ ms, ZipReader.centralFrom cd o members = .ok ms ∧
      List.Forall₂ SameRecord ms (parseCentralFrom cd policy region o entries metadata).1) ↔
        WholeFrom cd o := by
  fun_induction parseCentralFrom cd policy region o entries metadata generalizing members with
  | case1 o entries metadata hroom hrecords => cases hlimit
  | case2 o entries metadata hroom hrecords hsig =>
      exact agree_of_stop hcd hstep.inside hstep.same fun next h ↦ hsig h.1.2
  | case3 o entries metadata hroom hrecords hsig hnone =>
      have hfix : FixedPart cd o := ⟨by omega, not_not.mp hsig⟩
      have hrecord := centralRecordAt_default hcd hfix
      refine agree_of_stop hcd hstep.inside hstep.same fun next h ↦ ?_
      rw [if_neg (Nat.not_lt.mpr (h.2.1 ▸ h.2.2)), ← hpolicy, hnone] at hrecord
      obtain ⟨r, hr, -⟩ := hrecord
      cases hr
  | case4 => cases hlimit
  | case5 o entries metadata hroom hrecords hsig r hr hprogress total hmetadata =>
      rename_i ih
      have hfix : FixedPart cd o := ⟨by omega, not_not.mp hsig⟩
      have hrecord := centralRecordAt_default hcd hfix
      have hpast : ¬cd.length < recordEnd cd o := by
        intro hpast
        rw [if_pos hpast, ← hpolicy, hr] at hrecord
        cases hrecord
      rw [if_neg hpast, ← hpolicy, hr] at hrecord
      obtain ⟨r', hr', hend, hsum, hsame⟩ := hrecord
      obtain rfl := Option.some.inj hr'
      have hnext : NextRecord cd o r.recordEnd := ⟨hfix, hend, hprogress.2⟩
      have hname : ¬cd.length < nameEnd cd o := by
        unfold recordEnd at hpast
        omega
      have hmax : policy.maxMetadataBytes = 64 * 1024 * 1024 := by rw [hpolicy]; rfl
      have hcap : policy.maxCentralRecords = 262144 := by rw [hpolicy]; rfl
      have htotal : total = metadata + r.metadata := by
        unfold total saturatingAdd wordMax at hmetadata ⊢
        omega
      have hposition := hstep.position
      have hinside : InStep cd r.recordEnd (members ++ [(memberAt cd o, u16At cd (o + 10))])
          (entries ++ [r.entry]) total := by
        refine ⟨List.rel_append hstep.same (.cons hsame .nil), ?_, ?_, by omega, hprogress.2⟩
        · rw [List.length_append, List.length_singleton]
          omega
        · rw [List.length_append, List.length_singleton]
          omega
      have hturn := centralFrom_eq members hcd (show o + 46 < 2 ^ 64 by omega)
      rw [if_neg (not_or.mpr ⟨not_not.mpr hfix, hname⟩), ← hend] at hturn
      rw [hturn, wholeFrom_iff_next hnext]
      exact ih hinside hlimit
  | case6 o entries metadata hroom =>
      have hposition := hstep.position
      have hrecords := hstep.records
      have hmetadata := hstep.metadataBytes
      have hbytes : policy.maxCentralBytes = 128 * 1024 * 1024 := by rw [hpolicy]; rfl
      refine agree_of_stop hcd hstep.inside hstep.same fun next h ↦ ?_
      have hfits := h.1.1
      omega

/-! ## The whole slice -/

/-- The walks list the same records in the same order. -/
def SameDirectory (cd : DataSource) (declaredCount : ℕ) : Prop :=
  ∃ entries methods, ZipReader.parseCentralDirectory cd.bytes = .ok (entries, methods) ∧
    entries.length = methods.length ∧ List.Forall₂ SameRecord (entries.zip methods)
      (parseCentralDirectoryBounded cd.bytes declaredCount .default).1

theorem sameDirectory_iff_centralFrom (cd : DataSource) (declaredCount : ℕ) :
    SameDirectory cd declaredCount ↔ ∃ ms, ZipReader.centralFrom cd.bytes 0 [] = .ok ms ∧
      List.Forall₂ SameRecord ms
        (parseCentralDirectoryBounded cd.bytes declaredCount .default).1 := by
  unfold SameDirectory ZipReader.parseCentralDirectory
  constructor
  · rintro ⟨entries, methods, hparse, -, hall⟩
    obtain ⟨ms, hms, hunzip⟩ := bind_eq_ok.mp hparse
    have hpair : ms.unzip = (entries, methods) := Except.ok.inj hunzip
    have hzip : entries.zip methods = ms := by
      have hround := List.zip_unzip ms
      rwa [hpair] at hround
    exact ⟨ms, hms, hzip ▸ hall⟩
  · rintro ⟨ms, hms, hall⟩
    refine ⟨ms.unzip.1, ms.unzip.2, ?_, ?_, ?_⟩
    · rw [hms]
      rfl
    · simp
    · rwa [List.zip_unzip]

/-- When the recovery walk reports no limit, it and the analyzer list the same records unless one
of them is cut off behind its name. -/
theorem sameDirectory_iff (cd : DataSource) (declaredCount : ℕ)
    (hlimit : (parseCentralDirectoryBounded cd.bytes declaredCount .default).2 = none) :
    SameDirectory cd declaredCount ↔ WholeFrom cd.bytes 0 := by
  rw [sameDirectory_iff_centralFrom]
  exact walks_agree_iff rfl rfl cd.addressable
    ⟨.nil, rfl, Nat.zero_le _, Nat.zero_le _, Nat.zero_le _⟩ hlimit

/-- A record for the name of one letter that declares a comment of this length. -/
def recordWithComment (letter commentLen : UInt8) : Bytes :=
  [0x50, 0x4b, 1, 2] ++ List.replicate 24 0 ++ [1, 0] ++ [0, 0] ++ [commentLen, 0] ++
    List.replicate 12 0 ++ [letter]

/-- A record with its comment, and one without. -/
def wholeSlice : DataSource :=
  ⟨recordWithComment 0x61 1 ++ [0x21] ++ recordWithComment 0x62 0, by decide⟩

theorem wholeSlice_iff : SameDirectory wholeSlice 2 ↔ WholeFrom wholeSlice.bytes 0 :=
  sameDirectory_iff wholeSlice 2 (by decide +kernel)

/-- A record without the comment it declares. -/
def cutSlice : DataSource := ⟨recordWithComment 0x61 1, by decide⟩

/-- The analyzer lists the record, the recovery walk does not and reports no limit. -/
theorem cutSlice_not_same :
    (parseCentralDirectoryBounded cutSlice.bytes 1 .default).2 = none ∧
      ¬SameDirectory cutSlice 1 := by
  have hlimit : (parseCentralDirectoryBounded cutSlice.bytes 1 .default).2 = none := by
    decide +kernel
  refine ⟨hlimit, ?_⟩
  rw [sameDirectory_iff_centralFrom]
  intro hsame
  have hwhole := (walks_agree_iff rfl rfl cutSlice.addressable
    ⟨.nil, rfl, Nat.zero_le _, Nat.zero_le _, Nat.zero_le _⟩ hlimit).mp hsame
  refine hwhole 0 .refl ⟨by decide, ?_, ?_⟩
  · decide
  · decide

end VeraqisRecover.Analyze
