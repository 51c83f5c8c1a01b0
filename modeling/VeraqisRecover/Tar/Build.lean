import VeraqisRecover.Tar.Walk

/-!
# Building TAR members

`tar_member` of `resync/build.rs`, and what the salvager reads back from a
member it wrote: the magic, the checksum, the name and the size.
-/

namespace VeraqisRecover.Tar

open ByteString LossyUtf8

/-- A zero-padded octal field closed by a NUL, written at `o` over a width of `w`. -/
def writeOctal (hdr : Bytes) (o w value : ℕ) : Bytes :=
  let digits := (Octal.padded (w - 1) value).take (w - 1)
  overwrite (overwrite hdr o digits) (o + digits.length) [0]

/-- The header before its checksum is known, with spaces in that field. -/
def unsummedHeader (name : Text) (data : Bytes) : Bytes :=
  let hdr := List.replicate block (0 : UInt8)
  let hdr := overwrite hdr 0 ((asBytes name).take 100)
  let hdr := writeOctal hdr 100 8 0o644
  let hdr := writeOctal hdr 108 8 0
  let hdr := writeOctal hdr 116 8 0
  let hdr := writeOctal hdr 124 12 data.length
  let hdr := writeOctal hdr 136 12 0
  let hdr := overwrite hdr 156 [0x30]
  let hdr := overwrite hdr 257 (ustar ++ [0])
  let hdr := overwrite hdr 263 [0x30, 0x30]
  overwrite hdr 148 (List.replicate 8 0x20)

/-- The sum of a header's bytes. -/
def byteSum (b : Bytes) : ℕ := (b.map UInt8.toNat).sum

def memberHeader (name : Text) (data : Bytes) : Bytes :=
  let hdr := unsummedHeader name data
  overwrite hdr 148 ((Octal.padded 6 (byteSum hdr) ++ [0, 0x20]).take 8)

/-- One member: its header, then the data padded to a whole number of blocks. -/
def tarMember (name : Text) (data : Bytes) : Bytes :=
  memberHeader name data ++ data ++ List.replicate (paddedSize data.length - data.length) 0

/-- The members and two blocks of zeros. -/
def tarArchive (members : List (Text × Bytes)) : Bytes :=
  (members.flatMap fun m ↦ tarMember m.1 m.2) ++ List.replicate (2 * block) 0

/-! ## The written fields -/

theorem not_closes_padded {w v : ℕ} :
    ∀ b ∈ Octal.padded w v, (b = 0 || b = 0x20 : Bool) = false := by
  intro b hb
  have hdigit := List.all_eq_true.mp (Octal.all_padded w v) b hb
  have hlo : 0x30 ≤ b.toNat := by
    simp only [Octal.isDigit, Bool.and_eq_true, decide_eq_true_eq] at hdigit
    exact hdigit.1
  simp only [Bool.or_eq_false_iff, decide_eq_false_iff_not]
  constructor
  · rintro rfl
    exact absurd hlo (by decide)
  · rintro rfl
    exact absurd hlo (by decide)

theorem isUtf8_padded (w v : ℕ) : isUtf8 (Octal.padded w v) = true := by
  refine isUtf8_of_ascii fun b hb ↦ ?_
  have hdigit := List.all_eq_true.mp (Octal.all_padded w v) b hb
  simp only [Octal.isDigit, Bool.and_eq_true, decide_eq_true_eq] at hdigit
  omega

/-- An octal field reads back as the number written. -/
theorem octal_padded (w : ℕ) {value : ℕ} (hv : value ≤ wordMax) {sep : UInt8}
    (hclose : (sep = 0 || sep = 0x20 : Bool) = true) (rest : Bytes) :
    octal (Octal.padded w value ++ sep :: rest) = some value := by
  unfold octal
  rw [List.splitOnP_append_cons_of_forall_mem not_closes_padded sep hclose rest,
    List.find?_cons_of_pos (by simpa using Octal.padded_ne_nil w value)]
  simp [isUtf8_padded, Octal.fromStrRadix_padded w hv]

/-- A field that the digits fill reads back as well. -/
theorem octal_padded_full (w : ℕ) {value : ℕ} (hv : value ≤ wordMax) :
    octal (Octal.padded w value) = some value := by
  unfold octal
  rw [List.splitOnP_eq_singleton not_closes_padded,
    List.find?_cons_of_pos (by simpa using Octal.padded_ne_nil w value)]
  simp [isUtf8_padded, Octal.fromStrRadix_padded w hv]

/-! ## Checksums -/

theorem byteSum_append (s t : Bytes) : byteSum (s ++ t) = byteSum s + byteSum t := by
  simp [byteSum]

theorem byteSum_le (b : Bytes) : byteSum b ≤ 255 * b.length := by
  induction b with
  | nil => rfl
  | cons c b ih =>
      have hc := c.toNat_lt
      simp only [byteSum, List.map_cons, List.sum_cons, List.length_cons] at ih ⊢
      omega

theorem zipIdx_sum (b : Bytes) (k : ℕ) (h : k + b.length ≤ 148 ∨ 156 ≤ k) :
    ((b.zipIdx k).map fun p ↦ if 148 ≤ p.2 ∧ p.2 < 156 then 0x20 else p.1.toNat).sum =
      byteSum b := by
  induction b generalizing k with
  | nil => rfl
  | cons c b ih =>
      rw [List.length_cons] at h
      rw [List.zipIdx_cons, List.map_cons, List.sum_cons, ih (k + 1) (by omega),
        if_neg (by dsimp only; omega)]
      simp [byteSum]

theorem zipIdx_sum_inside (b : Bytes) (k : ℕ) (hlo : 148 ≤ k) (hhi : k + b.length ≤ 156) :
    ((b.zipIdx k).map fun p ↦ if 148 ≤ p.2 ∧ p.2 < 156 then 0x20 else p.1.toNat).sum =
      0x20 * b.length := by
  induction b generalizing k with
  | nil => rfl
  | cons c b ih =>
      rw [List.length_cons] at hhi
      rw [List.zipIdx_cons, List.map_cons, List.sum_cons, ih (k + 1) (by omega) (by omega),
        if_pos (by dsimp only; omega), List.length_cons]
      omega

theorem header_split {b : Bytes} (h : b.length = block) :
    b = field b 0 148 ++ (field b 148 8 ++ field b 156 356) := by
  have hlen : b.length = 512 := h
  have hlast : field b 156 356 = b.drop 156 :=
    List.take_of_length_le (by rw [List.length_drop]; omega)
  have hmid : field b 148 8 ++ b.drop 156 = b.drop 148 := by
    have htake := List.take_append_drop 8 (b.drop 148)
    rwa [List.drop_drop] at htake
  rw [hlast, hmid]
  exact (List.take_append_drop 148 b).symm

/-- The checksum sums everything but its own field, which counts as spaces. -/
theorem computeChecksum_eq {b : Bytes} (h : b.length = block) :
    computeChecksum b = byteSum (field b 0 148) + (0x20 * 8 + byteSum (field b 156 356)) := by
  have hlen : b.length = 512 := h
  have h₀ : (field b 0 148).length = 148 := length_field (by omega)
  have h₁ : (field b 148 8).length = 8 := length_field (by omega)
  unfold computeChecksum
  conv_lhs => rw [header_split h]
  rw [List.zipIdx_append, List.zipIdx_append, List.map_append, List.map_append, List.sum_append,
    List.sum_append, zipIdx_sum _ 0 (.inl (by omega)), zipIdx_sum_inside _ _ (by omega) (by omega),
    zipIdx_sum _ _ (.inr (by omega)), h₁]

theorem byteSum_eq {b : Bytes} (h : b.length = block) :
    byteSum b =
      byteSum (field b 0 148) + (byteSum (field b 148 8) + byteSum (field b 156 356)) := by
  conv_lhs => rw [header_split h]
  rw [byteSum_append, byteSum_append]

/-! ## Reading a written member back -/

/-- A member whose name and size fit into the header. -/
structure Entry where
  name : Text
  data : Bytes
  short : (asBytes name).length ≤ 100
  small : data.length < 8 ^ 11

namespace Entry

def header (m : Entry) : Bytes := memberHeader m.name m.data

/-- The digits `write_octal` puts into a field of width `w`. -/
def octalDigits (w value : ℕ) : Bytes := (Octal.padded (w - 1) value).take (w - 1)

theorem octalDigits_eq {w v : ℕ} (hw : 1 < w) (hv : v < 8 ^ (w - 1)) :
    octalDigits w v = Octal.padded (w - 1) v ∧ (octalDigits w v).length = w - 1 := by
  have hlen := Octal.length_padded (show 0 < w - 1 by omega) hv
  have htake : octalDigits w v = Octal.padded (w - 1) v :=
    List.take_of_length_le hlen.le
  exact ⟨htake, htake ▸ hlen⟩

/-- Everything written into the header before its checksum. -/
def writes (m : Entry) : List (ℕ × Bytes) :=
  [(0, (asBytes m.name).take 100),
    (100, octalDigits 8 0o644), (100 + (octalDigits 8 0o644).length, [0]),
    (108, octalDigits 8 0), (108 + (octalDigits 8 0).length, [0]),
    (116, octalDigits 8 0), (116 + (octalDigits 8 0).length, [0]),
    (124, octalDigits 12 m.data.length), (124 + (octalDigits 12 m.data.length).length, [0]),
    (136, octalDigits 12 0), (136 + (octalDigits 12 0).length, [0]),
    (156, [0x30]), (257, ustar ++ [0]), (263, [0x30, 0x30]), (148, List.replicate 8 0x20)]

theorem unsummedHeader_eq (m : Entry) :
    unsummedHeader m.name m.data = writeAll (List.replicate block 0) m.writes := rfl

/-- The same writes with the offsets worked out. -/
theorem writes_eq (m : Entry) : m.writes =
    [(0, asBytes m.name), (100, Octal.padded 7 0o644), (107, [0]), (108, Octal.padded 7 0),
      (115, [0]), (116, Octal.padded 7 0), (123, [0]), (124, Octal.padded 11 m.data.length),
      (135, [0]), (136, Octal.padded 11 0), (147, [0]), (156, [0x30]), (257, ustar ++ [0]),
      (263, [0x30, 0x30]), (148, List.replicate 8 0x20)] := by
  obtain ⟨hmode, hmode'⟩ := octalDigits_eq (w := 8) (v := 0o644) (by omega) (by decide)
  obtain ⟨hzero, hzero'⟩ := octalDigits_eq (w := 8) (v := 0) (by omega) (by decide)
  obtain ⟨hsize, hsize'⟩ := octalDigits_eq (w := 12) (by omega) m.small
  obtain ⟨htime, htime'⟩ := octalDigits_eq (w := 12) (v := 0) (by omega) (by decide)
  unfold writes
  rw [hmode', hzero', hsize', htime', hmode, hzero, hsize, htime, List.take_of_length_le m.short]

/-- The numbers of a header fill their fields up to the closing byte. -/
theorem length_numbers (m : Entry) :
    (Octal.padded 11 m.data.length).length = 11 ∧ (Octal.padded 11 0).length = 11 ∧
      (Octal.padded 7 0o644).length = 7 ∧ (Octal.padded 7 0).length = 7 :=
  ⟨Octal.length_padded (by omega) m.small, Octal.length_padded (by omega) (by decide),
    Octal.length_padded (by omega) (by decide), Octal.length_padded (by omega) (by decide)⟩

theorem writes_fits (m : Entry) : Fits block m.writes := by
  obtain ⟨hsize, htime, hmode, hzero⟩ := m.length_numbers
  have hname := m.short
  have hblock : block = 512 := rfl
  rw [writes_eq]
  simp only [Fits, List.forall_mem_cons, hsize, htime, hmode, hzero, List.length_replicate,
    List.length_append, ustar, List.length_cons, List.length_nil, hblock]
  simp
  omega

theorem length_unsummed (m : Entry) : (unsummedHeader m.name m.data).length = block := by
  rw [unsummedHeader_eq, length_writeAll (by rw [List.length_replicate]; exact m.writes_fits),
    List.length_replicate]

/-- The checksum as the header carries it. -/
def checksum (m : Entry) : ℕ := byteSum (unsummedHeader m.name m.data)

theorem checksum_lt (m : Entry) : m.checksum < 8 ^ 6 := by
  have hle := byteSum_le (unsummedHeader m.name m.data)
  rw [length_unsummed] at hle
  exact lt_of_le_of_lt hle (by decide)

def checksumField (m : Entry) : Bytes := Octal.padded 6 m.checksum ++ [0, 0x20]

theorem length_checksumField (m : Entry) : m.checksumField.length = 8 := by
  rw [checksumField, List.length_append, Octal.length_padded (by omega) m.checksum_lt]
  rfl

theorem header_eq (m : Entry) :
    m.header = writeAll (List.replicate block 0) (m.writes ++ [(148, m.checksumField)]) := by
  have htake : m.checksumField.take 8 = m.checksumField :=
    List.take_of_length_le m.length_checksumField.le
  rw [writeAll, List.foldl_append, List.foldl_cons, List.foldl_nil]
  show overwrite (unsummedHeader m.name m.data) 148 (m.checksumField.take 8) = _
  rw [htake]
  rfl

theorem allWrites_fits (m : Entry) :
    Fits (List.replicate block (0 : UInt8)).length (m.writes ++ [(148, m.checksumField)]) := by
  rw [List.length_replicate]
  intro w hw
  rcases List.mem_append.mp hw with hw | hw
  · exact m.writes_fits w hw
  · rw [List.mem_singleton.mp hw]
    dsimp only
    rw [m.length_checksumField]
    decide

theorem length_header (m : Entry) : m.header.length = block := by
  rw [header_eq, length_writeAll m.allWrites_fits, List.length_replicate]

theorem field_magic (m : Entry) : field m.header 257 5 = ustar := by
  have hfits := m.allWrites_fits
  have hlast := m.length_checksumField
  rw [header_eq]
  rw [writes_eq] at hfits ⊢
  refine (field_writeAll 12 hfits rfl (by decide) ?_).trans rfl
  simp [Spares, hlast]

theorem field_typeflag (m : Entry) : field m.header 156 1 = [0x30] := by
  have hfits := m.allWrites_fits
  have hlast := m.length_checksumField
  rw [header_eq]
  rw [writes_eq] at hfits ⊢
  refine (field_writeAll 11 hfits rfl (by decide) ?_).trans rfl
  simp [Spares, hlast, ustar]

theorem field_size (m : Entry) :
    field m.header 124 12 = Octal.padded 11 m.data.length ++ [0] := by
  have hfits := m.allWrites_fits
  have hlast := m.length_checksumField
  obtain ⟨hsize, htime, -, -⟩ := m.length_numbers
  have hdigits : field m.header 124 11 = Octal.padded 11 m.data.length := by
    rw [header_eq]
    rw [writes_eq] at hfits ⊢
    refine (field_writeAll 7 hfits rfl hsize.ge ?_).trans (List.take_of_length_le hsize.le)
    simp [Spares, hlast, htime]
  have hnul : field m.header 135 1 = [0] := by
    rw [header_eq]
    rw [writes_eq] at hfits ⊢
    refine (field_writeAll 8 hfits rfl (by decide) ?_).trans rfl
    simp [Spares, hlast, htime]
  calc field m.header 124 12 = field m.header 124 11 ++ field m.header 135 1 :=
        field_add m.header 124 11 1
    _ = Octal.padded 11 m.data.length ++ [0] := by rw [hdigits, hnul]

theorem field_checksum (m : Entry) : field m.header 148 8 = m.checksumField := by
  have hfits := m.allWrites_fits
  have hlast := m.length_checksumField
  rw [header_eq]
  rw [writes_eq] at hfits ⊢
  refine (field_writeAll 15 hfits rfl hlast.ge ?_).trans (List.take_of_length_le hlast.le)
  simp [Spares]

theorem field_replicate {a n k : ℕ} (h : a + n ≤ k) :
    field (List.replicate k (0 : UInt8)) a n = List.replicate n 0 := by
  rw [field, List.drop_replicate, List.take_replicate]
  congr 1
  omega

theorem field_name (m : Entry) : field m.header 0 100 =
    asBytes m.name ++ List.replicate (100 - (asBytes m.name).length) 0 := by
  have hfits := m.allWrites_fits
  have hlast := m.length_checksumField
  have hshort := m.short
  obtain ⟨hsize, htime, hmode, hzero⟩ := m.length_numbers
  have hwritten : field m.header 0 (asBytes m.name).length = asBytes m.name := by
    rw [header_eq]
    rw [writes_eq] at hfits ⊢
    refine (field_writeAll 0 hfits rfl le_rfl ?_).trans (List.take_of_length_le le_rfl)
    simp [Spares]
    omega
  have hrest : field m.header (asBytes m.name).length (100 - (asBytes m.name).length) =
      List.replicate (100 - (asBytes m.name).length) 0 := by
    rw [header_eq]
    rw [writes_eq] at hfits ⊢
    refine (field_writeAll_of_spares hfits ?_).trans (field_replicate (by unfold block; omega))
    simp [Spares]
    omega
  have hadd := field_add m.header 0 (asBytes m.name).length (100 - (asBytes m.name).length)
  rwa [Nat.add_sub_cancel' hshort, Nat.zero_add, hwritten, hrest] at hadd

theorem field_ustarPrefix_blank (m : Entry) : field m.header 345 155 = List.replicate 155 0 := by
  have hfits := m.allWrites_fits
  have hlast := m.length_checksumField
  have hshort := m.short
  obtain ⟨hsize, htime, hmode, hzero⟩ := m.length_numbers
  rw [header_eq]
  rw [writes_eq] at hfits ⊢
  refine (field_writeAll_of_spares hfits ?_).trans (field_replicate (by decide))
  simp [Spares, ustar, hlast, hsize, htime, hmode, hzero]
  omega

/-! ### What the salvager reads -/

theorem zero_notMem_asBytes {t : Text} (h : Char.ofNat 0 ∉ t) : (0 : UInt8) ∉ asBytes t :=
  fun hmem ↦ h (mem_of_mem_asBytes (by decide) hmem)

/-- The zeros behind a string are not read. -/
theorem cstr_padded (s : Bytes) (n : ℕ) : cstr (s ++ List.replicate n 0) = cstr s := by
  have hzeros : (List.replicate n (0 : UInt8)).takeWhile (· ≠ 0) = [] := by
    cases n with
    | zero => rfl
    | succ n => rfl
  rw [cstr, List.takeWhile_append, hzeros, List.append_nil]
  split
  · rename_i hwhole
    rw [cstr, List.takeWhile_eq_self_iff.mpr]
    exact List.takeWhile_eq_self_iff.mp (List.IsPrefix.eq_of_length
      (List.takeWhile_prefix _) hwhole)
  · rfl

/-- A name without a NUL is read as it was written. -/
theorem cstr_asBytes {t : Text} (h : Char.ofNat 0 ∉ t) : cstr (asBytes t) = t := by
  have hall : ∀ b ∈ asBytes t, (b ≠ 0 : Bool) = true := by
    intro b hb
    simp only [decide_eq_true_eq]
    rintro rfl
    exact zero_notMem_asBytes h hb
  rw [cstr, List.takeWhile_eq_self_iff.mpr hall, fromUtf8Lossy_asBytes]

theorem readName_header (m : Entry) : readName m.header = cstr (asBytes m.name) := by
  have hpre : cstr (field m.header 345 155) = [] := by
    rw [field_ustarPrefix_blank]
    exact (cstr_padded [] 155).trans (cstr_asBytes (t := []) (by simp))
  unfold readName
  dsimp only
  rw [hpre, if_pos rfl, field_name, cstr_padded]

theorem declaredSize_header (m : Entry) : declaredSize m.header = m.data.length := by
  have hsmall := m.small
  have hword : m.data.length ≤ wordMax := by
    have : 8 ^ 11 ≤ wordMax := by decide
    omega
  rw [declaredSize, field_size, octal_padded 11 hword rfl []]
  rfl

theorem computeChecksum_header (m : Entry) : computeChecksum m.header = m.checksum := by
  have hlen := m.length_unsummed
  have hinside : 148 ≤ (unsummedHeader m.name m.data).length := by rw [hlen]; decide
  have htake : ((Octal.padded 6 m.checksum ++ [0, 0x20]).take 8).length = 8 := by
    rw [List.length_take, ← checksumField, m.length_checksumField]
    rfl
  have hbefore : field m.header 0 148 = field (unsummedHeader m.name m.data) 0 148 :=
    field_overwrite_of_apart hinside (.inl le_rfl)
  have hafter : field m.header 156 356 = field (unsummedHeader m.name m.data) 156 356 :=
    field_overwrite_of_apart hinside (.inr (by rw [← checksum, htake]))
  have hspaces : field (unsummedHeader m.name m.data) 148 8 = List.replicate 8 0x20 := by
    have hfits : Fits (List.replicate block (0 : UInt8)).length m.writes := by
      rw [List.length_replicate]
      exact m.writes_fits
    rw [unsummedHeader_eq]
    refine (field_writeAll 14 hfits rfl (by decide) ?_).trans rfl
    simp [Spares, writes]
  rw [computeChecksum_eq m.length_header, checksum, byteSum_eq hlen, hbefore, hafter, hspaces]
  rfl

theorem checksumHolds_header (m : Entry) : checksumHolds m.header = true := by
  have hlt := m.checksum_lt
  have hword : m.checksum ≤ wordMax := by
    have : 8 ^ 6 ≤ wordMax := by decide
    omega
  have hmod : m.checksum % 2 ^ 32 = m.checksum := Nat.mod_eq_of_lt (hlt.trans (by decide))
  rw [checksumHolds, readChecksum, field_checksum, checksumField,
    octal_padded 6 hword rfl [0x20], computeChecksum_header, Option.map_some, hmod]
  exact decide_eq_true rfl

theorem hasMagic_header (m : Entry) : hasMagic m.header = true := by
  rw [hasMagic, field_magic]
  rfl

end Entry

/-- What a member's header needs for the writer to lose nothing of it. -/
structure Member where
  name : Text
  data : Bytes
  nonempty : name ≠ []
  noNul : Char.ofNat 0 ∉ name
  short : (asBytes name).length ≤ 100
  small : data.length < 8 ^ 11

namespace Member

def header (m : Member) : Bytes := memberHeader m.name m.data

def entry (m : Member) : Entry := ⟨m.name, m.data, m.short, m.small⟩

theorem length_header (m : Member) : m.header.length = block := m.entry.length_header

theorem readName_header (m : Member) : readName m.header = m.name :=
  m.entry.readName_header.trans (Entry.cstr_asBytes m.noNul)

theorem declaredSize_header (m : Member) : declaredSize m.header = m.data.length :=
  m.entry.declaredSize_header

theorem checksumHolds_header (m : Member) : checksumHolds m.header = true :=
  m.entry.checksumHolds_header

theorem hasMagic_header (m : Member) : hasMagic m.header = true := m.entry.hasMagic_header

end Member

end VeraqisRecover.Tar
