import VeraqisRecover.Recovery.TarChecksumAgreement
import VeraqisRecover.Tar.Whole

/-!
# What the checksum repair touches

Members one after another, with any of the size encodings TAR writers use.  The
repair reads one of them only; at the others it steps into the data, and takes
blocks of the data for headers.
-/

namespace VeraqisRecover.Recovery

open ByteString VeraqisRecover.Tar

namespace TarChecksumFix

/-- NULs and blanks, which close a numeric field. -/
def Closes (rest : Bytes) : Prop := ∀ b ∈ rest, (b = 0 || b = 0x20 : Bool) = true

instance (rest : Bytes) : Decidable (Closes rest) :=
  inferInstanceAs (Decidable (∀ b ∈ rest, (b = 0 || b = 0x20 : Bool) = true))

/-- The eleven low bytes of a number, most significant first. -/
def bigEndian (v : ℕ) : Bytes := (List.range 11).map fun i ↦ UInt8.ofNat (v / 256 ^ (10 - i))

/-- What TAR writers put into the twelve bytes of a size field. -/
inductive SizeEncoding : Bytes → ℕ → Prop
  | zeroPadded {w v : ℕ} {rest : Bytes} : 0 < w → v < 8 ^ w → Closes rest →
      w + rest.length = 12 → SizeEncoding (Octal.padded w v ++ rest) v
  | spacePadded {k v : ℕ} {rest : Bytes} : Closes rest →
      k + (Octal.digits v).length + rest.length = 12 →
      SizeEncoding (List.replicate k 0x20 ++ (Octal.digits v ++ rest)) v
  | base256 {v : ℕ} : v < 256 ^ 11 → SizeEncoding (0x80 :: bigEndian v) v

/-- A member as any writer leaves it, with anything in its checksum field. -/
structure SummableMember where
  header : Bytes
  data : Bytes
  length_header : header.length = block
  size : SizeEncoding (field header 124 12) data.length

namespace SummableMember

def blocks (m : SummableMember) : ℕ := 1 + divCeil m.data.length block

def bytes (m : SummableMember) : Bytes :=
  m.header ++ (m.data ++ List.replicate (paddedSize m.data.length - m.data.length) 0)

theorem length_bytes (m : SummableMember) : m.bytes.length = m.blocks * block := by
  have hle := size_le_paddedSize m.data.length
  rw [bytes, List.length_append, List.length_append, List.length_replicate, m.length_header,
    blocks, Nat.add_mul, Nat.one_mul, ← paddedSize]
  omega

end SummableMember

def archive (ms : List SummableMember) : Bytes := ms.flatMap SummableMember.bytes

/-- The blocks where the members' own headers stand. -/
def ownHeaders : ℕ → List SummableMember → List ℕ
  | _, [] => []
  | q, m :: ms => q :: ownHeaders (q + m.blocks) ms

/-- The output is the archive but for the checksum fields of the members' own headers. -/
def TouchesOwnOnly (ms : List SummableMember) (output : Bytes) : Prop :=
  ∀ x, output[x]? ≠ (archive ms)[x]? →
    ∃ q ∈ ownHeaders 0 ms, q * block + 148 ≤ x ∧ x < q * block + 156

theorem block_dvd_archive (ms : List SummableMember) : block ∣ (archive ms).length := by
  induction ms with
  | nil => exact dvd_zero block
  | cons m ms ih =>
      rw [archive, List.flatMap_cons, List.length_append, m.length_bytes]
      exact (Dvd.intro_left _ rfl).add ih

/-! ## An archive is written -/

theorem SizeEncoding.exists_ne_zero {f : Bytes} {v : ℕ} (h : SizeEncoding f v) :
    ∃ b ∈ f, b ≠ 0 := by
  have hdigit : ∀ {s : Bytes}, s ≠ [] → s.all Octal.isDigit = true → ∃ b ∈ s, b ≠ 0 := by
    intro s hne hall
    obtain ⟨b, hb⟩ := List.exists_mem_of_ne_nil s hne
    refine ⟨b, hb, ?_⟩
    rintro rfl
    exact absurd (List.all_eq_true.mp hall 0 hb) (by decide)
  cases h with
  | @zeroPadded w v rest =>
      obtain ⟨b, hb, hne⟩ := hdigit (Octal.padded_ne_nil w v) (Octal.all_padded w v)
      exact ⟨b, List.mem_append_left _ hb, hne⟩
  | spacePadded =>
      obtain ⟨b, hb, hne⟩ := hdigit (Octal.digits_ne_nil v) (Octal.all_digits v)
      exact ⟨b, List.mem_append_right _ (List.mem_append_left _ hb), hne⟩
  | base256 => exact ⟨0x80, List.mem_cons_self, by decide⟩

theorem isZero_archive {ms : List SummableMember} (h : ms ≠ []) : isZero (archive ms) = false := by
  obtain ⟨m, ms, rfl⟩ := List.exists_cons_of_ne_nil h
  obtain ⟨b, hb, hne⟩ := m.size.exists_ne_zero
  have hmem : b ∈ archive (m :: ms) := by
    rw [archive, List.flatMap_cons, SummableMember.bytes]
    apply List.mem_append_left
    apply List.mem_append_left
    exact List.mem_of_mem_drop (List.mem_of_mem_take hb)
  rw [← Bool.not_eq_true]
  intro hzero
  exact hne (of_decide_eq_true (List.all_eq_true.mp hzero b hmem))

/-- An output of zeros is the source. -/
theorem walked_of_isZero {source : Bytes} (h : isZero (walked source).data = true) :
    walked source = ⟨source, 0⟩ := by
  apply walk_eq_self _ 0 ⟨source, 0⟩ rfl
  intro q hq
  rw [← headers_walked, headers_zeros h] at hq
  cases hq

theorem apply_archive (ms : List SummableMember) :
    ∃ report, apply (archive ms) = .ok ((walked (archive ms)).data, report) := by
  by_cases hms : ms = []
  · subst hms
    have hself : walked [] = ⟨[], 0⟩ := walk_eq_self _ 0 ⟨[], 0⟩ rfl (by
      rw [headers_end (by decide)]
      simp)
    change ∃ report, apply [] = .ok ((walked []).data, report)
    rw [apply]
    dsimp only
    rw [hself, if_pos ⟨rfl, rfl⟩]
    exact ⟨_, rfl⟩
  · have hnonzero : ¬((walked (archive ms)).fixed = 0 ∧
        isZero (walked (archive ms)).data = true) := by
      rintro ⟨-, hzero⟩
      rw [walked_of_isZero hzero] at hzero
      rw [isZero_archive hms] at hzero
      cases hzero
    obtain ⟨report, happly, -⟩ := exists_apply hnonzero
    exact ⟨report, happly⟩

/-! ## What differs -/

section Differs

variable {source : Bytes} {q x : ℕ}

theorem getElem?_blockAt (data : Bytes) (hlow : q * block ≤ x) (hhigh : x < q * block + block) :
    (blockAt data q)[x - q * block]? = data[x]? := by
  rw [blockAt, getElem?_field (by omega), Nat.add_sub_cancel' hlow]

theorem getElem?_fixBlock {b : Bytes} (h : b.length = block) {i : ℕ}
    (hi : i < 148 ∨ 156 ≤ i) : (fixBlock b)[i]? = b[i]? := by
  have hlen : b.length = 512 := h
  have hwritten : (checksumBytes (ustarChecksumCompute b)).length = 8 := length_checksumBytes h
  rw [fixBlock]
  split
  · rfl
  · apply getElem?_overwrite_of_apart (by rw [hwritten, hlen]; decide)
    rintro ⟨hlow, hhigh⟩
    rw [hwritten] at hhigh
    dsimp only at hlow hhigh
    omega

/-- A byte that differs lies in the checksum field of a header the walk corrected. -/
theorem exists_header_of_ne (hdvd : block ∣ source.length)
    (hne : (walked source).data[x]? ≠ source[x]?) :
    ∃ q ∈ headers source 0,
      ustarChecksumRead (blockAt source q) ≠ ustarChecksumCompute (blockAt source q) ∧
        q * block + 148 ≤ x ∧ x < q * block + 156 := by
  have hlen := length_walked source
  have hin : x < source.length := by
    by_contra hout
    apply hne
    rw [List.getElem?_eq_none (not_lt.mp hout), List.getElem?_eq_none (by omega)]
  have hpos : 0 < block := by decide
  have hlow : x / block * block ≤ x := Nat.div_mul_le_self x block
  have hhigh : x < x / block * block + block := Nat.lt_div_mul_add hpos
  have hlt : x / block < source.length / block := Nat.div_lt_div_of_lt_of_dvd hdvd hin
  have hblock := length_blockAt hlt
  rw [← getElem?_blockAt _ hlow hhigh, ← getElem?_blockAt source hlow hhigh,
    blockAt_walked source hlt] at hne
  by_cases hmem : x / block ∈ headers source 0
  · rw [if_pos hmem] at hne
    refine ⟨x / block, hmem, ?_, ?_⟩
    · intro hread
      rw [fixBlock, if_pos hread] at hne
      exact hne rfl
    · by_contra hout
      exact hne (getElem?_fixBlock hblock (by omega))
  · rw [if_neg hmem] at hne
    exact absurd rfl hne

/-- Every header the walk corrects differs somewhere. -/
theorem exists_ne_of_header (hmem : q ∈ headers source 0)
    (hread : ustarChecksumRead (blockAt source q) ≠ ustarChecksumCompute (blockAt source q)) :
    ∃ x, q * block ≤ x ∧ x < q * block + block ∧ (walked source).data[x]? ≠ source[x]? := by
  have hlt := (of_mem_headers q hmem).2.1
  by_contra hnone
  push Not at hnone
  have hsame : blockAt (walked source).data q = blockAt source q := field_congr hnone
  rw [blockAt_walked source hlt, if_pos hmem] at hsame
  exact fixBlock_ne_of_read_ne (length_blockAt hlt) hread hsame

end Differs

/-- The repair stays out of the members' data exactly when every block of the data that its walk
takes for a header has a checksum it reads as right. -/
theorem apply_touchesOwnOnly_iff (ms : List SummableMember) :
    ∃ output report, apply (archive ms) = .ok (output, report) ∧
      (TouchesOwnOnly ms output ↔
        ∀ q ∈ headers (archive ms) 0, q ∉ ownHeaders 0 ms →
          ustarChecksumRead (blockAt (archive ms) q) =
            ustarChecksumCompute (blockAt (archive ms) q)) := by
  obtain ⟨report, happly⟩ := apply_archive ms
  refine ⟨_, report, happly, ?_⟩
  constructor
  · intro htouches q hmem hown
    by_contra hread
    obtain ⟨x, hlow, hhigh, hne⟩ := exists_ne_of_header hmem hread
    obtain ⟨p, hp, hplow, hphigh⟩ := htouches x hne
    have hsame : p = q := by
      unfold block at *
      omega
    exact hown (hsame ▸ hp)
  · intro hsound x hne
    obtain ⟨q, hmem, hread, hrange⟩ := exists_header_of_ne (block_dvd_archive ms) hne
    refine ⟨q, ?_, hrange⟩
    by_contra hown
    exact hread (hsound q hmem hown)

/-! ## Sizes the repair reads -/

/-- The walk finds the header, and steps over just its data. -/
def SteppedOver (m : SummableMember) : Prop :=
  hasMagic m.header = true ∧ dataBlocks m.header = divCeil m.data.length block

theorem octalField_zeroPadded {w v : ℕ} (hv : v ≤ wordMax) {rest : Bytes} (hrest : Closes rest) :
    octalField (Octal.padded w v ++ rest) = some v := by
  cases rest with
  | nil =>
      rw [octalField_eq_octal (beginsClosed_padded w v []), List.append_nil,
        octal_padded_full w hv]
  | cons sep rest => exact octalField_padded w hv (hrest sep List.mem_cons_self) rest

/-- A zero-padded size is one the repair reads. -/
theorem steppedOver_of_zeroPadded {m : SummableMember} (hmagic : hasMagic m.header = true)
    {w : ℕ} {rest : Bytes} (hrest : Closes rest)
    (hfield : field m.header 124 12 = Octal.padded w m.data.length ++ rest)
    (hv : m.data.length ≤ wordMax) : SteppedOver m := by
  refine ⟨hmagic, ?_⟩
  rw [dataBlocks, hfield, octalField_zeroPadded hv hrest, Option.getD_some]

/-- Between such members the walk goes from own header to own header. -/
theorem headers_subset_ownHeaders (ms : List SummableMember) (h : ∀ m ∈ ms, SteppedOver m)
    (pre : Bytes) (i : ℕ) (hpre : pre.length = i * block) :
    ∀ q ∈ headers (pre ++ archive ms) i, q ∈ ownHeaders i ms := by
  induction ms generalizing pre i with
  | nil =>
      have hlen : (pre ++ archive []).length = i * block := by
        rw [archive, List.flatMap_nil, List.append_nil, hpre]
      have hend : ¬i < (pre ++ archive []).length / block := by
        rw [hlen, Nat.mul_div_cancel i (by decide)]
        exact lt_irrefl i
      rw [headers_end hend]
      simp
  | cons m ms ih =>
      obtain ⟨hmagic, hblocks⟩ := h m List.mem_cons_self
      have hsplit : archive (m :: ms) = m.bytes ++ archive ms := rfl
      have hlt : i < (pre ++ (m.bytes ++ archive ms)).length / block := by
        have hroom : (i + 1) * block ≤ (i + m.blocks) * block :=
          Nat.mul_le_mul_right block (Nat.add_le_add_left (Nat.le_add_right 1 _) i)
        rw [Nat.lt_iff_add_one_le, Nat.le_div_iff_mul_le (by decide), List.length_append,
          List.length_append, hpre, m.length_bytes, ← Nat.add_assoc, ← Nat.add_mul]
        exact hroom.trans (Nat.le_add_right _ _)
      have hheader : blockAt (pre ++ (m.bytes ++ archive ms)) i = m.header := by
        have hfield := field_append pre (m.bytes ++ archive ms) 0 block
        rw [blockAt, ← hpre, ← Nat.add_zero pre.length, hfield, SummableMember.bytes,
          List.append_assoc, field_zero_length m.length_header]
      have hzero : ¬isZero (blockAt (pre ++ (m.bytes ++ archive ms)) i) = true := by
        rw [hheader, isZero_of_hasMagic hmagic]
        decide
      have hrest := ih (fun n hn ↦ h n (List.mem_cons_of_mem m hn)) (pre ++ m.bytes)
        (i + m.blocks) (by rw [List.length_append, hpre, m.length_bytes, Nat.add_mul])
      rw [hsplit, headers_header hlt hzero (by rw [hheader, hmagic]; decide), hheader, hblocks]
      intro q hq
      rcases List.mem_cons.mp hq with rfl | hq
      · exact List.mem_cons_self
      · rw [Nat.add_assoc, ← SummableMember.blocks, ← List.append_assoc] at hq
        exact List.mem_cons_of_mem _ (hrest q hq)

/-- With sizes it reads, the repair stays in the members' own checksum fields. -/
theorem touchesOwnOnly_of_steppedOver (ms : List SummableMember) (h : ∀ m ∈ ms, SteppedOver m) :
    TouchesOwnOnly ms (walked (archive ms)).data := by
  intro x hne
  obtain ⟨q, hmem, -, hrange⟩ := exists_header_of_ne (block_dvd_archive ms) hne
  exact ⟨q, headers_subset_ownHeaders ms h [] 0 (Nat.zero_mul _).symm q hmem, hrange⟩

/-! ## An archive in an archive -/

/-- A header whose size, one block, stands behind blanks. -/
def blankSized : Bytes :=
  List.replicate 124 0 ++ (List.replicate 7 0x20 ++ (Octal.digits 512 ++ [0x20])) ++
    List.replicate 12 0 ++ Octal.padded 6 0x4f0 ++ [0, 0x20] ++ List.replicate 101 0 ++ ustar ++
    List.replicate 250 0

/-- A member that holds a header without a checksum. -/
def nestedArchive : SummableMember where
  header := blankSized
  data := unsummed
  length_header := by decide +kernel
  size := by
    have hfield : field blankSized 124 12 =
        List.replicate 7 0x20 ++ (Octal.digits 512 ++ [0x20]) := by decide
    have hlen : unsummed.length = 512 := by decide +kernel
    rw [hfield, hlen]
    exact .spacePadded (by decide +kernel) (by decide +kernel)

/-- The repair writes into the member's data. -/
theorem nestedArchive_not_touchesOwnOnly : ∃ output report,
    apply (archive [nestedArchive]) = .ok (output, report) ∧
      ¬TouchesOwnOnly [nestedArchive] output := by
  obtain ⟨report, happly⟩ := apply_archive [nestedArchive]
  refine ⟨_, report, happly, ?_⟩
  intro htouches
  have hne : (walked (archive [nestedArchive])).data[660]? ≠
      (archive [nestedArchive])[660]? := by decide +kernel
  obtain ⟨q, hq, hrange⟩ := htouches 660 hne
  rw [List.mem_singleton.mp hq] at hrange
  exact absurd hrange.2 (by decide)

end TarChecksumFix

end VeraqisRecover.Recovery
