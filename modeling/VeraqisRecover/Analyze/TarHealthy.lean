import VeraqisRecover.Analyze.Healthy
import VeraqisRecover.Tar.Build

/-!
# A healthy tar archive

The reader over an archive of `tar_archive`, with anything behind the terminator.  Every header
sends the walk over its own data to the next header, so what the data looks like never matters.
-/

namespace VeraqisRecover.Analyze

open ByteString Checked LossyUtf8
open Tar (Entry computeChecksum paddedSize tarMember tarArchive)

namespace TarReader

/-! ## The fields of a written header -/

theorem range_eq_field {b : Bytes} {o n : ℕ} (h : o + n ≤ b.length) :
    range b o (o + n) = .ok (field b o n) := by
  rw [range_eq (Nat.le_add_right o n) h, Nat.add_sub_cancel_left]
  rfl

/-- The reader sums what the writer sums. -/
theorem unsignedChecksum_eq {b : Bytes} (hb : b.length ≤ 512) :
    unsignedChecksum b = .ok (computeChecksum b) :=
  unsignedChecksum_eq_sum hb

theorem not_isWhitespace_padded {w v : ℕ} :
    ∀ b ∈ Octal.padded w v, isWhitespace b = false := by
  intro b hb
  have hdigit := List.all_eq_true.mp (Octal.all_padded w v) b hb
  simp only [Octal.isDigit, Bool.and_eq_true, decide_eq_true_eq] at hdigit
  have hall : ∀ n < 8, isWhitespace (UInt8.ofNat (0x30 + n)) = false := by decide
  have hbyte := hall (b.toNat - 0x30) (by omega)
  rwa [Nat.add_sub_cancel' hdigit.1, UInt8.ofNat_toNat] at hbyte

theorem trim_padded (w v : ℕ) : trim (Octal.padded w v) = Octal.padded w v := by
  have hdrop : (Octal.padded w v).dropWhile isWhitespace = Octal.padded w v := by
    apply List.dropWhile_eq_self_iff.mpr
    intro hpos
    simp [not_isWhitespace_padded _ (List.getElem_mem hpos)]
  rw [trim, hdrop, List.rdropWhile_eq_self_iff]
  intro hne
  simp [not_isWhitespace_padded _ (List.getLast_mem hne)]

/-- A written number reads back, whatever follows its closing byte. -/
theorem parseOctal_padded (w : ℕ) {v : ℕ} (hv : v ≤ wordMax) {sep : UInt8}
    (hclose : (sep = 0 || sep = 0x20 : Bool) = true) (rest : Bytes) :
    parseOctal (Octal.padded w v ++ sep :: rest) = some v := by
  have hopen : ∀ b ∈ Octal.padded w v, (b ≠ 0 && b ≠ 0x20 : Bool) = true := by
    intro b hb
    simpa using Tar.not_closes_padded b hb
  have hshut : ¬ (sep ≠ 0 && sep ≠ 0x20 : Bool) = true := by
    simp only [Bool.or_eq_true, decide_eq_true_eq] at hclose
    simp only [Bool.and_eq_true, decide_eq_true_eq]
    tauto
  have htake : (Octal.padded w v ++ sep :: rest).takeWhile (fun b ↦ b ≠ 0 && b ≠ 0x20) =
      Octal.padded w v := by
    rw [List.takeWhile_append_of_pos hopen, List.takeWhile_cons, if_neg hshut, List.append_nil]
  rw [parseOctal, htake, if_neg (Octal.padded_ne_nil w v), trim_padded,
    Octal.fromStrRadix_padded w hv]

/-- The divisions by the block length round up alike. -/
theorem divCeil_block (size : ℕ) : divCeil size block * block = paddedSize size := by
  unfold divCeil paddedSize Tar.divCeil block Tar.block
  split <;> omega

/-! ## One member -/

/-- The entry a member is listed as when its header stands at `offset`. -/
def listed (m : Entry) (offset : ℕ) : ArchiveEntry where
  path := m.name
  size := m.data.length
  compressedSize := m.data.length
  offset := offset + 512
  encrypted := false
  storedCrc32 := none
  isLink := false
  linkTarget := none

theorem memberAt_header {m : Entry} (hname : Char.ofNat 0 ∉ m.name) {offset : ℕ}
    (hoffset : offset < 2 ^ 63) (first : Bool) (parse : TarParse) :
    memberAt offset m.header first parse =
      .ok ({ parse with
        magicOk := first || parse.magicOk
        entries := parse.entries ++ [listed m offset] },
        offset + 512 + paddedSize m.data.length) := by
  have hlen : m.header.length = 512 := m.length_header
  have hsmall := m.small
  have hword : m.data.length ≤ wordMax := by
    have : 8 ^ 11 ≤ wordMax := by decide
    omega
  have hsum : m.checksum ≤ wordMax := by
    have := m.checksum_lt
    have : 8 ^ 6 ≤ wordMax := by decide
    omega
  have hmagic : readMagic m.header first parse.magicOk = .ok (first || parse.magicOk) := by
    unfold readMagic magicOffset
    cases first with
    | false => rfl
    | true =>
        rw [if_pos rfl, range_eq_field (by omega), m.field_magic]
        rfl
  have hname' : parseName (field m.header 0 100) = m.name := by
    rw [m.field_name]
    exact (Entry.cstr_padded _ _).trans (Entry.cstr_asBytes hname)
  have hsize : parseOctal (field m.header 124 12) = some m.data.length := by
    rw [m.field_size]
    exact parseOctal_padded 11 hword rfl []
  have hcheck : parseOctal (field m.header 148 8) = some (computeChecksum m.header) := by
    rw [m.field_checksum, m.computeChecksum_header]
    exact parseOctal_padded 6 hsum rfl [0x20]
  have htype : index m.header 156 = .ok 0x30 := by
    have hfield := m.field_typeflag
    rw [field, List.drop_eq_getElem_cons (by omega), List.take_succ_cons] at hfield
    rw [index_eq (by omega), (List.cons.inj hfield).1]
  have hdata : paddedSize m.data.length ≤ 8 ^ 11 + 512 := by
    unfold paddedSize Tar.divCeil Tar.block
    omega
  unfold memberAt
  refine bind_eq_ok.mpr ⟨_, hmagic, ?_⟩
  refine bind_eq_ok.mpr ⟨_, range_eq_field (o := 148) (n := 8) (by omega), ?_⟩
  refine bind_eq_ok.mpr ⟨_, unsignedChecksum_eq hlen.le, ?_⟩
  refine bind_eq_ok.mpr ⟨_, range_eq_field (o := 0) (n := 100) (by omega), ?_⟩
  refine bind_eq_ok.mpr ⟨_, range_eq_field (o := 124) (n := 12) (by omega), ?_⟩
  refine bind_eq_ok.mpr ⟨_, add_eq (by unfold block; omega), ?_⟩
  refine bind_eq_ok.mpr ⟨_, htype, ?_⟩
  refine bind_eq_ok.mpr ⟨none, rfl, ?_⟩
  rw [hname', hsize, hcheck, if_pos rfl, List.append_nil, Option.getD_some]
  refine bind_eq_ok.mpr ⟨_, mul_eq (by rw [divCeil_block]; omega), ?_⟩
  rw [divCeil_block]
  refine bind_eq_ok.mpr ⟨_, add_eq (by unfold block; omega), ?_⟩
  rfl

/-! ## One turn of the walk -/

section Turn

variable {s : DataSource} {offset : ℕ} {first : Bool} {p : TarParse} {b : Bytes}

theorem blockEnd_eq (h : offset + 512 ≤ s.len) : add 64 offset block = .ok (offset + 512) := by
  have hlen := s.len_lt
  exact add_eq (by unfold block; omega)

theorem readBlock {pre rest : Bytes} (hs : s.bytes = pre ++ (b ++ rest)) (hb : b.length = 512) :
    pre.length + 512 ≤ s.len ∧ s.readExactAt pre.length block = .ok (some b) := by
  have hin : s.len = pre.length + (512 + rest.length) := by
    rw [DataSource.len, hs, List.length_append, List.length_append, hb]
  have htake : (s.bytes.drop pre.length).take block = b := by
    rw [hs, List.drop_left]
    exact (List.take_append_of_le_length hb.ge).trans (List.take_of_length_le hb.le)
  refine ⟨by omega, ?_⟩
  rw [s.readExactAt_eq (by decide), htake, if_neg (by unfold block; omega)]

/-- What the walk does with a block that it reads. -/
theorem walkFrom_read {zeroBlocks : ℕ} (hin : offset + 512 ≤ s.len)
    (hread : s.readExactAt offset block = .ok (some b)) :
    walkFrom s offset zeroBlocks first p =
      if b.all (· = 0) then
        add 32 zeroBlocks 1 >>= fun zeroBlocks ↦
          if 2 ≤ zeroBlocks then .ok { p with zeroTerminatorPresent := true }
          else walkFrom s (offset + 512) zeroBlocks first p
      else
        memberAt offset b first p >>= fun q ↦
          if s.len < q.2 then .ok { q.1 with truncated := true }
          else walkFrom s q.2 0 false q.1 := by
  conv_lhs => rw [walkFrom]
  split
  · rename_i hstop
    cases hstop.symm.trans (blockEnd_eq hin)
  · rename_i stop hstop
    obtain rfl := Except.ok.inj (hstop.symm.trans (blockEnd_eq hin))
    rw [if_neg hin.not_gt, hread]
    dsimp only
    split
    · cases add 32 zeroBlocks 1 with
      | error => rfl
      | ok zeroBlocks => rfl
    · split
      · rename_i herr
        rw [herr]
        rfl
      · rename_i hok
        rw [hok]
        rfl

/-- A block that is not zero is a header; the walk goes on behind its data. -/
theorem walkFrom_header {zeroBlocks : ℕ} (hin : offset + 512 ≤ s.len)
    (hread : s.readExactAt offset block = .ok (some b)) (hb : ¬ b.all (· = 0) = true)
    {p' : TarParse} {next : ℕ} (hmember : memberAt offset b first p = .ok (p', next))
    (hnext : next ≤ s.len) :
    walkFrom s offset zeroBlocks first p = walkFrom s next 0 false p' := by
  rw [walkFrom_read hin hread, if_neg hb, hmember]
  exact if_neg hnext.not_gt

/-- A first zero block is stepped over. -/
theorem walkFrom_zero (hin : offset + 512 ≤ s.len)
    (hread : s.readExactAt offset block = .ok (some b)) (hb : b.all (· = 0) = true) :
    walkFrom s offset 0 first p = walkFrom s (offset + 512) 1 first p := by
  rw [walkFrom_read hin hread, if_pos hb, add_eq (by decide)]
  rfl

/-- The second one in a row ends the archive. -/
theorem walkFrom_terminator (hin : offset + 512 ≤ s.len)
    (hread : s.readExactAt offset block = .ok (some b)) (hb : b.all (· = 0) = true) :
    walkFrom s offset 1 first p = .ok { p with zeroTerminatorPresent := true } := by
  rw [walkFrom_read hin hread, if_pos hb, add_eq (by decide)]
  rfl

end Turn

/-! ## A whole archive -/

def memberBytes (m : Entry) : Bytes := tarMember m.name m.data

theorem memberBytes_eq (m : Entry) : memberBytes m =
    m.header ++ (m.data ++ List.replicate (paddedSize m.data.length - m.data.length) 0) :=
  List.append_assoc _ _ _

theorem header_not_zero (m : Entry) : ¬ m.header.all (· = 0) = true := by
  have hzero : Tar.isZero m.header = false := Tar.isZero_of_hasMagic m.hasMagic_header
  rw [Tar.isZero] at hzero
  rw [hzero]
  exact Bool.false_ne_true

theorem length_memberBytes (m : Entry) :
    (memberBytes m).length = 512 + paddedSize m.data.length := by
  have hle : m.data.length ≤ paddedSize m.data.length := by
    unfold paddedSize Tar.divCeil Tar.block
    omega
  have hheader : m.header.length = 512 := m.length_header
  rw [memberBytes_eq, List.length_append, List.length_append, List.length_replicate, hheader]
  omega

/-- The entries of members that stand one after another from `offset` on. -/
def listedFrom : ℕ → List Entry → List ArchiveEntry
  | _, [] => []
  | offset, m :: ms => listed m offset :: listedFrom (offset + (memberBytes m).length) ms

def zeroBlock : Bytes := List.replicate 512 0

theorem length_zeroBlock : zeroBlock.length = 512 := List.length_replicate

theorem zeroBlock_zero : zeroBlock.all (· = 0) = true := by
  rw [List.all_eq_true]
  exact fun b hb ↦ decide_eq_true (List.eq_of_mem_replicate hb)

theorem walkFrom_zeroBlocks {s : DataSource} {pre rest : Bytes}
    (hs : s.bytes = pre ++ (zeroBlock ++ (zeroBlock ++ rest))) (first : Bool) (p : TarParse) :
    walkFrom s pre.length 0 first p = .ok { p with zeroTerminatorPresent := true } := by
  obtain ⟨hin, hread⟩ := readBlock hs length_zeroBlock
  rw [walkFrom_zero hin hread zeroBlock_zero]
  rw [← List.append_assoc] at hs
  obtain ⟨hin', hread'⟩ := readBlock hs length_zeroBlock
  rw [List.length_append, length_zeroBlock] at hin' hread'
  exact walkFrom_terminator hin' hread' zeroBlock_zero

theorem tarArchive_eq (members : List Entry) :
    tarArchive (members.map fun m ↦ (m.name, m.data)) =
      members.flatMap memberBytes ++ (zeroBlock ++ zeroBlock) := by
  have hzeros : (List.replicate (2 * Tar.block) 0 : Bytes) = zeroBlock ++ zeroBlock := by
    rw [show 2 * Tar.block = 512 + 512 from rfl, List.replicate_add]
    rfl
  rw [tarArchive, List.flatMap_map, hzeros]
  rfl

/-- Every entry tells where the data of its member is. -/
def Lists (bytes : Bytes) (e : ArchiveEntry) (m : Entry) : Prop :=
  e.path = m.name ∧ e.size = m.data.length ∧ (bytes.drop e.offset).take e.size = m.data

theorem lists_listedFrom {bytes : Bytes} {members : List Entry} {pre rest : Bytes}
    (hbytes : bytes = pre ++ (members.flatMap memberBytes ++ rest)) :
    List.Forall₂ (Lists bytes) (listedFrom pre.length members) members := by
  induction members generalizing pre with
  | nil => exact .nil
  | cons m ms ih =>
      rw [List.flatMap_cons, List.append_assoc] at hbytes
      refine .cons ⟨rfl, rfl, ?_⟩ ?_
      · have hdata : bytes.drop (pre.length + 512) = m.data ++
            (List.replicate (paddedSize m.data.length - m.data.length) 0 ++
              (ms.flatMap memberBytes ++ rest)) := by
          have hheader : m.header.length = 512 := m.length_header
          rw [hbytes, ← List.drop_drop, List.drop_left, memberBytes_eq, List.append_assoc,
            ← hheader, List.drop_left, List.append_assoc]
        change (bytes.drop (pre.length + 512)).take m.data.length = m.data
        rw [hdata, List.take_left]
      · rw [← List.append_assoc] at hbytes
        rw [← List.length_append]
        exact ih hbytes

/-- By induction on the members: the cursor stands on a header or on the terminator. -/
theorem walkFrom_archive {s : DataSource} {members : List Entry}
    (hnames : ∀ m ∈ members, Char.ofNat 0 ∉ m.name) {pre rest : Bytes}
    (hs : s.bytes = pre ++ (members.flatMap memberBytes ++ (zeroBlock ++ (zeroBlock ++ rest))))
    (first : Bool) (p : TarParse) :
    walkFrom s pre.length 0 first p = .ok { p with
      magicOk := first && !members.isEmpty || p.magicOk
      entries := p.entries ++ listedFrom pre.length members
      zeroTerminatorPresent := true } := by
  induction members generalizing pre first p with
  | nil =>
      rw [walkFrom_zeroBlocks hs, listedFrom, List.append_nil, List.isEmpty_nil, Bool.not_true,
        Bool.and_false, Bool.false_or]
  | cons m ms ih =>
      have hlen := s.len_lt
      have hnext : pre.length + 512 + paddedSize m.data.length = (pre ++ memberBytes m).length := by
        rw [List.length_append, length_memberBytes, Nat.add_assoc]
      have hbehind : s.bytes = (pre ++ memberBytes m) ++
          (ms.flatMap memberBytes ++ (zeroBlock ++ (zeroBlock ++ rest))) := by
        rw [hs, List.flatMap_cons, List.append_assoc, List.append_assoc]
      have hnext_le : (pre ++ memberBytes m).length ≤ s.len := by
        rw [DataSource.len, hbehind, @List.length_append _ (pre ++ memberBytes m)]
        exact Nat.le_add_right _ _
      have hfront : s.bytes = pre ++ (m.header ++ ((m.data ++
          List.replicate (paddedSize m.data.length - m.data.length) 0) ++
            (ms.flatMap memberBytes ++ (zeroBlock ++ (zeroBlock ++ rest))))) := by
        rw [hbehind, memberBytes_eq, List.append_assoc, List.append_assoc]
      obtain ⟨hin, hread⟩ := readBlock hfront m.length_header
      have hmember := @memberAt_header m (hnames m List.mem_cons_self) pre.length (by omega)
        first p
      rw [hnext] at hmember
      rw [walkFrom_header hin hread (header_not_zero m) hmember hnext_le,
        ih (fun m' hm' ↦ hnames m' (List.mem_cons_of_mem m hm')) hbehind]
      simp [listedFrom]

end TarReader

/-! ## What the detector says -/

theorem tarDefects_of_clean {s : DataSource} {p : TarParse} (hsums : p.checksumFailures = [])
    (hwhole : p.truncated = false) (hend : p.zeroTerminatorPresent = true) (max : ℕ) :
    tarDefects s p [] max = .ok [] := by
  unfold tarDefects
  rw [hsums, hwhole, hend]
  rfl

open TarReader in
/-- The reader lists the members of an archive as they were written, whatever their data looks
like and whatever follows, and the detector finds nothing. -/
theorem parse_tarArchive {members : List Entry} (hnames : ∀ m ∈ members, Char.ofNat 0 ∉ m.name)
    {extra : Bytes} {s : DataSource}
    (hs : s.bytes = tarArchive (members.map fun m ↦ (m.name, m.data)) ++ extra) :
    (∃ p, TarReader.parse s = .ok p ∧ p.entries = listedFrom 0 members ∧
      List.Forall₂ (Lists s.bytes) p.entries members ∧ p.checksumFailures = [] ∧
        p.truncated = false ∧ p.zeroTerminatorPresent = true) ∧
      ∀ inflate, ReportsNoDefect inflate s .tar := by
  rw [tarArchive_eq, List.append_assoc, List.append_assoc] at hs
  have hwalk := @walkFrom_archive s members hnames [] _ hs true {}
  have hlists := @lists_listedFrom s.bytes members [] _ hs
  refine ⟨⟨_, hwalk, rfl, hlists, rfl, rfl, rfl⟩, ?_⟩
  intro inflate
  refine reportsNoDefect_of_nil fun _ max ↦ bind_eq_ok.mpr ⟨_, hwalk, ?_⟩
  exact tarDefects_of_clean rfl rfl rfl max

/-- A member whose data is a block of zeros. -/
def blankMember : Entry where
  name := "blank.bin".toList
  data := List.replicate 512 0
  short := by decide
  small := by
    rw [List.length_replicate]
    decide

/-- A member whose data is an archive of that one. -/
def nestedMember : Entry where
  name := "nested.tar".toList
  data := tarArchive [(blankMember.name, blankMember.data)]
  short := by decide
  small := by decide +kernel

/-- An archive of the two with one more byte behind its end. -/
def nestedArchive : DataSource where
  bytes := tarArchive [(blankMember.name, blankMember.data),
    (nestedMember.name, nestedMember.data)] ++ [0xFF]
  addressable := by decide +kernel

theorem nestedArchive_listed :
    (∃ p, TarReader.parse nestedArchive = .ok p ∧
      p.entries = TarReader.listedFrom 0 [blankMember, nestedMember] ∧
      List.Forall₂ (TarReader.Lists nestedArchive.bytes) p.entries [blankMember, nestedMember] ∧
        p.checksumFailures = [] ∧ p.truncated = false ∧ p.zeroTerminatorPresent = true) ∧
      ∀ inflate, ReportsNoDefect inflate nestedArchive .tar :=
  parse_tarArchive (by decide) rfl

end VeraqisRecover.Analyze
