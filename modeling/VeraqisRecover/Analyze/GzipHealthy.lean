import VeraqisRecover.Analyze.Healthy
import VeraqisRecover.Gzip.Header
import VeraqisRecover.Recovery.GzHeaderAgreement

/-!
# Healthy GZIP files, analyzed

A file is any number of members one after the other.  The detector decodes the
first body it meets and holds it against the last eight bytes of the file.
-/

namespace VeraqisRecover.Analyze

open ByteString Checked Crc Gzip Recovery

/-- A member with a correct header and trailer. -/
structure GzipMember where
  header : GzHeader
  plain : Bytes
  body : Bytes
  nonempty : body ≠ []

namespace GzipMember

/-- Checksum and size of the content. -/
def trailer (m : GzipMember) : Bytes := le32 (crc32 m.plain).toNat ++ le32 m.plain.length

def bytes (m : GzipMember) : Bytes := m.header.bytes ++ (m.body ++ m.trailer)

@[simp] theorem length_trailer (m : GzipMember) : m.trailer.length = 8 := rfl

/-- The decoder returns the content of the member and stops at the end of its body. -/
def Decodes (inflate : Bytes → Bytes × Bool) (m : GzipMember) : Prop :=
  ∀ rest, inflate (m.body ++ rest) = (m.plain, true)

end GzipMember

/-- Members one after the other. -/
def gzipFile (ms : List GzipMember) : Bytes := ms.flatMap GzipMember.bytes

/-! ## The two ends of a file -/

/-- The file ends in the trailer of its last member. -/
theorem exists_gzipFile_eq (ms : List GzipMember) (hne : ms ≠ []) :
    ∃ front, gzipFile ms = front ++ (ms.getLast hne).trailer ∧
      ∃ tail, front = (ms.head hne).header.bytes ++ ((ms.head hne).body ++ tail) := by
  induction ms with
  | nil => exact absurd rfl hne
  | cons m ms ih =>
      cases ms with
      | nil =>
          refine ⟨m.header.bytes ++ m.body, ?_, [], by simp⟩
          simp [gzipFile, GzipMember.bytes]
      | cons m' ms =>
          obtain ⟨front, hfile, -⟩ := ih (List.cons_ne_nil m' ms)
          refine ⟨m.bytes ++ front, ?_, m.trailer ++ front, ?_⟩
          · rw [gzipFile, List.flatMap_cons, ← gzipFile, hfile, List.append_assoc]
            rfl
          · rw [List.head_cons, GzipMember.bytes, List.append_assoc, List.append_assoc]

/-! ## The run -/

theorem le32_mod (v : ℕ) : le32 (v % 2 ^ 32) = le32 v := by
  simp only [le32, List.cons.injEq, and_true, ← UInt8.toNat_inj, UInt8.toNat_ofNat']
  omega

/-- A file whose first member's body is `body`, with anything between that and its trailer. -/
structure Framed (s : DataSource) (h : GzHeader) (body tail : Bytes) (last : GzipMember) :
    Prop where
  bytes : s.bytes = (h.bytes ++ (body ++ tail)) ++ last.trailer
  nonempty : body ≠ []

section Run

variable {inflate : Bytes → Bytes × Bool} {s : DataSource} {h : GzHeader} {body tail : Bytes}
  {last : GzipMember}

theorem Framed.length (hf : Framed s h body tail last) :
    s.bytes.length = h.bytes.length + (body.length + tail.length) + 8 := by
  rw [hf.bytes, List.length_append, List.length_append, List.length_append]
  rfl

theorem length_header (h : GzHeader) : 10 ≤ h.bytes.length := by
  have hlen := h.length_front
  have htotal : h.bytes.length = h.front.length + h.checksumBytes.length := List.length_append
  omega

/-- The first ten bytes are those of the first header. -/
theorem Framed.head (hf : Framed s h body tail last) :
    s.bytes.take 10 = [0x1F, 0x8B, 0x08, h.flags] ++ h.stamp := by
  have hstamp := h.length_stamp
  have hsplit : s.bytes = ([0x1F, 0x8B, 0x08, h.flags] ++ h.stamp) ++
      (GzHeader.extraBytes h.extra ++ (GzHeader.zeroTerminated h.name ++
        (GzHeader.zeroTerminated h.comment ++ (h.checksumBytes ++ (body ++ (tail ++
          last.trailer)))))) := by
    rw [hf.bytes, GzHeader.bytes, GzHeader.front]
    simp only [List.append_assoc]
  rw [hsplit, List.take_left' (by simp [hstamp])]

theorem gzMagicDefect_head (hf : Framed s h body tail last) :
    gzMagicDefect (s.bytes.take 10) [] = .ok [] := by
  rw [hf.head]
  rfl

theorem gzOtherMethod_head (hf : Framed s h body tail last) :
    gzOtherMethod (s.bytes.take 10) = .ok none := by
  rw [hf.head]
  rfl

theorem Framed.at_trailer (hf : Framed s h body tail last) :
    At s.bytes (s.bytes.length - 8) last.trailer := by
  have hlen := hf.length
  have hfront : s.bytes.length - 8 = (h.bytes ++ (body ++ tail)).length := by
    rw [List.length_append, List.length_append]
    omega
  rw [hfront, hf.bytes]
  exact At.self_append _ _

/-- What the file declares about its content is what its last trailer says. -/
theorem Framed.stored (hf : Framed s h body tail last) :
    u32le s.bytes (s.bytes.length - 8 + 0) = some (crc32 last.plain).toNat ∧
      u32le s.bytes (s.bytes.length - 8 + 4) = some (last.plain.length % 2 ^ 32) := by
  obtain ⟨hcrc, hsize⟩ := At.append_iff.mp hf.at_trailer
  rw [← le32_mod last.plain.length] at hsize
  exact ⟨hcrc.u32le_le32 (crc32 last.plain).isLt,
    hsize.u32le_le32 (Nat.mod_lt _ (Nat.two_pow_pos 32))⟩

/-- The bytes handed to the decoder are the first body and all that follows up to the trailer. -/
theorem Framed.deflateBody (hf : Framed s h body tail last) :
    range s.bytes h.bytes.length (s.bytes.length - 8) = .ok (body ++ tail) := by
  have hlen := hf.length
  have hsize : s.bytes.length - 8 - h.bytes.length = (body ++ tail).length := by
    rw [List.length_append]
    omega
  rw [range_eq (by omega) (Nat.sub_le _ _), hsize, hf.bytes, List.append_assoc, List.drop_left,
    List.take_left]

/-- Past the header the run comes down to the two comparisons. -/
theorem gzDefects_eq (hf : Framed s h body tail last) {plain : Bytes}
    (hdecode : inflate (body ++ tail) = (plain, true)) (hcap : plain.length ≤ gzDecompCap) :
    gzDefects inflate s [] = gzCrcDefect s (crc32 last.plain).toNat plain [] >>=
      gzIsizeDefect s (last.plain.length % 2 ^ 32) plain := by
  have hlen := hf.length
  have hheader := length_header h
  have haddr := s.addressable
  have hbody := List.length_pos_of_ne_nil hf.nonempty
  obtain ⟨hcrc, hsize⟩ := hf.stored
  have hstart : gzBodyStart s.bytes = .ok h.bytes.length := by
    rw [GzHeader.analyze_gzBodyStart_eq haddr, hf.bytes, List.append_assoc, h.gzBodyStart_bytes]
  have hlong : ¬s.len < gzMinSize := by
    unfold DataSource.len gzMinSize
    omega
  have hrange : range s.bytes 0 (min s.bytes.length 10) = .ok (s.bytes.take 10) := by
    rw [range_eq (Nat.zero_le _) (min_le_left _ _), List.drop_zero, Nat.sub_zero,
      min_eq_right (by omega)]
  have hall : range plain 0 (min plain.length gzDecompCap) = .ok plain := by
    rw [range_eq (Nat.zero_le _) (min_le_left _ _), List.drop_zero, Nat.sub_zero,
      min_eq_left hcap, List.take_length]
  rw [gzDefects, if_neg hlong, hrange]
  change (gzMagicDefect _ _ >>= _) = _
  rw [gzMagicDefect_head hf]
  change (gzOtherMethod _ >>= _) = _
  rw [gzOtherMethod_head hf]
  change gzBodyDefects inflate s [] = _
  rw [gzBodyDefects, hstart]
  change (if _ then _ else _) = _
  rw [if_neg (by omega), gzTrailerDefects, u32Field_eq haddr hcrc]
  change (u32Field _ _ _ >>= _) = _
  rw [u32Field_eq haddr hsize]
  change (range _ _ _ >>= _) = _
  rw [hf.deflateBody]
  simp only [bind, Except.bind, hdecode, hall, not_true_eq_false, if_false]

theorem gzCrcDefect_of_eq {stored : ℕ} {plain : Bytes} (hsame : (crc32 plain).toNat = stored)
    (out : List Detected) : gzCrcDefect s stored plain out = .ok out := if_pos hsame

theorem gzCrcDefect_nil {stored : ℕ} {plain : Bytes} {out : List Detected}
    (hnil : gzCrcDefect s stored plain out = .ok []) :
    (crc32 plain).toNat = stored ∧ out = [] := by
  unfold gzCrcDefect at hnil
  dsimp only at hnil
  split at hnil
  · exact ⟨‹_›, Except.ok.inj hnil⟩
  · obtain ⟨_, -, hnil⟩ := bind_eq_ok.mp hnil
    obtain ⟨_, -, hnil⟩ := bind_eq_ok.mp hnil
    exact absurd rfl (ne_nil_of_push hnil)

theorem gzIsizeDefect_of_eq {stored : ℕ} {plain : Bytes} (hsame : plain.length % 2 ^ 32 = stored)
    (out : List Detected) : gzIsizeDefect s stored plain out = .ok out := if_pos hsame

theorem gzIsizeDefect_nil {stored : ℕ} {plain : Bytes} {out : List Detected}
    (hnil : gzIsizeDefect s stored plain out = .ok []) :
    plain.length % 2 ^ 32 = stored ∧ out = [] := by
  unfold gzIsizeDefect at hnil
  dsimp only at hnil
  split at hnil
  · exact ⟨‹_›, Except.ok.inj hnil⟩
  · obtain ⟨_, -, hnil⟩ := bind_eq_ok.mp hnil
    exact absurd rfl (ne_nil_of_push hnil)

theorem framed_reportsNoDefect_iff (hf : Framed s h body tail last) {plain : Bytes}
    (hdecode : inflate (body ++ tail) = (plain, true)) (hcap : plain.length ≤ gzDecompCap)
    (hlast : last.plain.length ≤ gzDecompCap) : ReportsNoDefect inflate s .gzip ↔
      crc32 plain = crc32 last.plain ∧ plain.length = last.plain.length := by
  have hrun := gzDefects_eq hf hdecode hcap
  have hword : gzDecompCap < 2 ^ 32 := by decide
  constructor
  · intro hhealthy
    have hnil : gzDefects inflate s [] = .ok [] := hhealthy.capped none
    rw [hrun] at hnil
    obtain ⟨out, hcrc, hsize⟩ := bind_eq_ok.mp hnil
    obtain ⟨hlength, rfl⟩ := gzIsizeDefect_nil hsize
    rw [Nat.mod_eq_of_lt (by omega), Nat.mod_eq_of_lt (by omega)] at hlength
    exact ⟨BitVec.toNat_injective (gzCrcDefect_nil hcrc).1, hlength⟩
  · rintro ⟨hcrc, hsize⟩
    refine reportsNoDefect_of_nil fun wal max ↦ ?_
    change gzDefects inflate s [] = .ok []
    rw [hrun, gzCrcDefect_of_eq (by rw [hcrc])]
    exact gzIsizeDefect_of_eq (by rw [hsize]) []

end Run

/-! ## Any number of members -/

theorem length_le_cap {ms : List GzipMember}
    (hcap : (ms.map (·.plain.length)).sum < gzDecompCap) {m : GzipMember} (hm : m ∈ ms) :
    m.plain.length ≤ gzDecompCap :=
  (List.single_le_sum (fun _ _ ↦ Nat.zero_le _) _ (List.mem_map_of_mem hm)).trans hcap.le

theorem gzipFile_iff {inflate : Bytes → Bytes × Bool} {ms : List GzipMember} (hne : ms ≠ [])
    (hdecodes : ∀ m ∈ ms, m.Decodes inflate)
    (hcap : (ms.map (·.plain.length)).sum < gzDecompCap) {s : DataSource}
    (hs : s.bytes = gzipFile ms) : ReportsNoDefect inflate s .gzip ↔
      crc32 (ms.head hne).plain = crc32 (ms.getLast hne).plain ∧
        (ms.head hne).plain.length = (ms.getLast hne).plain.length := by
  obtain ⟨front, hfile, tail, hfront⟩ := exists_gzipFile_eq ms hne
  have hf : Framed s (ms.head hne).header (ms.head hne).body tail (ms.getLast hne) :=
    ⟨by rw [hs, hfile, hfront], (ms.head hne).nonempty⟩
  exact framed_reportsNoDefect_iff hf (hdecodes _ (List.head_mem hne) tail)
    (length_le_cap hcap (List.head_mem hne)) (length_le_cap hcap (List.getLast_mem hne))

/-- A file of members is reported healthy just when its first and its last member have the same
checksum and the same size, as they do when there is only one. -/
theorem gzipFile_reportsNoDefect_iff {inflate : Bytes → Bytes × Bool} {ms : List GzipMember}
    (hne : ms ≠ []) (hdecodes : ∀ m ∈ ms, m.Decodes inflate)
    (hcap : (ms.map (·.plain.length)).sum < gzDecompCap) (s : DataSource)
    (hs : s.bytes = gzipFile ms) : ReportsNoDefect inflate s .gzip ↔
      crc32 (ms.head hne).plain = crc32 (ms.getLast hne).plain ∧
        (ms.head hne).plain.length = (ms.getLast hne).plain.length :=
  gzipFile_iff hne hdecodes hcap hs

/-- The header a plain encoder writes. -/
def plainHeader : GzHeader where
  text := false
  stamp := [0, 0, 0, 0, 0, 0xFF]
  extra := none
  name := none
  comment := none
  checksum := false
  length_stamp := rfl
  extra_fits := by simp
  name_ends := by simp
  comment_ends := by simp

/-- One byte in a final stored block. -/
def letterOf (b : UInt8) : GzipMember := ⟨plainHeader, [b], [1, 1, 0, 0xFE, 0xFF, b], by simp⟩

/-- Decodes a final stored block and stops behind it. -/
def storedBlock (d : Bytes) : Bytes × Bool :=
  match d with
  | 1 :: rest =>
      match u16le rest 0 with
      | some size => ((rest.drop 4).take size, decide (4 + size ≤ rest.length))
      | none => ([], false)
  | _ => ([], false)

theorem letterOf_decodes (b : UInt8) : (letterOf b).Decodes storedBlock := by
  intro rest
  change ([b], decide (4 + 1 ≤ rest.length + 5)) = _
  rw [decide_eq_true (by omega)]
  rfl

/-- A file of the two members as a source. -/
def letterPair (b b' : UInt8) : DataSource where
  bytes := gzipFile [letterOf b, letterOf b']
  addressable := by
    change 48 < 2 ^ 63
    decide

theorem twiceLetter_reportsNoDefect :
    ReportsNoDefect storedBlock (letterPair 0x61 0x61) .gzip ↔
      crc32 [0x61] = crc32 [0x61] ∧ [(0x61 : UInt8)].length = [(0x61 : UInt8)].length :=
  gzipFile_reportsNoDefect_iff (List.cons_ne_nil _ _)
    (by simp [letterOf_decodes]) (by decide) (letterPair 0x61 0x61) rfl

/-- Two different letters have different checksums. -/
theorem letterPair_not_reportsNoDefect :
    ¬ReportsNoDefect storedBlock (letterPair 0x61 0x62) .gzip := by
  intro hhealthy
  obtain ⟨hcrc, -⟩ := (gzipFile_iff (List.cons_ne_nil _ _) (by simp [letterOf_decodes])
    (by decide) rfl).mp hhealthy
  have hdiff : crc32 [0x61] ≠ crc32 [0x62] := by decide
  exact hdiff hcrc

end VeraqisRecover.Analyze
