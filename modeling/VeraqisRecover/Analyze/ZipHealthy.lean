import VeraqisRecover.Analyze.DirectoryAgreement
import VeraqisRecover.Analyze.EocdLocators
import VeraqisRecover.Analyze.Healthy
import VeraqisRecover.Crc.Agreement
import VeraqisRecover.Zip.StoredCodec
import VeraqisRecover.Zip.Streamed

/-!
# Healthy archives, analyzed

What the detector makes of an archive the encoders wrote.  Its size check
compares the directory with the local header, which a streamed part leaves
zero.
-/

namespace VeraqisRecover.Analyze

open ByteString Checked LossyUtf8 LastIndex Zip

/-! ## Reading fields and slices -/

theorem u16le_slice {d : Bytes} {o n k : ℕ} (hk : k + 2 ≤ n) :
    u16le ((d.drop o).take n) k = u16le d (o + k) := by
  refine u16le_congr fun j hj ↦ ?_
  rw [List.getElem?_take_of_lt (by omega), List.getElem?_drop, Nat.add_assoc]

theorem u32le_slice {d : Bytes} {o n k : ℕ} (hk : k + 4 ≤ n) :
    u32le ((d.drop o).take n) k = u32le d (o + k) := by
  refine u32le_congr fun j hj ↦ ?_
  rw [List.getElem?_take_of_lt (by omega), List.getElem?_drop, Nat.add_assoc]

theorem readExactAt_inside (s : DataSource) {o n : ℕ} (h : o + n ≤ s.bytes.length) :
    s.readExactAt o n = .ok (some ((s.bytes.drop o).take n)) := by
  have haddr := s.addressable
  have hlen : ((s.bytes.drop o).take n).length = n := by
    rw [List.length_take, List.length_drop]
    omega
  rw [s.readExactAt_eq (by omega), if_neg (by omega)]

theorem le16_mod (v : ℕ) : le16 (v % 65536) = le16 v := by
  have hlow : UInt8.ofNat (v % 65536) = UInt8.ofNat v := by
    rw [← UInt8.toNat_inj, UInt8.toNat_ofNat', UInt8.toNat_ofNat']
    omega
  have hhigh : UInt8.ofNat (v % 65536 / 256) = UInt8.ofNat (v / 256) := by
    rw [← UInt8.toNat_inj, UInt8.toNat_ofNat', UInt8.toNat_ofNat']
    omega
  rw [le16, le16, hlow, hhigh]

theorem take_drop_of_at {d b : Bytes} {o : ℕ} (h : At d o b) : (d.drop o).take b.length = b := by
  obtain ⟨rest, hrest⟩ := h
  rw [← hrest, List.take_left]

/-! ## One member -/

/-- The checksum of the bytes that stand at the cursor, whatever the chunks they come in. -/
theorem crcFrom_eq (s : DataSource) {b : Bytes} {cursor : ℕ} (c : Crc.Crc32)
    (h : At s.bytes cursor b) (hroom : cursor + b.length ≤ s.bytes.length) :
    crcFrom s cursor b.length c = .ok (some (c.update b)) := by
  have haddr := s.addressable
  generalize hn : b.length = n at hroom
  induction n using Nat.strong_induction_on generalizing b cursor c with
  | _ n ih =>
      rw [crcFrom]
      split
      · rename_i hzero
        rw [hzero] at hn
        rw [List.eq_nil_of_length_eq_zero hn]
        rfl
      · rename_i hpos
        obtain ⟨rest, hrest⟩ := h
        have hchunk : (s.bytes.drop cursor).take (min n (64 * 1024)) =
            b.take (min n (64 * 1024)) := by
          rw [← hrest, List.take_append_of_le_length (by omega)]
        have hlen : (b.take (min n (64 * 1024))).length = min n (64 * 1024) := by
          rw [List.length_take]
          omega
        have hnext : At s.bytes (cursor + min n (64 * 1024)) (b.drop (min n (64 * 1024))) := by
          refine ⟨rest, ?_⟩
          rw [← List.drop_drop, ← hrest, List.drop_append_of_le_length (by omega)]
        have hleft : (b.drop (min n (64 * 1024))).length = n - min n (64 * 1024) := by
          rw [List.length_drop, hn]
        have htail := ih _ (by omega) (c.update (b.take (min n (64 * 1024)))) hnext hleft (by omega)
        rw [Crc.Crc32.update_append, List.take_append_drop] at htail
        rw [s.readAt_eq, hchunk]
        dsimp only
        rw [hlen, if_neg (by omega), add_eq (by omega)]
        dsimp only
        split
        · rename_i f hsub
          rw [sub_eq (by omega)] at hsub
          cases hsub
        · rename_i left hsub
          obtain ⟨-, rfl⟩ := sub_eq_ok hsub
          exact htail

/-- What the analyzer has of a part, whichever way it was written. -/
structure Describes (fl : Flate2) (m : ArchiveEntry × ℕ) (q : MixedPart × ℕ) : Prop where
  offset : m.1.offset = q.2
  compressedSize : m.1.compressedSize = (q.1.part.payload fl).length
  crc : m.1.storedCrc32 = some (q.1.part.crc fl)
  method : m.2 = q.1.part.method fl

section Member

variable {fl : Flate2} {s : DataSource} {m : ArchiveEntry × ℕ} {q : MixedPart × ℕ}

theorem lfhCompressedSize_eq (hm : Describes fl m q) (h : MixedHeaderAt fl s.bytes q.2 q.1) :
    lfhCompressedSize s m.1 = .ok (some (q.1.headerSize fl)) := by
  have hroom := h.room
  have hread := readExactAt_inside s (show q.2 + 22 ≤ s.bytes.length by omega)
  have hlen : ((s.bytes.drop q.2).take 22).length = 22 := by
    rw [List.length_take, List.length_drop]
    omega
  have hcomp : u32le ((s.bytes.drop q.2).take 22) 18 = some (q.1.headerSize fl) :=
    (u32le_slice (by decide)).trans h.comp
  rw [lfhCompressedSize, hm.offset, hread]
  change (if ((s.bytes.drop q.2).take 22).length < 22 then _ else _) = _
  rw [if_neg (by omega), leAt_of_u32le hcomp]
  rfl

theorem storedMemberCrc_eq (h : MixedHeaderAt fl s.bytes q.2 q.1) :
    storedMemberCrc s q.2 (q.1.part.payload fl).length =
      .ok (some (q.2 + 30 + q.1.part.rawName.length,
        (Crc.crc32 (q.1.part.payload fl)).toNat)) := by
  have haddr := s.addressable
  have hroom := h.room
  have hread := readExactAt_inside s (show q.2 + 30 ≤ s.bytes.length by omega)
  have hname : u16le ((s.bytes.drop q.2).take 30) 26 = some q.1.part.rawName.length :=
    (u16le_slice (by decide)).trans h.nameLen
  have hextra : u16le ((s.bytes.drop q.2).take 30) 28 = some 0 :=
    (u16le_slice (by decide)).trans h.extraLen
  have hcrc := crcFrom_eq s Crc.Crc32.new h.payload hroom
  simp only [storedMemberCrc, hread, leAt_of_u16le hname, leAt_of_u16le hextra, bind, Except.bind,
    add_eq (show q.2 + 30 < 2 ^ 64 by omega),
    add_eq (show q.2 + 30 + q.1.part.rawName.length < 2 ^ 64 by omega),
    add_eq (show q.2 + 30 + q.1.part.rawName.length + 0 < 2 ^ 64 by omega), Nat.add_zero, hcrc]
  rfl

/-- A stored part has its own checksum in the directory. -/
theorem zipStoredDefect_eq (hcrc : ∀ d, (fl.crc32 d).toBitVec = Crc.crc32 d)
    (hm : Describes fl m q) (h : MixedHeaderAt fl s.bytes q.2 q.1) :
    zipStoredDefect s m.1 m.2 = .ok none := by
  unfold zipStoredDefect
  split
  · rfl
  · rename_i hstored
    rw [hm.method] at hstored
    have hplain : q.1.part.payload fl = q.1.part.data := by
      unfold Part.method Part.payload at *
      cases hdeflates : q.1.part.deflates fl with
      | false => rfl
      | true => simp [hdeflates] at hstored
    have hsame : (Crc.crc32 (q.1.part.payload fl)).toNat = q.1.part.crc fl := by
      rw [hplain, ← hcrc]
      rfl
    rw [hm.crc]
    dsimp only
    rw [hm.offset, hm.compressedSize, storedMemberCrc_eq h, hsame]
    exact if_pos rfl

/-- The zero a streamed part has in its local header is taken for its size. -/
theorem zipMemberDefect_eq_none_iff (hcrc : ∀ d, (fl.crc32 d).toBitVec = Crc.crc32 d)
    (hm : Describes fl m q) (h : MixedHeaderAt fl s.bytes q.2 q.1) :
    zipMemberDefect s m.1 m.2 = .ok none ↔ (q.1.streamed = true → q.1.part.payload fl = []) := by
  have hsize : q.1.headerSize fl = (q.1.part.payload fl).length ↔
      (q.1.streamed = true → q.1.part.payload fl = []) := by
    unfold MixedPart.headerSize
    cases q.1.streamed with
    | false => simp
    | true =>
        rw [if_pos rfl, eq_comm, List.length_eq_zero_iff]
        simp
  rw [zipMemberDefect, lfhCompressedSize_eq hm h, ← hsize, ← hm.compressedSize]
  change (if _ then _ else _) = _ ↔ _
  split
  · rename_i hsame
    exact iff_of_true (zipStoredDefect_eq hcrc hm h) hsame
  · rename_i hne
    refine iff_of_false (fun hnone ↦ ?_) hne
    obtain ⟨d, -, hd⟩ := bind_eq_ok.mp hnone
    cases hd

end Member

/-! ## The directory -/

/-- The written records from the front on, each as the analyzer has it. -/
theorem centralFrom_dirBytes {rs : List DirRecord} (hfits : ∀ r ∈ rs, r.Fits)
    (pre : List DirRecord) (members : List (ArchiveEntry × ℕ))
    (haddr : (dirBytes (pre ++ rs)).length < 2 ^ 63) :
    ∃ ms, ZipReader.centralFrom (dirBytes (pre ++ rs)) (dirBytes pre).length members =
        .ok (members ++ ms) ∧
      List.Forall₂ (fun m r ↦ m.1.offset = r.lho ∧ m.1.compressedSize = r.comp ∧
        m.1.storedCrc32 = some r.crc ∧ m.2 = r.method) ms rs := by
  induction rs generalizing pre members with
  | nil =>
      have hno : ¬FixedPart (dirBytes (pre ++ [])) (dirBytes pre).length := by
        intro h
        have hroom := h.1
        rw [List.append_nil] at hroom
        omega
      refine ⟨[], ?_, .nil⟩
      rw [List.append_nil] at haddr
      rw [centralFrom_eq members (by rwa [List.append_nil]) (by omega), if_pos (.inl hno),
        List.append_nil]
  | cons r rs ih =>
      have hsplit : pre ++ r :: rs = (pre ++ [r]) ++ rs := by simp
      have hat : At (dirBytes (pre ++ r :: rs)) (dirBytes pre).length r.bytes := by
        rw [dirBytes_append, dirBytes_cons]
        exact (At.append_iff.mp (At.self_append _ _)).1
      have hread := DirRecord.readAt hat (hfits r List.mem_cons_self)
      have hlen : (dirBytes pre).length + 46 + r.name.length ≤
          (dirBytes (pre ++ r :: rs)).length := by
        rw [dirBytes_append, dirBytes_cons, List.length_append, List.length_append,
          DirRecord.length_bytes]
        omega
      have hname : u16At (dirBytes (pre ++ r :: rs)) ((dirBytes pre).length + 28) =
          r.name.length := by rw [u16At, hread.nameLen, Option.getD_some]
      have hfix : FixedPart (dirBytes (pre ++ r :: rs)) (dirBytes pre).length :=
        ⟨by omega, hread.sig⟩
      have hend : recordEnd (dirBytes (pre ++ r :: rs)) (dirBytes pre).length =
          (dirBytes (pre ++ [r])).length := by
        rw [recordEnd, nameEnd, hname, u16At, hread.extraLen, u16At, hread.commentLen,
          dirBytes_append, List.length_append, dirBytes_cons, List.length_append,
          DirRecord.length_bytes]
        simp [dirBytes]
        omega
      have hinside : ¬(dirBytes (pre ++ r :: rs)).length <
          nameEnd (dirBytes (pre ++ r :: rs)) (dirBytes pre).length := by
        rw [nameEnd, hname]
        omega
      rw [centralFrom_eq members haddr (by omega),
        if_neg (not_or.mpr ⟨not_not.mpr hfix, hinside⟩), hend]
      generalize hmember : (memberAt (dirBytes (pre ++ r :: rs)) (dirBytes pre).length,
        u16At (dirBytes (pre ++ r :: rs)) ((dirBytes pre).length + 10)) = member
      have hsame : member.1.offset = r.lho ∧ member.1.compressedSize = r.comp ∧
          member.1.storedCrc32 = some r.crc ∧ member.2 = r.method := by
        rw [← hmember]
        simp only [memberAt, u16At, u32At, hread.lho, hread.comp, hread.crc, hread.method,
          Option.getD_some, and_self]
      rw [hsplit] at haddr ⊢
      obtain ⟨ms, hms, hall⟩ := ih (fun r' hr' ↦ hfits r' (List.mem_cons_of_mem r hr'))
        (pre ++ [r]) (members ++ [member]) haddr
      refine ⟨member :: ms, ?_, .cons hsame hall⟩
      rw [hms, List.append_assoc]
      rfl

/-- A property of the one list, read off the other. -/
theorem forall_mem_iff_of_forall₂ {α β : Type} {R : α → β → Prop} {P : α → Prop} {Q : β → Prop}
    {as : List α} {bs : List β} (h : List.Forall₂ R as bs)
    (hiff : ∀ a, ∀ b ∈ bs, R a b → (P a ↔ Q b)) : (∀ a ∈ as, P a) ↔ ∀ b ∈ bs, Q b := by
  induction h with
  | nil => simp
  | @cons a b as bs hab hrest ih =>
      rw [List.forall_mem_cons, List.forall_mem_cons, hiff a b List.mem_cons_self hab,
        ih fun a' b' hb' ↦ hiff a' b' (List.mem_cons_of_mem b hb')]

theorem localHeadersOk_of (s : DataSource) {entries : List ArchiveEntry}
    (h : ∀ e ∈ entries, u32le s.bytes e.offset = some Zip.lfhSig) :
    ZipReader.localHeadersOk s entries = .ok true := by
  induction entries with
  | nil => rfl
  | cons e rest ih =>
      have hsig := h e List.mem_cons_self
      have hroom := le_length_of_u32le hsig
      have hlen : ((s.bytes.drop e.offset).take 4).length = 4 := by
        rw [List.length_take, List.length_drop]
        omega
      have hfield : u32le ((s.bytes.drop e.offset).take 4) 0 = some Zip.lfhSig :=
        (u32le_slice (by decide)).trans hsig
      rw [ZipReader.localHeadersOk, s.readAt_eq]
      change (if _ then _ else _) = _
      rw [if_neg (by omega), leAt_of_u32le hfield]
      exact ih fun e' he' ↦ h e' (List.mem_cons_of_mem e he')

/-! ## The archive -/

/-- Names, sizes and offsets the format's fields hold. -/
structure MixedFits (fl : Flate2) (ms : List MixedPart) : Prop where
  names : ∀ m ∈ ms, m.part.rawName.length < 2 ^ 16
  data : ∀ m ∈ ms, m.part.data.length < 2 ^ 32
  records : (mixedRecords fl ms).length < 2 ^ 32
  directory : (mixedCentralRecords fl 0 ms).length < 2 ^ 32

/-- The end record of the archive. -/
def mixedEnd (fl : Flate2) (ms : List MixedPart) : Bytes :=
  endRecord ms.length (mixedCentralRecords fl 0 ms).length (mixedRecords fl ms).length

section Archive

variable {fl : Flate2} {ms : List MixedPart} {s : DataSource}

theorem length_archive (hs : s.bytes = mixedZip fl ms) : s.bytes.length =
    (mixedRecords fl ms).length + (mixedCentralRecords fl 0 ms).length + 22 := by
  rw [hs, mixedZip, List.length_append, List.length_append]
  rfl

theorem at_records (hs : s.bytes = mixedZip fl ms) : At s.bytes 0 (mixedRecords fl ms) := by
  rw [hs]
  exact (At.extend (show At (mixedRecords fl ms) 0 (mixedRecords fl ms) from List.prefix_rfl)
    _).extend _

theorem at_directory (hs : s.bytes = mixedZip fl ms) :
    At s.bytes (mixedRecords fl ms).length (mixedCentralRecords fl 0 ms) := by
  rw [hs]
  exact (At.self_append _ _).extend _

theorem at_end (hs : s.bytes = mixedZip fl ms) : At s.bytes ((mixedRecords fl ms).length +
    (mixedCentralRecords fl 0 ms).length) (mixedEnd fl ms) := by
  rw [hs, ← List.length_append]
  exact At.self_append _ _

theorem mixedHeaderAt_placed (hf : MixedFits fl ms) (hs : s.bytes = mixedZip fl ms)
    {q : MixedPart × ℕ} (hq : q ∈ mixedPlaced fl 0 ms) : MixedHeaderAt fl s.bytes q.2 q.1 := by
  have hmem := (mem_mixedPlaced hq).1
  have hpayload := payload_le fl q.1.part
  have hdata := hf.data q.1 hmem
  exact mixedHeaderAt (at_record (at_records hs) hq) (hf.names q.1 hmem) (by omega)

theorem dirRecord_fits (hf : MixedFits fl ms) :
    ∀ r ∈ mixedDirRecords fl 0 ms, r.Fits := by
  intro r hr
  obtain ⟨q, hq, rfl⟩ := List.mem_map.mp hr
  obtain ⟨hmem, -, hend⟩ := mem_mixedPlaced hq
  have hrecords := hf.records
  have hpayload := payload_le fl q.1.part
  have hdata := hf.data q.1 hmem
  refine ⟨?_, q.1.part.method_lt, q.1.part.crc_lt, ?_, hdata, hf.names q.1 hmem, ?_⟩
  · change (if q.1.streamed then 0x0008 else 0) < 2 ^ 16
    split <;> decide
  · change (q.1.part.payload fl).length < 2 ^ 32
    omega
  · change q.2 < 2 ^ 32
    omega

theorem startsWithHeader_directory (hf : MixedFits fl ms) (hne : ms ≠ []) :
    ZipReader.startsWithHeader (mixedCentralRecords fl 0 ms) = .ok true := by
  have hsize := hf.directory
  have hfits := dirRecord_fits hf
  have hcount := @length_mixedDirRecords fl 0 ms
  rw [mixedCentralRecords_eq] at hsize ⊢
  cases hrs : mixedDirRecords fl 0 ms with
  | nil =>
      rw [hrs] at hcount
      exact absurd (List.eq_nil_of_length_eq_zero hcount.symm) hne
  | cons r rs =>
      rw [hrs] at hsize hfits
      have hat : At (dirBytes (r :: rs)) 0 r.bytes := List.prefix_append _ _
      have hsig : u32le (dirBytes (r :: rs)) (0 + 0) = some ZipReader.cdfhSig :=
        (DirRecord.readAt hat (hfits r List.mem_cons_self)).sig
      have hroom := le_length_of_u32le hsig
      rw [ZipReader.startsWithHeader, if_pos (by omega), u32Field_eq (by omega) hsig]
      rfl

/-- The directory is read back, each record as its part. -/
theorem readCentralDirectory_eq (hf : MixedFits fl ms) (hs : s.bytes = mixedZip fl ms)
    (hne : ms ≠ []) : ∃ members, ZipReader.readCentralDirectory s (mixedRecords fl ms).length
        (mixedCentralRecords fl 0 ms).length = .ok (true, members.unzip) ∧
      List.Forall₂ (Describes fl) members (mixedPlaced fl 0 ms) := by
  have hlen := length_archive hs
  have hsize := hf.directory
  have hread := readExactAt_inside s (show (mixedRecords fl ms).length +
    (mixedCentralRecords fl 0 ms).length ≤ s.bytes.length by omega)
  rw [take_drop_of_at (at_directory hs)] at hread
  obtain ⟨members, hwalk, hall⟩ := centralFrom_dirBytes (dirRecord_fits hf) [] []
    (by rw [List.nil_append, ← mixedCentralRecords_eq]; omega)
  rw [List.nil_append, ← mixedCentralRecords_eq, List.nil_append] at hwalk
  change ZipReader.centralFrom (mixedCentralRecords fl 0 ms) 0 [] = .ok members at hwalk
  have hstart := startsWithHeader_directory hf hne
  refine ⟨members, ?_, ?_⟩
  · have hinside : (mixedRecords fl ms).length < s.len := by
      unfold DataSource.len
      omega
    rw [ZipReader.readCentralDirectory, if_pos hinside, hread]
    change (ZipReader.startsWithHeader _ >>= _) = _
    rw [hstart]
    change ((ZipReader.centralFrom _ 0 [] >>= _) >>= _) = _
    rw [hwalk]
    rfl
  · rw [mixedDirRecords, List.forall₂_map_right_iff] at hall
    exact hall.imp fun m q h ↦ ⟨h.1, h.2.1, h.2.2.1, h.2.2.2⟩

/-- No signature stands in the end record behind the one it begins with. -/
def EndClear (fl : Flate2) (ms : List MixedPart) : Prop :=
  ∀ i, 0 < i → u32le (mixedEnd fl ms) i ≠ some Zip.eocdSig

theorem eocdAt_end (hs : s.bytes = mixedZip fl ms) {i : ℕ} (hi : i + 4 ≤ 22) :
    eocdAt s.bytes ((mixedRecords fl ms).length + (mixedCentralRecords fl 0 ms).length + i) =
      decide (u32le (mixedEnd fl ms) i = some Zip.eocdSig) := by
  rw [eocdAt, (at_end hs).u32le hi]

theorem eocdAt_start (hs : s.bytes = mixedZip fl ms) : eocdAt s.bytes
    ((mixedRecords fl ms).length + (mixedCentralRecords fl 0 ms).length) = true := by
  have hat : At s.bytes ((mixedRecords fl ms).length + (mixedCentralRecords fl 0 ms).length)
      (le32 Zip.eocdSig) := by
    have hend := at_end hs
    simp only [mixedEnd, endRecord, List.append_assoc, At.le32_append_iff] at hend
    exact hend.1
  exact decide_eq_true (hat.u32le_le32 (by decide))

/-- The search ends at the end record, or at a signature inside it. -/
theorem lastIndex_eocd (hs : s.bytes = mixedZip fl ms) :
    ∃ i, i + 4 ≤ 22 ∧ lastIndex (eocdAt s.bytes) (s.bytes.length - 65557) (s.bytes.length - 3) =
        some ((mixedRecords fl ms).length + (mixedCentralRecords fl 0 ms).length + i) ∧
      (EndClear fl ms ↔ i = 0) := by
  have hlen := length_archive hs
  obtain ⟨j, hj, hle⟩ := lastIndex_complete
    (show s.bytes.length - 65557 ≤
      (mixedRecords fl ms).length + (mixedCentralRecords fl 0 ms).length by omega)
    (show _ < s.bytes.length - 3 by omega) (eocdAt_start hs)
  obtain ⟨i, rfl⟩ := Nat.exists_eq_add_of_le hle
  obtain ⟨hstart, hstop, hsig⟩ := lastIndex_sound hj
  have hi : i + 4 ≤ 22 := by omega
  refine ⟨i, hi, hj, fun hclear ↦ ?_, ?_⟩
  · rw [eocdAt_end hs hi] at hsig
    by_contra hpos
    exact hclear i (Nat.pos_of_ne_zero hpos) (of_decide_eq_true hsig)
  · rintro rfl k hk hinside
    -- a signature behind the start would have been found before it
    have hroom : k + 4 ≤ 22 := le_length_of_u32le hinside
    have hat := (eocdAt_end hs hroom).trans (decide_eq_true hinside)
    obtain ⟨j', hj', hle'⟩ := lastIndex_complete (show s.bytes.length - 65557 ≤
      (mixedRecords fl ms).length + (mixedCentralRecords fl 0 ms).length + k by omega)
      (show _ < s.bytes.length - 3 by omega) hat
    have hsame := Option.some.inj (hj.symm.trans hj')
    omega

theorem mixedEnd_fields (hf : MixedFits fl ms) :
    u16le (mixedEnd fl ms) 10 = some (ms.length % 65536) ∧
      u32le (mixedEnd fl ms) 12 = some (mixedCentralRecords fl 0 ms).length ∧
      u32le (mixedEnd fl ms) 16 = some (mixedRecords fl ms).length := by
  have h : At (mixedEnd fl ms) 0 (endRecord ms.length (mixedCentralRecords fl 0 ms).length
    (mixedRecords fl ms).length) := List.prefix_rfl
  rw [endRecord] at h
  simp only [List.append_assoc, At.le16_append_iff, At.le32_append_iff] at h
  obtain ⟨-, -, -, -, h₁₀, h₁₂, h₁₆, -⟩ := h
  rw [← le16_mod ms.length] at h₁₀
  exact ⟨h₁₀.u16le_le16 (Nat.mod_lt _ (by decide)), h₁₂.u32le_le32 hf.directory,
    h₁₆.u32le_le32 hf.records⟩

theorem drop_end (hs : s.bytes = mixedZip fl ms) : s.bytes.drop ((mixedRecords fl ms).length +
    (mixedCentralRecords fl 0 ms).length) = mixedEnd fl ms := by
  have hsplit : s.bytes = (mixedRecords fl ms ++ mixedCentralRecords fl 0 ms) ++ mixedEnd fl ms :=
    hs
  rw [hsplit, ← List.length_append, List.drop_left]

/-- A signature inside the end record hides the directory. -/
theorem parse_hidden (hs : s.bytes = mixedZip fl ms) (h : ¬EndClear fl ms) :
    ∃ o, ZipReader.parse s = .ok { eocdOffset := some o } := by
  have hlen := length_archive hs
  obtain ⟨i, hi, hlast, hclear⟩ := lastIndex_eocd hs
  have hpos : i ≠ 0 := fun hzero ↦ h (hclear.mpr hzero)
  have hshort : (s.bytes.drop ((mixedRecords fl ms).length +
      (mixedCentralRecords fl 0 ms).length + i)).length < ZipReader.eocdMinLen := by
    rw [List.length_drop]
    unfold ZipReader.eocdMinLen
    omega
  refine ⟨(mixedRecords fl ms).length + (mixedCentralRecords fl 0 ms).length + i, ?_⟩
  rw [parse_eq s (by unfold DataSource.len; omega), hlast]
  exact if_pos hshort

theorem parse_archive (hf : MixedFits fl ms) (hs : s.bytes = mixedZip fl ms) (hne : ms ≠ [])
    (h : EndClear fl ms) : ∃ o members, ZipReader.parse s = .ok {
        eocdOffset := some o
        declaredEntries := ms.length % 65536
        cdOffset := (mixedRecords fl ms).length
        cdPresent := true
        localHeadersOk := true
        entries := members.unzip.1
        methods := members.unzip.2 } ∧
      List.Forall₂ (Describes fl) members (mixedPlaced fl 0 ms) := by
  have hlen := length_archive hs
  obtain ⟨i, -, hlast, hclear⟩ := lastIndex_eocd hs
  obtain rfl := hclear.mp h
  obtain ⟨members, hread, hall⟩ := readCentralDirectory_eq hf hs hne
  obtain ⟨hcount, hsize, hoffset⟩ := mixedEnd_fields hf
  have hheaders : ZipReader.localHeadersOk s members.unzip.1 = .ok true := by
    apply localHeadersOk_of
    have hiff := forall_mem_iff_of_forall₂
      (P := fun m ↦ u32le s.bytes m.1.offset = some Zip.lfhSig) (Q := fun _ ↦ True) hall
      fun m q hq hm ↦ iff_of_true
        ((congrArg (u32le s.bytes) hm.offset).trans (mixedHeaderAt_placed hf hs hq).sig) trivial
    intro e he
    rw [List.unzip_fst] at he
    obtain ⟨m, hm, rfl⟩ := List.mem_map.mp he
    exact hiff.mpr (fun _ _ ↦ trivial) m hm
  refine ⟨(mixedRecords fl ms).length + (mixedCentralRecords fl 0 ms).length, members, ?_, hall⟩
  have hend : (mixedEnd fl ms).length = 22 := rfl
  have haddr : (mixedEnd fl ms).length < 2 ^ 63 := by omega
  have hwhole : ¬(mixedEnd fl ms).length < ZipReader.eocdMinLen := by
    rw [hend]
    decide
  rw [parse_eq s (by unfold DataSource.len; omega), hlast]
  dsimp only
  rw [Nat.add_zero, drop_end hs, if_neg hwhole, u16Field_eq haddr hcount]
  change (u32Field _ _ _ >>= _) = _
  rw [u32Field_eq haddr hsize]
  change (u32Field _ _ _ >>= _) = _
  rw [u32Field_eq haddr hoffset]
  change (ZipReader.readCentralDirectory _ _ _ >>= _) = _
  rw [hread]
  change (ZipReader.localHeadersOk _ _ >>= _) = _
  rw [hheaders]
  rfl

/-- What the encoders' archives need to be reported healthy. -/
structure HealthyParts (fl : Flate2) (ms : List MixedPart) : Prop where
  count : ms.length < 65536
  streamed : ∀ m ∈ ms, m.streamed = true → m.part.payload fl = []
  endClear : EndClear fl ms

theorem not_sound_of_hidden {o : ℕ} : ¬SoundZip s { eocdOffset := some o } := fun h ↦
  Bool.false_ne_true h.directory

theorem sound_archive_iff (hcrc : ∀ d, (fl.crc32 d).toBitVec = Crc.crc32 d)
    (hf : MixedFits fl ms) (hs : s.bytes = mixedZip fl ms) {o cdOffset : ℕ}
    {members : List (ArchiveEntry × ℕ)} (hall : List.Forall₂ (Describes fl) members
      (mixedPlaced fl 0 ms)) : SoundZip s {
        eocdOffset := some o
        declaredEntries := ms.length % 65536
        cdOffset
        cdPresent := true
        localHeadersOk := true
        entries := members.unzip.1
        methods := members.unzip.2 } ↔
      ms.length < 65536 ∧ ∀ m ∈ ms, m.streamed = true → m.part.payload fl = [] := by
  have hlength : members.unzip.1.length = ms.length := by
    rw [List.unzip_fst, List.length_map, hall.length_eq, length_mixedPlaced]
  have hmembers := forall_mem_iff_of_forall₂ hall fun m q hq hm ↦
    zipMemberDefect_eq_none_iff hcrc hm (mixedHeaderAt_placed hf hs hq)
  have hplaced : (∀ q ∈ mixedPlaced fl 0 ms, q.1.streamed = true → q.1.part.payload fl = []) ↔
      ∀ m ∈ ms, m.streamed = true → m.part.payload fl = [] := by
    constructor
    · intro h m hm
      obtain ⟨lho, hq⟩ := exists_mem_mixedPlaced hm 0
      exact h _ hq
    · exact fun h q hq ↦ h q.1 (mem_mixedPlaced hq).1
  rw [← hplaced, ← hmembers]
  constructor
  · intro h
    have hcount : ms.length % 65536 = members.unzip.1.length := h.count
    have hchecked := h.members
    rw [List.zip_unzip] at hchecked
    exact ⟨by omega, hchecked⟩
  · rintro ⟨hcount, hchecked⟩
    refine ⟨rfl, rfl, ?_, rfl, ?_⟩
    · rw [hlength]
      exact Nat.mod_eq_of_lt hcount
    · dsimp only
      rw [List.zip_unzip]
      exact hchecked

end Archive

theorem archive_reportsNoDefect_iff (inflate : Bytes → Bytes × Bool) {fl : Flate2}
    (hcrc : ∀ d, (fl.crc32 d).toBitVec = Crc.crc32 d) {ms : List MixedPart} (hne : ms ≠ [])
    (hf : MixedFits fl ms) (s : DataSource) (hs : s.bytes = mixedZip fl ms) :
    ReportsNoDefect inflate s .zip ↔ HealthyParts fl ms := by
  by_cases hclear : EndClear fl ms
  · obtain ⟨o, members, hparse, hall⟩ := parse_archive hf hs hne hclear
    rw [reportsNoDefect_zip_iff hparse, sound_archive_iff hcrc hf hs hall]
    exact ⟨fun h ↦ ⟨h.1, h.2, hclear⟩, fun h ↦ ⟨h.count, h.streamed⟩⟩
  · obtain ⟨o, hparse⟩ := parse_hidden hs hclear
    rw [reportsNoDefect_zip_iff hparse]
    exact iff_of_false not_sound_of_hidden fun h ↦ hclear h.endClear

/-- The archives of the plain encoder, of the streaming encoder and of both together are reported
healthy just when no streamed part has a payload, the count fits its field, and the sizes in the
end record do not spell its signature again. -/
theorem mixedZip_reportsNoDefect_iff (inflate : Bytes → Bytes × Bool) {fl : Flate2}
    (hcrc : ∀ d, (fl.crc32 d).toBitVec = Crc.crc32 d) {ms : List MixedPart} (hne : ms ≠ [])
    (hf : MixedFits fl ms) (s : DataSource) (hs : s.bytes = mixedZip fl ms) :
    (∀ parts, mixedZip fl (parts.map plain) = encodeZip fl parts ∧
      mixedZip fl (parts.map streaming) = encodeZipStreamed fl parts) ∧
      (ReportsNoDefect inflate s .zip ↔ HealthyParts fl ms) :=
  ⟨fun parts ↦ ⟨mixedZip_plain fl parts, mixedZip_streaming fl parts⟩,
    archive_reportsNoDefect_iff inflate hcrc hne hf s hs⟩

/-- Stored blocks, with the checksum of the detector. -/
def tableFlate : Flate2 := ⟨fun d ↦ ⟨Crc.crc32 d⟩, deflateStored, inflateStored⟩

/-- One byte under the name `a`, and an empty streamed part. -/
def quietParts : List MixedPart := [plain ⟨['a'], [0x78]⟩, streaming ⟨['b'], []⟩]

theorem quietParts_fits : MixedFits tableFlate quietParts :=
  ⟨by decide +kernel, by decide +kernel, by decide +kernel, by decide +kernel⟩

theorem quietParts_healthy : HealthyParts tableFlate quietParts := by
  refine ⟨by decide, by decide, fun i hi hsig ↦ ?_⟩
  have hroom : i + 4 ≤ 22 := le_length_of_u32le hsig
  have hnone : ∀ i < 19, 0 < i → u32le (mixedEnd tableFlate quietParts) i ≠ some Zip.eocdSig := by
    decide +kernel
  exact hnone i (by omega) hi hsig

def quietArchive : DataSource := ⟨mixedZip tableFlate quietParts, by decide +kernel⟩

theorem quietArchive_reportsNoDefect :
    ReportsNoDefect (fun _ ↦ ([], true)) quietArchive .zip :=
  (mixedZip_reportsNoDefect_iff _ (fun _ ↦ rfl) (List.cons_ne_nil _ _) quietParts_fits quietArchive
    rfl).2.mpr quietParts_healthy

/-- One byte under the name `a`, written streaming. -/
def streamedLetter : DataSource :=
  ⟨encodeZipStreamed tableFlate [⟨['a'], [0x78]⟩], by decide +kernel⟩

/-- An undamaged streamed archive is reported with a size mismatch. -/
theorem streamedLetter_not_reportsNoDefect :
    ¬ReportsNoDefect (fun _ ↦ ([], true)) streamedLetter .zip := by
  have hfits : MixedFits tableFlate [streaming ⟨['a'], [0x78]⟩] :=
    ⟨by decide +kernel, by decide +kernel, by decide +kernel, by decide +kernel⟩
  rw [archive_reportsNoDefect_iff _ (fun _ ↦ rfl) (List.cons_ne_nil _ _) hfits streamedLetter
    (mixedZip_streaming tableFlate [⟨['a'], [0x78]⟩]).symm]
  intro h
  have hempty := h.streamed _ List.mem_cons_self rfl
  revert hempty
  decide +kernel

end VeraqisRecover.Analyze
