import VeraqisRecover.Recovery.ZipRebuild

/-!
# The rebuilt file

A prefix of the source, a record for each walked header, and an EOCD.  The walk
over such a file finds the same headers and stops at the first record, so a
second rebuild writes the same bytes.
-/

namespace VeraqisRecover.Recovery

open ByteString LossyUtf8 Zip

/-! ## What the directory says of the headers -/

/-- The directory record `r` describes the local header. -/
structure LocalHeader.DescribedBy (h : LocalHeader) (r : Bytes) : Prop where
  sig : u32le r 0 = some cdfhSig
  flags : u16le r 8 = some h.flags
  method : u16le r 10 = some h.method
  crc32 : u32le r 16 = some h.crc32
  compSize : u32le r 20 = some h.compSize
  uncompSize : u32le r 24 = some h.uncompSize
  nameLen : u16le r 28 = some h.name.length
  extraLen : u16le r 30 = some 0
  commentLen : u16le r 32 = some 0
  lfhOffset : u32le r 42 = some h.lfhOffset
  name : r.drop 46 = h.name

/-- An EOCD without comment, with exactly this count, directory size and directory offset. -/
structure ClosedBy (eocd : Bytes) (count size offset : ℕ) : Prop where
  length_eq : eocd.length = 22
  sig : u32le eocd 0 = some eocdSig
  diskCount : u16le eocd 8 = some count
  count : u16le eocd 10 = some count
  size : u32le eocd 12 = some size
  offset : u32le eocd 16 = some offset
  commentLen : u16le eocd 20 = some 0

/-- A verbatim prefix of the source, one record for each header, in order, and the EOCD of these
records. -/
def DescribesArchive (source : Bytes) (headers : List LocalHeader) (output : Bytes) : Prop :=
  ∃ n records eocd, n ≤ source.length ∧ output = source.take n ++ records.flatten ++ eocd ∧
    List.Forall₂ LocalHeader.DescribedBy headers records ∧
    ClosedBy eocd records.length records.flatten.length n

/-- What the strategy writes describes the archive. -/
def RebuildDescribes (source : Bytes) : Prop :=
  ∃ output report, zipCentralDirectoryRebuild.apply source = .ok (output, report) ∧
    report.success = true ∧ DescribesArchive source (scanLocalHeaders source) output

def directorySize (headers : List LocalHeader) : ℕ := (headers.map fun h ↦ 46 + h.name.length).sum

/-- Count, offsets and directory size fit in the fields they are written to. -/
structure FieldsFit (headers : List LocalHeader) : Prop where
  count : headers.length < 2 ^ 16
  size : directorySize headers < 2 ^ 32
  stop : ∀ h ∈ headers, h.stop < 2 ^ 32

theorem LocalHeader.DescribedBy.length_eq {h : LocalHeader} {r : Bytes} (hr : h.DescribedBy r) :
    r.length = 46 + h.name.length := by
  have hle := le_length_of_u32le hr.lfhOffset
  have hname := congrArg List.length hr.name
  rw [List.length_drop] at hname
  omega

theorem length_flatten_records {headers : List LocalHeader} {records : List Bytes}
    (h : List.Forall₂ LocalHeader.DescribedBy headers records) :
    records.flatten.length = directorySize headers := by
  induction h with
  | nil => rfl
  | @cons hd r headers records hr _ ih =>
      rw [List.flatten_cons, List.length_append, ih, hr.length_eq]
      rfl

theorem length_dirBytes_dirRecord (headers : List LocalHeader) :
    (dirBytes (headers.map (·.dirRecord))).length = directorySize headers := by
  induction headers with
  | nil => rfl
  | cons h headers ih =>
      rw [List.map_cons, dirBytes_cons, List.length_append, ih, DirRecord.length_bytes]
      rfl

theorem describedBy_bytes {h : LocalHeader} (hf : h.dirRecord.Fits) :
    h.DescribedBy h.dirRecord.bytes := by
  have hself : At h.dirRecord.bytes 0 h.dirRecord.bytes := by simp [At]
  have hread := DirRecord.readAt hself hf
  have hname : h.dirRecord.bytes.drop 46 = h.name := by
    have hlen := h.dirRecord.length_bytes
    obtain ⟨t, ht⟩ := hread.name
    have htail := congrArg List.length ht
    rw [List.length_append, List.length_drop] at htail
    have hnil : t = [] := List.eq_nil_of_length_eq_zero (by omega)
    rw [hnil, List.append_nil, Nat.zero_add] at ht
    exact ht.symm
  exact ⟨hread.sig, hread.flags, hread.method, hread.crc, hread.comp, hread.uncomp, hread.nameLen,
    hread.extraLen, hread.commentLen, hread.lho, hname⟩

theorem closedBy_endRecord {count size offset : ℕ} (hcount : count < 2 ^ 16)
    (hsize : size < 2 ^ 32) (hoffset : offset < 2 ^ 32) :
    ClosedBy (endRecord count size offset) count size offset := by
  have h : At (endRecord count size offset) 0 (endRecord count size offset) := by simp [At]
  unfold endRecord at h
  simp only [List.append_assoc, At.le16_append_iff, At.le32_append_iff] at h
  obtain ⟨h₀, -, -, h₈, h₁₀, h₁₂, h₁₆, h₂₀⟩ := h
  exact ⟨rfl, h₀.u32le_le32 (by decide), h₈.u16le_le16 hcount, h₁₀.u16le_le16 hcount,
    h₁₂.u32le_le32 hsize, h₁₆.u32le_le32 hoffset, h₂₀.u16le_le16 (by decide)⟩

theorem rebuildDescribes_iff_rebuilt {source : Bytes} (hne : scanLocalHeaders source ≠ []) :
    RebuildDescribes source ↔
      DescribesArchive source (scanLocalHeaders source)
        (rebuilt source (scanLocalHeaders source)) := by
  rcases zipRebuild_apply_cases source with ⟨hnil, -⟩ | ⟨-, report, happly, hok, -⟩
  · exact absurd hnil hne
  · constructor
    · rintro ⟨output, report', hrun, -, hdescribes⟩
      obtain ⟨rfl, -⟩ := Prod.mk.inj (Except.ok.inj (happly.symm.trans hrun))
      exact hdescribes
    · intro hdescribes
      exact ⟨_, report, happly, hok, hdescribes⟩

/-- The numbers of a description fit in the fields they were read from. -/
theorem fieldsFit_of_describes {source : Bytes}
    (h : DescribesArchive source (scanLocalHeaders source)
      (rebuilt source (scanLocalHeaders source))) : FieldsFit (scanLocalHeaders source) := by
  obtain ⟨n, records, eocd, hn, houtput, hrecords, hclosed⟩ := h
  have hlength := congrArg List.length houtput
  have hsize := length_flatten_records hrecords
  have hdir := length_dirBytes_dirRecord (scanLocalHeaders source)
  have hend : dataEnd source (scanLocalHeaders source) ≤ source.length := min_le_right _ _
  have heocd : (endRecord (scanLocalHeaders source).length
      (dirBytes ((scanLocalHeaders source).map (·.dirRecord))).length
      (dataEnd source (scanLocalHeaders source))).length = 22 := rfl
  rw [rebuilt, List.length_append, List.length_append, List.length_append, List.length_append,
    heocd, hclosed.length_eq, List.length_take, List.length_take] at hlength
  have hoffset := u32le_lt hclosed.offset
  refine ⟨hrecords.length_eq ▸ u16le_lt hclosed.count, hsize ▸ u32le_lt hclosed.size, ?_⟩
  intro h hh
  have hstop := ((scanLocalHeaders_tiles source).1.bounds.2 h.range (List.mem_map_of_mem hh)).2.2
  change h.stop ≤ _ at hstop
  omega

/-- The data region ends where a walked member ends. -/
theorem exists_stop_eq {source : Bytes} (hne : scanLocalHeaders source ≠ []) :
    ∃ h ∈ scanLocalHeaders source, h.stop = dataEnd source (scanLocalHeaders source) := by
  have hlast : ∀ (hs : List LocalHeader) {a b : ℕ}, hs ≠ [] →
      Consecutive a (hs.map (·.range)) b → ∃ h ∈ hs, h.stop = b := by
    intro hs
    induction hs with
    | nil =>
        intro a b hnil
        exact absurd rfl hnil
    | cons h rest ih =>
        rintro a b - ⟨-, -, hrest⟩
        cases rest with
        | nil => exact ⟨h, List.mem_singleton_self h, hrest⟩
        | cons h' rest =>
            obtain ⟨t, ht, hstop⟩ := ih (List.cons_ne_nil h' rest) hrest
            exact ⟨t, List.mem_cons_of_mem h ht, hstop⟩
  exact hlast _ hne (scanLocalHeaders_tiles source).1

/-- The rebuilt directory describes the archive exactly when its numbers fit in their fields. -/
theorem zipRebuild_describes_iff {source : Bytes} (hne : scanLocalHeaders source ≠ []) :
    RebuildDescribes source ↔ FieldsFit (scanLocalHeaders source) := by
  rw [rebuildDescribes_iff_rebuilt hne]
  constructor
  · exact fieldsFit_of_describes
  · intro hfit
    obtain ⟨htiles, hparsed⟩ := scanLocalHeaders_tiles source
    have hdir := length_dirBytes_dirRecord (scanLocalHeaders source)
    have hfits : ∀ h ∈ scanLocalHeaders source, h.dirRecord.Fits := by
      intro h hh
      have hle := (hparsed h hh).le_stop
      have hstop := hfit.stop h hh
      exact (hparsed h hh).fits (by omega)
    have hend : dataEnd source (scanLocalHeaders source) < 2 ^ 32 := by
      obtain ⟨h, hh, hstop⟩ := exists_stop_eq hne
      exact hstop ▸ hfit.stop h hh
    refine ⟨dataEnd source (scanLocalHeaders source),
      (scanLocalHeaders source).map fun h ↦ h.dirRecord.bytes, endRecord _ _ _, min_le_right _ _,
      ?_, ?_, closedBy_endRecord ?_ ?_ hend⟩
    · rw [rebuilt, dirBytes, List.flatMap_map, List.flatMap_def, List.length_map]
    · rw [List.forall₂_map_right_iff, List.forall₂_same]
      exact fun h hh ↦ describedBy_bytes (hfits h hh)
    · rw [List.length_map]
      exact hfit.count
    · rw [← List.flatMap_def, ← List.flatMap_map, ← dirBytes, hdir]
      exact hfit.size

/-- Local headers without name and payload, one after the other. -/
def blankHeader : Bytes := le32 lfhSig ++ List.replicate 26 0

def blankHeaders (n : ℕ) : Bytes := (List.replicate n blankHeader).flatten

theorem zipRebuild_describes_iff_blankHeaders :
    RebuildDescribes (blankHeaders 2) ↔ FieldsFit (scanLocalHeaders (blankHeaders 2)) :=
  zipRebuild_describes_iff (by decide +kernel)

theorem parse_blankHeader (pre rest : Bytes) :
    ∃ h, LocalHeader.parse (pre ++ (blankHeader ++ rest)) pre.length = some h ∧
      h.stop = (pre ++ blankHeader).length := by
  have hat : At (pre ++ (blankHeader ++ rest)) pre.length blankHeader := by simp [At]
  have h₁₆ : ∀ k, 4 ≤ k → k ≤ 28 →
      u16le (pre ++ (blankHeader ++ rest)) (pre.length + k) = some 0 := by
    intro k hlow hhigh
    rw [hat.u16le (show k + 2 ≤ 30 by omega)]
    interval_cases k <;> rfl
  have hsig : u32le (pre ++ (blankHeader ++ rest)) pre.length = some lfhSig := hat.u32le (k := 0)
    (by decide)
  have hsize : u32le (pre ++ (blankHeader ++ rest)) (pre.length + 18) = some 0 := hat.u32le
    (k := 18) (by decide)
  have hblank : blankHeader.length = 30 := rfl
  have hlen : (pre ++ (blankHeader ++ rest)).length = pre.length + 30 + rest.length := by
    rw [List.length_append, List.length_append, hblank, Nat.add_assoc]
  unfold LocalHeader.parse
  simp only [hsig, hsize, h₁₆ 6 (by decide) (by decide), h₁₆ 26 (by decide) (by decide),
    h₁₆ 28 (by decide) (by decide), Option.getD_some, hlen]
  rw [if_neg (by simp), if_neg (by omega), if_neg (by simp), if_neg (by omega)]
  refine ⟨_, rfl, ?_⟩
  rw [List.length_append, hblank]
  rfl

theorem length_scan_blankHeaders (n : ℕ) (pre : Bytes) (headers : List LocalHeader) :
    (scanLocalHeadersFrom (pre ++ blankHeaders n) pre.length headers).length =
      headers.length + n := by
  induction n generalizing pre headers with
  | zero =>
      rw [scanLocalHeadersFrom, if_neg]
      · rfl
      · rw [blankHeaders, List.replicate_zero, List.flatten_nil, List.append_nil]
        omega
  | succ n ih =>
      have hsplit : blankHeaders (n + 1) = blankHeader ++ blankHeaders n := by
        rw [blankHeaders, List.replicate_succ, List.flatten_cons, ← blankHeaders]
      obtain ⟨h, hparse, hstop⟩ := parse_blankHeader pre (blankHeaders n)
      have hrest := ih (pre ++ blankHeader) (headers ++ [h])
      rw [List.append_assoc, ← hstop, List.length_append, List.length_singleton] at hrest
      have hroom : pre.length + 30 ≤ (pre ++ (blankHeader ++ blankHeaders n)).length := by
        rw [List.length_append, List.length_append, show blankHeader.length = 30 from rfl]
        omega
      rw [hsplit, scanLocalHeadersFrom, if_pos hroom]
      split
      · rename_i hnone
        rw [hparse] at hnone
        cases hnone
      · rename_i h' hsome
        obtain rfl := Option.some.inj (hparse.symm.trans hsome)
        rw [hrest]
        omega

theorem length_scanLocalHeaders_blankHeaders (n : ℕ) :
    (scanLocalHeaders (blankHeaders n)).length = n := by
  have hfrom := length_scan_blankHeaders n [] []
  exact hfrom.trans (Nat.zero_add n)

theorem not_described_of_count {source : Bytes}
    (hcount : 2 ^ 16 ≤ (scanLocalHeaders source).length) :
    scanLocalHeaders source ≠ [] ∧ ¬ RebuildDescribes source := by
  have hne : scanLocalHeaders source ≠ [] := by
    apply List.ne_nil_of_length_pos
    omega
  refine ⟨hne, fun hdescribes ↦ ?_⟩
  have hfit := fieldsFit_of_describes ((rebuildDescribes_iff_rebuilt hne).mp hdescribes)
  exact absurd hfit.count (not_lt.mpr hcount)

/-- The count wraps to zero. -/
theorem blankHeaders_not_described :
    scanLocalHeaders (blankHeaders 65536) ≠ [] ∧ ¬ RebuildDescribes (blankHeaders 65536) :=
  not_described_of_count (length_scanLocalHeaders_blankHeaders 65536).ge

/-! ## A second rebuild -/

/-- A header reads the same in every file that keeps the bytes up to its stop. -/
theorem LocalHeader.parse_congr {d e : Bytes} {pos : ℕ} {h : LocalHeader}
    (hparse : LocalHeader.parse d pos = some h) (hsame : SamePrefix h.stop d e) :
    LocalHeader.parse e pos = some h := by
  obtain ⟨rfl, hp⟩ := LocalHeader.parsed_of_parse hparse
  have hle := hp.le_stop
  have hleft := hsame.left
  have hright := hsame.right
  have h₁₆ : ∀ k, k ≤ 28 → u16le e (h.lfhOffset + k) = u16le d (h.lfhOffset + k) := fun k hk ↦
    (hsame.u16le_eq (by omega)).symm
  have h₃₂ : ∀ k, k ≤ 26 → u32le e (h.lfhOffset + k) = u32le d (h.lfhOffset + k) := fun k hk ↦
    (hsame.u32le_eq (by omega)).symm
  have hsig : u32le e h.lfhOffset = u32le d h.lfhOffset := (hsame.u32le_eq (by omega)).symm
  have hslice : ∀ {a b}, b ≤ h.stop → slice e a b = slice d a b := by
    intro a b hb
    rw [slice, slice, ← List.drop_take, ← List.drop_take, (hsame.mono hb).take_eq]
  unfold LocalHeader.parse at hparse ⊢
  simp only [Option.ite_none_left_eq_some, Option.some.injEq] at hparse
  obtain ⟨hsig', hextra, hflags, hstop, heq⟩ := hparse
  simp only [h₁₆ 4 (by decide), h₁₆ 6 (by decide), h₁₆ 8 (by decide), h₁₆ 10 (by decide),
    h₁₆ 12 (by decide), h₁₆ 26 (by decide), h₁₆ 28 (by decide), h₃₂ 14 (by decide),
    h₃₂ 18 (by decide), h₃₂ 22 (by decide), hsig]
  have hend : h.stop = h.lfhOffset + 30 + (u16le d (h.lfhOffset + 26)).getD 0 +
      (u16le d (h.lfhOffset + 28)).getD 0 + (u32le d (h.lfhOffset + 18)).getD 0 := by
    rw [LocalHeader.stop, hp.dataOffset, ← heq]
  rw [if_neg hsig', if_neg (by omega), if_neg hflags, if_neg (by omega), hslice (by omega)]
  exact congrArg some heq

/-- The walk over consecutive headers, up to a position where none parses. -/
theorem scanLocalHeadersFrom_eq {e : Bytes} {n : ℕ} (hstop : LocalHeader.parse e n = none)
    (rest : List LocalHeader) {pos : ℕ} (headers : List LocalHeader)
    (hcons : Consecutive pos (rest.map (·.range)) n)
    (hparse : ∀ h ∈ rest, LocalHeader.parse e h.lfhOffset = some h) :
    scanLocalHeadersFrom e pos headers = headers ++ rest := by
  induction rest generalizing pos headers with
  | nil =>
      obtain rfl : pos = n := hcons
      rw [List.append_nil, scanLocalHeadersFrom]
      split
      · split
        · rfl
        · rename_i h hsome
          rw [hstop] at hsome
          cases hsome
      · rfl
  | cons h rest ih =>
      obtain ⟨hpos, -, hrest⟩ := hcons
      obtain rfl : h.lfhOffset = pos := hpos
      have hh := hparse h List.mem_cons_self
      have hroom : h.lfhOffset + 30 ≤ e.length := by
        have hp := (LocalHeader.parsed_of_parse hh).2
        exact hp.le_stop.trans hp.stop_le
      rw [scanLocalHeadersFrom, if_pos hroom]
      split
      · rename_i hnone
        rw [hh] at hnone
        cases hnone
      · rename_i h' hsome
        obtain rfl := Option.some.inj (hh.symm.trans hsome)
        have hrec := ih (headers ++ [h]) hrest fun t ht ↦ hparse t (List.mem_cons_of_mem h ht)
        rw [List.append_assoc] at hrec
        exact hrec

/-- Every walked header is what parses at its offset. -/
theorem parse_of_mem_scan {data : Bytes} {h : LocalHeader} (hh : h ∈ scanLocalHeaders data) :
    LocalHeader.parse data h.lfhOffset = some h := by
  have hfrom : ∀ (pos : ℕ) (headers : List LocalHeader),
      (∀ h ∈ headers, LocalHeader.parse data h.lfhOffset = some h) →
        ∀ h ∈ scanLocalHeadersFrom data pos headers,
          LocalHeader.parse data h.lfhOffset = some h := by
    intro pos headers
    fun_induction scanLocalHeadersFrom data pos headers with
    | case1 pos headers _ hnone => exact fun h ↦ h
    | case2 pos headers _ hd hsome hp hle ih =>
        intro hall
        apply ih
        intro h hh
        rcases List.mem_append.mp hh with hh | hh
        · exact hall h hh
        · rw [List.mem_singleton.mp hh, hp.1]
          exact hsome
    | case3 pos headers _ => exact fun h ↦ h
  exact hfrom 0 [] (by simp) h hh

theorem sig_of_at_bytes {d : Bytes} {o : ℕ} {r : DirRecord} (h : At d o r.bytes) :
    u32le d o = some cdfhSig := by
  delta DirRecord.bytes at h
  simp only [List.append_assoc, At.le32_append_iff] at h
  exact h.1.u32le_le32 (by decide)

/-- Behind the data region stands a record, where no header parses. -/
theorem parse_dataEnd_rebuilt {source : Bytes} (hne : scanLocalHeaders source ≠ []) :
    LocalHeader.parse (rebuilt source (scanLocalHeaders source))
      (dataEnd source (scanLocalHeaders source)) = none := by
  obtain ⟨h, rest, hcons⟩ := List.exists_cons_of_ne_nil hne
  have hlen : (source.take (dataEnd source (scanLocalHeaders source))).length =
      dataEnd source (scanLocalHeaders source) := by
    rw [List.length_take]
    exact min_eq_left (min_le_right _ _)
  have hat : At (rebuilt source (scanLocalHeaders source))
      (dataEnd source (scanLocalHeaders source)) h.dirRecord.bytes := by
    have hself := At.self_append (source.take (dataEnd source (scanLocalHeaders source)))
      (dirBytes ((scanLocalHeaders source).map (·.dirRecord)))
    rw [hlen] at hself
    have hdir := hself.extend (endRecord (scanLocalHeaders source).length
      (dirBytes ((scanLocalHeaders source).map (·.dirRecord))).length
      (dataEnd source (scanLocalHeaders source)))
    refine (At.append_iff (t := dirBytes (rest.map (·.dirRecord)))).mp ?_ |>.1
    rwa [← dirBytes_cons, ← List.map_cons, ← hcons]
  unfold LocalHeader.parse
  simp only [sig_of_at_bytes hat]
  rw [if_pos (by decide)]

/-- A second rebuild finds the headers of the first. -/
theorem scanLocalHeaders_rebuilt {source : Bytes} (hne : scanLocalHeaders source ≠ []) :
    scanLocalHeaders (rebuilt source (scanLocalHeaders source)) = scanLocalHeaders source := by
  have hsame : SamePrefix (dataEnd source (scanLocalHeaders source)) source
      (rebuilt source (scanLocalHeaders source)) := by
    rw [rebuilt, List.append_assoc]
    exact .take_append (min_le_right _ _) _
  have htiles := (scanLocalHeaders_tiles source).1
  apply scanLocalHeadersFrom_eq (parse_dataEnd_rebuilt hne) _ [] htiles
  intro h hh
  have hstop := (htiles.bounds.2 h.range (List.mem_map_of_mem hh)).2.2
  exact LocalHeader.parse_congr (parse_of_mem_scan hh) (hsame.mono hstop)

theorem consecutive_unique {a b c : ℕ} {rs : List (ℕ × ℕ)} (hb : Consecutive a rs b)
    (hc : Consecutive a rs c) : b = c := hb.foldl_max.symm.trans hc.foldl_max

/-- The data region of the second rebuild is that of the first. -/
theorem dataEnd_rebuilt {source : Bytes} (hne : scanLocalHeaders source ≠ []) :
    dataEnd (rebuilt source (scanLocalHeaders source)) (scanLocalHeaders source) =
      dataEnd source (scanLocalHeaders source) := by
  have htiles := (scanLocalHeaders_tiles (rebuilt source (scanLocalHeaders source))).1
  rw [scanLocalHeaders_rebuilt hne] at htiles
  exact consecutive_unique htiles (scanLocalHeaders_tiles source).1

theorem rebuilt_rebuilt {source : Bytes} (hne : scanLocalHeaders source ≠ []) :
    rebuilt (rebuilt source (scanLocalHeaders source)) (scanLocalHeaders source) =
      rebuilt source (scanLocalHeaders source) := by
  have hlen : (source.take (dataEnd source (scanLocalHeaders source))).length =
      dataEnd source (scanLocalHeaders source) := by
    rw [List.length_take]
    exact min_eq_left (min_le_right _ _)
  have htake : (rebuilt source (scanLocalHeaders source)).take
      (dataEnd source (scanLocalHeaders source)) =
        source.take (dataEnd source (scanLocalHeaders source)) := by
    rw [rebuilt, List.append_assoc]
    exact List.take_left' hlen
  conv_lhs => rw [rebuilt, dataEnd_rebuilt hne, htake]
  rfl

/-- Rebuilding what was rebuilt writes the same bytes and reports the same files. -/
theorem zipRebuild_idempotent {source output : Bytes} {report : RecoveryReport}
    (h : zipCentralDirectoryRebuild.apply source = .ok (output, report))
    (hwritten : report.success = true) :
    ∃ report', zipCentralDirectoryRebuild.apply output = .ok (output, report') ∧
      report'.success = true ∧ report'.filesRecovered = report.filesRecovered := by
  simp only [zipCentralDirectoryRebuild, ZipRebuild.apply] at h ⊢
  split at h
  · obtain ⟨-, rfl⟩ := Prod.mk.inj (Except.ok.inj h)
    cases hwritten
  · rename_i hne
    obtain ⟨rfl, rfl⟩ := Prod.mk.inj (Except.ok.inj h)
    rw [scanLocalHeaders_rebuilt hne, if_neg hne, rebuilt_rebuilt hne]
    exact ⟨_, rfl, rfl, rfl⟩

theorem zipRebuild_idempotent_blankHeaders : ∃ output report,
    zipCentralDirectoryRebuild.apply (blankHeaders 2) = .ok (output, report) ∧
      report.success = true ∧
      ∃ report', zipCentralDirectoryRebuild.apply output = .ok (output, report') ∧
        report'.success = true ∧ report'.filesRecovered = report.filesRecovered := by
  rcases zipRebuild_apply_cases (blankHeaders 2) with ⟨hnil, -⟩ | ⟨-, report, happly, hok, -⟩
  · exact absurd hnil (by decide +kernel)
  · exact ⟨_, report, happly, hok, zipRebuild_idempotent happly hok⟩

end VeraqisRecover.Recovery
