import VeraqisRecover.Analyze.ZipHealthy
import VeraqisRecover.Recovery.RebuildShape
import VeraqisRecover.Recovery.Restoration
import VeraqisRecover.Support.ByteChange

/-!
# A ZIP file without its directory

The local headers carry all that the rebuilt directory says.  An archive whose
directory is the one they give comes back from its members alone, whatever
became of the bytes behind them.
-/

namespace VeraqisRecover.Recovery

open ByteString Checked LastIndex Zip

variable {tools : Toolbox} {input original : Analyze.DataSource} {label : FilePath}
  {options : RecoveryOptions}

/-! ## The damage -/

/-- There are members, one directly behind the other, and what follows them is the directory that
their headers give. -/
structure Canonical (archive : Bytes) : Prop where
  members : scanLocalHeaders archive ≠ []
  closed : rebuilt archive (scanLocalHeaders archive) = archive

/-- Where the members end. -/
def membersEnd (archive : Bytes) : ℕ := dataEnd archive (scanLocalHeaders archive)

/-- The members are left as they were; behind them no further header stands, and near the end of
the file no signature of an end record. -/
structure LostDirectory (input archive : Bytes) : Prop where
  members : SamePrefix (membersEnd archive) archive input
  noHeader : LocalHeader.parse input (membersEnd archive) = none
  noEocd : ∀ i, input.length - 65557 ≤ i → u32le input i ≠ some eocdSig

theorem scanLocalHeaders_of_lost {input archive : Bytes} (h : LostDirectory input archive) :
    scanLocalHeaders input = scanLocalHeaders archive := by
  have htiles := (scanLocalHeaders_tiles archive).1
  refine scanLocalHeadersFrom_eq h.noHeader _ [] htiles fun hd hhd ↦ ?_
  have hstop := (htiles.bounds.2 hd.range (List.mem_map_of_mem hhd)).2.2
  exact LocalHeader.parse_congr (parse_of_mem_scan hhd) (h.members.mono hstop)

theorem dataEnd_of_lost {input archive : Bytes} (h : LostDirectory input archive) :
    dataEnd input (scanLocalHeaders archive) = membersEnd archive := by
  have htiles := (scanLocalHeaders_tiles input).1
  rw [scanLocalHeaders_of_lost h] at htiles
  exact consecutive_unique htiles (scanLocalHeaders_tiles archive).1

/-- The rebuild sees no difference. -/
theorem rebuilt_of_lost {input archive : Bytes} (h : LostDirectory input archive) :
    rebuilt input (scanLocalHeaders input) = rebuilt archive (scanLocalHeaders archive) := by
  have htake : input.take (membersEnd archive) =
      archive.take (dataEnd archive (scanLocalHeaders archive)) := h.members.take_eq.symm
  rw [scanLocalHeaders_of_lost h, rebuilt, rebuilt, dataEnd_of_lost h, htake]
  rfl

theorem apply_of_lost (hcanonical : Canonical original.bytes)
    (h : LostDirectory input.bytes original.bytes) : ∃ report,
      zipCentralDirectoryRebuild.apply input.bytes = .ok (original.bytes, report) := by
  rcases zipRebuild_apply_cases input.bytes with ⟨hnil, -⟩ | ⟨-, report, happly, -⟩
  · rw [scanLocalHeaders_of_lost h] at hnil
    exact absurd hnil hcanonical.members
  · rw [rebuilt_of_lost h, hcanonical.closed] at happly
    exact ⟨report, happly⟩

/-! ## What the detector reports -/

/-- A file with members opens with a local header. -/
theorem opens_of_members {archive : Bytes} (h : scanLocalHeaders archive ≠ []) :
    u32le archive 0 = some lfhSig ∧ 30 ≤ membersEnd archive := by
  obtain ⟨htiles, hparsed⟩ := scanLocalHeaders_tiles archive
  obtain ⟨hd, rest, hcons⟩ := List.exists_cons_of_ne_nil h
  have hp := hparsed hd (hcons ▸ List.mem_cons_self)
  have hstop := (htiles.bounds.2 hd.range
    (List.mem_map_of_mem (hcons ▸ List.mem_cons_self))).2.2
  rw [hcons, List.map_cons] at htiles
  have hzero : hd.lfhOffset = 0 := htiles.1
  have hle := hp.le_stop
  refine ⟨hzero ▸ hp.sig, ?_⟩
  change hd.stop ≤ membersEnd archive at hstop
  omega

/-- The rule of the shared table for the ZIP files that begin with a member. -/
def zipOpening : FormatId.Signature :=
  ⟨.zip, .start 0, FormatId.ascii "PK" ++ [0x03], 4,
    .measured "the project's own ZIP corpus (2268 files)"⟩

theorem detect_zip {file : Analyze.DataSource} (h : u32le file.bytes 0 = some lfhSig)
    (path : Text) : Analyze.FormatDetection.detect file path = .ok .zip := by
  have hlong := le_length_of_u32le h
  have hopens : file.bytes.take 4 = le32 lfhSig := by
    refine eq_le32_of_u32le (by rw [List.length_take]; omega) ?_
    rw [← h]
    exact u32le_congr fun i hi ↦ List.getElem?_take_of_lt (by omega)
  refine detect_of_opening zipOpening (by decide) ?_ hlong rfl path
  have hmagic : zipOpening.magic <+: file.bytes.take 4 := by
    rw [hopens]
    decide
  exact hmagic.trans (List.take_prefix 4 _)

/-- Without the signature of an end record nothing of the directory is read. -/
theorem parse_of_noEocd {file : Analyze.DataSource}
    (h : ∀ i, file.bytes.length - 65557 ≤ i → u32le file.bytes i ≠ some eocdSig) :
    Analyze.ZipReader.parse file = .ok {} := by
  by_cases hlen : 22 ≤ file.len
  · rw [Analyze.parse_eq file hlen]
    cases hlast : lastIndex (Analyze.eocdAt file.bytes) (file.bytes.length - 65557)
        (file.bytes.length - 3) with
    | none => rfl
    | some i =>
        obtain ⟨hstart, -, hsig⟩ := lastIndex_sound hlast
        exact absurd (of_decide_eq_true hsig) (h i hstart)
  · exact if_pos (not_le.mp hlen)

/-- What the detector reports of it. -/
def missingEocd (file : Bytes) : Analyze.Detected where
  kind := .zipMissingEocd
  location := ⟨none, 0, file.length⟩
  expectedBytes := some [0x50, 0x4B, 0x05, 0x06]

/-- The rebuild is all that is asked. -/
theorem applicable_rebuild (overall : ℕ) : ((allStrategies tools).filter (·.canApply
    (analysisOf tools.env input .zip [missingEocd input.bytes] overall))).insertionSort
      (fun a b ↦ b.priority ≤ a.priority) = [zipCentralDirectoryRebuild] := rfl

/-! ## Recovery -/

/-- Whatever became of the directory, it comes back from the local headers, and with it the whole
archive. -/
theorem recoverStream_directory (hbare : Unlisted tools.env label)
    (hauto : options.forcedStrategy = none) (hagg : options.aggressive = false)
    (hreadable : Analyze.Engine.refusal original .zip = .ok (.ok ()))
    (hclean : Analyze.ReportsNoDefect tools.env.inflate original .zip)
    (hcanonical : Canonical original.bytes) (hlost : LostDirectory input.bytes original.bytes) :
    ∃ report, recoverStream tools input label options = .ok (.ok (original.bytes, report)) ∧
      CreditedTo zipCentralDirectoryRebuild report := by
  obtain ⟨hsig, hend⟩ := opens_of_members hcanonical.members
  have hsig' : u32le input.bytes 0 = some lfhSig :=
    (hlost.members.u32le_eq (by omega)).symm.trans hsig
  have hparse := parse_of_noEocd hlost.noEocd
  have hrefusal : Analyze.Engine.refusal input .zip = .ok (.ok ()) :=
    bind_eq_ok.mpr ⟨_, hparse, rfl⟩
  have hdetect : Analyze.detect tools.env.inflate (tools.env.wal label.toList) input .zip
      (Analyze.Integrity.run tools.env input .sha256) true 1000 =
        .ok ([missingEocd input.bytes], false) := by
    refine bind_eq_ok.mpr ⟨_, bind_eq_ok.mpr ⟨_, hparse, rfl⟩, ?_⟩
    exact bind_eq_ok.mpr ⟨_, Analyze.manifestDefect_absent _ _ _ rfl, rfl⟩
  obtain ⟨applied, happly⟩ := apply_of_lost hcanonical hlost
  have hne : original.bytes ≠ [] := by
    intro hnil
    rw [hnil] at hsig
    cases hsig
  exact recoverStream_of_first hbare hagg ⟨detect_zip hsig, hreadable, hclean⟩ hne
    (firstAsked_of_detect hbare hauto (detect_zip hsig' _) hrefusal hdetect (List.cons_ne_nil _ _)
      applicable_rebuild rfl nofun) happly

/-! ## The archives of the encoder -/

section Encoder

variable {fl : Flate2} {parts : List Part}

/-- What the walk makes of the header of a part. -/
def walked (fl : Flate2) (p : Part) (o : ℕ) : LocalHeader :=
  ⟨o, 20, 0, p.method fl, 0, 0, p.crc fl, (p.payload fl).length, p.data.length,
    o + 30 + p.rawName.length, p.rawName⟩

theorem walked_stop (p : Part) (o : ℕ) : (walked fl p o).stop = o + (localRecord fl p).length := by
  rw [length_localRecord, LocalHeader.stop, walked]
  dsimp only
  omega

theorem parse_localRecord {d : Bytes} {o : ℕ} {p : Part} (h : At d o (localRecord fl p))
    (hp : p.Fits fl) : LocalHeader.parse d o = some (walked fl p o) := by
  have hlen := @length_localRecord fl p
  have hroom := h.add_length_le (List.ne_nil_of_length_pos (by omega))
  have hpayload := hp.payload
  have hdata := hp.data
  simp only [localRecord, localHeader, List.append_assoc, At.le16_append_iff,
    At.le32_append_iff] at h
  obtain ⟨h₀, h₄, h₆, h₈, h₁₀, h₁₂, h₁₄, h₁₈, h₂₂, h₂₆, h₂₈, hrest⟩ := h
  have hname : slice d (o + 30) (o + 30 + p.rawName.length) = p.rawName := by
    rw [slice, Nat.add_sub_cancel_left]
    exact Analyze.take_drop_of_at (At.append_iff.mp hrest).1
  unfold LocalHeader.parse
  simp only [h₀.u32le_le32 (by decide), h₄.u16le_le16 (by decide), h₆.u16le_le16 (by decide),
    h₈.u16le_le16 p.method_lt, h₁₀.u16le_le16 (by decide), h₁₂.u16le_le16 (by decide),
    h₁₄.u32le_le32 p.crc_lt, h₁₈.u32le_le32 (show (p.payload fl).length < 2 ^ 32 by omega),
    h₂₂.u32le_le32 (show p.data.length < 2 ^ 32 by omega), h₂₆.u16le_le16 hp.name,
    h₂₈.u16le_le16 (by decide), Option.getD_some, hname]
  rw [if_neg (not_not.mpr rfl), if_neg (by omega), if_neg (by simp), if_neg (by omega)]
  rfl

/-- The headers that the walk finds. -/
def walkedParts (fl : Flate2) (o : ℕ) (parts : List Part) : List LocalHeader :=
  (placed fl o parts).map fun q ↦ walked fl q.1 q.2

theorem walkedParts_tiles (o : ℕ) (parts : List Part) :
    Consecutive o ((walkedParts fl o parts).map (·.range))
      (o + (localRecords fl parts).length) := by
  induction parts generalizing o with
  | nil => rfl
  | cons p parts ih =>
      have hnext := ih (o + (localRecord fl p).length)
      rw [Nat.add_assoc, ← length_localRecords_cons] at hnext
      have hlen := @length_localRecord fl p
      refine ⟨rfl, ?_, ?_⟩
      · change o < (walked fl p o).stop
        rw [walked_stop]
        omega
      · change Consecutive (walked fl p o).stop _ _
        rw [walked_stop]
        exact hnext

theorem encodeZip_eq (fl : Flate2) (parts : List Part) : encodeZip fl parts =
    localRecords fl parts ++ (dirBytes (dirRecords fl 0 parts) ++
      endRecord parts.length (dirBytes (dirRecords fl 0 parts)).length
        (localRecords fl parts).length) := by
  rw [← centralRecords_eq, ← List.append_assoc]
  rfl

theorem scanLocalHeaders_encodeZip (hne : parts ≠ []) (hfits : ∀ p ∈ parts, p.Fits fl) :
    scanLocalHeaders (encodeZip fl parts) = walkedParts fl 0 parts := by
  have htiles := @walkedParts_tiles fl 0 parts
  rw [Nat.zero_add] at htiles
  have hrecords : At (encodeZip fl parts) 0 (localRecords fl parts) := by
    rw [encodeZip_eq]
    exact List.prefix_append _ _
  have hstop : LocalHeader.parse (encodeZip fl parts) (localRecords fl parts).length = none := by
    obtain ⟨p, rest, rfl⟩ := List.exists_cons_of_ne_nil hne
    have hdir := At.self_append (localRecords fl (p :: rest))
      (dirBytes (dirRecords fl 0 (p :: rest)) ++ endRecord (p :: rest).length
        (dirBytes (dirRecords fl 0 (p :: rest))).length (localRecords fl (p :: rest)).length)
    rw [← encodeZip_eq, dirRecords, placed_cons, List.map_cons, dirBytes_cons,
      List.append_assoc] at hdir
    have hsig := sig_of_at_bytes (At.append_iff.mp hdir).1
    unfold LocalHeader.parse
    simp only [hsig]
    rw [if_pos (by decide)]
  refine scanLocalHeadersFrom_eq hstop _ [] htiles fun h hh ↦ ?_
  obtain ⟨q, hq, rfl⟩ := List.mem_map.mp hh
  exact parse_localRecord (at_localRecord hrecords hq) (hfits q.1 (mem_placed_bounds hq).1)

/-- The directory of the encoder is the one that its headers give. -/
theorem canonical_encodeZip (hne : parts ≠ []) (hfits : ∀ p ∈ parts, p.Fits fl) :
    Canonical (encodeZip fl parts) ∧
      membersEnd (encodeZip fl parts) = (localRecords fl parts).length := by
  have hscan := scanLocalHeaders_encodeZip hne hfits
  have htiles := @walkedParts_tiles fl 0 parts
  rw [Nat.zero_add] at htiles
  have hend : dataEnd (encodeZip fl parts) (walkedParts fl 0 parts) =
      (localRecords fl parts).length := by
    have hwalked := (scanLocalHeaders_tiles (encodeZip fl parts)).1
    rw [hscan] at hwalked
    exact consecutive_unique hwalked htiles
  have hrecords : (walkedParts fl 0 parts).map (·.dirRecord) = dirRecords fl 0 parts := by
    rw [walkedParts, List.map_map]
    rfl
  have hlength : (walkedParts fl 0 parts).length = parts.length := by
    rw [walkedParts, List.length_map, length_placed]
  refine ⟨⟨?_, ?_⟩, ?_⟩
  · rw [hscan]
    exact List.ne_nil_of_length_pos (hlength ▸ List.length_pos_of_ne_nil hne)
  · rw [hscan, rebuilt, hend, hrecords, hlength]
    nth_rewrite 1 [encodeZip_eq]
    rw [List.take_left, encodeZip_eq, List.append_assoc]
  · rw [membersEnd, hscan, hend]

end Encoder

/-! ## One byte under the name `a` -/

def letterParts : List Part := [⟨['a'], [0x78]⟩]

def letterArchive : Analyze.DataSource where
  bytes := encodeZip Analyze.tableFlate letterParts
  addressable := by decide +kernel

/-- Its member, and zeros where the directory was. -/
def headlessArchive : Analyze.DataSource where
  bytes := localRecords Analyze.tableFlate letterParts ++ List.replicate 8 0x00
  addressable := by decide +kernel

theorem letterArchive_clean (inflate : Bytes → Bytes × Bool) :
    Analyze.ReportsNoDefect inflate letterArchive .zip := by
  have hfits : Analyze.MixedFits Analyze.tableFlate (letterParts.map plain) :=
    ⟨by decide +kernel, by decide +kernel, by decide +kernel, by decide +kernel⟩
  refine (Analyze.archive_reportsNoDefect_iff inflate (fun _ ↦ rfl) (List.cons_ne_nil _ _) hfits
    letterArchive (mixedZip_plain Analyze.tableFlate letterParts).symm).mpr
      ⟨by decide, by decide, fun i hi hsig ↦ ?_⟩
  have hroom : i + 4 ≤ 22 := le_length_of_u32le hsig
  have hnone : ∀ i < 19, 0 < i →
      u32le (Analyze.mixedEnd Analyze.tableFlate (letterParts.map plain)) i ≠ some eocdSig := by
    decide +kernel
  exact hnone i (by omega) hi hsig

theorem letterParts_fit : ∀ p ∈ letterParts, p.Fits Analyze.tableFlate := by
  intro p hp
  obtain rfl := List.mem_singleton.mp hp
  exact ⟨by decide +kernel, by decide +kernel, by decide +kernel⟩

theorem headlessArchive_lost : LostDirectory headlessArchive.bytes letterArchive.bytes := by
  have hend : membersEnd letterArchive.bytes = 32 :=
    (canonical_encodeZip (List.cons_ne_nil _ _) letterParts_fit).2.trans (by decide +kernel)
  refine ⟨?_, ?_, fun i _ hsig ↦ ?_⟩
  · rw [hend]
    exact ⟨by decide +kernel, by decide +kernel, by decide +kernel⟩
  · rw [hend]
    decide +kernel
  · have hroom := le_length_of_u32le hsig
    have hlen : headlessArchive.bytes.length = 40 := by decide +kernel
    have hnone : ∀ i < 37, u32le headlessArchive.bytes i ≠ some eocdSig := by decide +kernel
    exact hnone i (by omega) hsig

theorem recoverStream_directory_headlessArchive :
    ∃ report, recoverStream bareToolbox headlessArchive "a" {} =
      .ok (.ok (letterArchive.bytes, report)) ∧ CreditedTo zipCentralDirectoryRebuild report :=
  recoverStream_directory rfl rfl rfl (by decide +kernel) (letterArchive_clean _)
    (canonical_encodeZip (List.cons_ne_nil _ _) letterParts_fit).1 headlessArchive_lost

end VeraqisRecover.Recovery
