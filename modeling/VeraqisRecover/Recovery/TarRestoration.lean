import VeraqisRecover.Analyze.TarHealthy
import VeraqisRecover.Recovery.Restoration

/-!
# A TAR file without its terminator

Two blocks of zeros end the archive.  Without them the walk comes to the end of
the file instead, with the same members behind it, and they are appended again.
-/

namespace VeraqisRecover.Analyze.TarReader

open ByteString Checked

/-! ## The walk and the terminator -/

section Walk

variable {s t : DataSource} {offset next zeroBlocks : ℕ} {first : Bool} {p q : TarParse} {b : Bytes}

theorem memberAt_spec (h : memberAt offset b first p = .ok (q, next)) :
    q.zeroTerminatorPresent = p.zeroTerminatorPresent ∧ q.truncated = p.truncated ∧
      offset + 512 ≤ next := by
  have hnext := memberAt_next h
  unfold memberAt at h
  simp only [bind_eq_ok] at h
  obtain ⟨_, -, _, -, _, -, _, -, _, -, _, -, _, -, _, -, _, -, _, -, h⟩ := h
  obtain ⟨rfl, -⟩ := Prod.mk.inj (Except.ok.inj h)
  exact ⟨rfl, rfl, hnext⟩

theorem walkFrom_past (h : s.len < offset + 512) (hoffset : offset ≤ s.len) :
    walkFrom s offset zeroBlocks first p = .ok p := by
  have hlen := s.len_lt
  have hstop : add 64 offset block = .ok (offset + 512) := add_eq (by unfold block; omega)
  rw [walkFrom]
  split
  · rename_i f herr
    cases herr.symm.trans hstop
  · rename_i stop hok
    obtain rfl := Except.ok.inj (hok.symm.trans hstop)
    exact if_pos h

theorem readBlock_of_le (h : offset + 512 ≤ s.len) :
    s.readExactAt offset block = .ok (some ((s.bytes.drop offset).take 512)) := by
  have hlen : ((s.bytes.drop offset).take 512).length = 512 := by
    rw [List.length_take, List.length_drop]
    unfold DataSource.len at h
    omega
  have hfull : ¬((s.bytes.drop offset).take block).length < block := by
    change ¬((s.bytes.drop offset).take 512).length < 512
    omega
  rw [s.readExactAt_eq (by decide), if_neg hfull]
  rfl

set_option maxRecDepth 2000 in
/-- A terminator takes the blocks that it still lacks. -/
theorem room_of_terminator (h : walkFrom t offset zeroBlocks first p = .ok q)
    (hq : q.zeroTerminatorPresent = true) (hp : p.zeroTerminatorPresent = false)
    (hzero : zeroBlocks < 2) : offset + 512 * (2 - zeroBlocks) ≤ t.len := by
  fun_induction walkFrom t offset zeroBlocks first p with
  | case1 => cases h
  | case2 =>
      obtain rfl := Except.ok.inj h
      exact absurd (hq.symm.trans hp) (by decide)
  | case3 => cases h
  | case4 =>
      obtain rfl := Except.ok.inj h
      exact absurd (hq.symm.trans hp) (by decide)
  | case5 => cases h
  | case6 offset zeroBlocks _ _ stop hstop hle _ _ _ zeroBlocks' hcount _ =>
      have hstop := add_eq_ok hstop
      have hcount := add_eq_ok hcount
      unfold block at hstop
      omega
  | case7 offset zeroBlocks _ _ stop hstop _ _ _ _ zeroBlocks' hcount hfew _ ih =>
      have hstop := add_eq_ok hstop
      have hcount := add_eq_ok hcount
      have hroom := ih h hp (by omega)
      unfold block at hstop
      omega
  | case8 => cases h
  | case9 offset _ first parse _ _ _ b _ _ parse' next hmember _ =>
      obtain rfl := Except.ok.inj h
      exact absurd (hq.symm.trans ((memberAt_spec hmember).1.trans hp)) (by decide)
  | case10 offset _ first parse _ _ _ b _ _ parse' next hmember _ _ ih =>
      obtain ⟨hsame, -, hnext⟩ := memberAt_spec hmember
      have hroom := ih h (hsame.trans hp) (by decide)
      omega

/-- Nothing but zeros behind the end of the file. -/
theorem block_past (ht : t.bytes = s.bytes ++ List.replicate 1024 0) (h : s.len ≤ offset) :
    ((t.bytes.drop offset).take 512).all (· = 0) = true := by
  have hdrop : t.bytes.drop offset = (List.replicate 1024 0).drop (offset - s.bytes.length) := by
    rw [ht, List.drop_append, List.drop_eq_nil_of_le h, List.nil_append]
  rw [hdrop, List.drop_replicate, List.take_replicate, List.all_replicate]
  simp

/-- At the end of the file the walk has all of the archive but its terminator. -/
theorem walkFrom_end (ht : t.bytes = s.bytes ++ List.replicate 1024 0)
    (h : walkFrom t offset zeroBlocks first p = .ok q) (hend : q.zeroTerminatorPresent = true)
    (hp : p.zeroTerminatorPresent = false) (hzero : zeroBlocks < 2) (hoffset : offset ≤ s.len)
    (hpast : s.len < offset + 512) : q = { p with zeroTerminatorPresent := true } := by
  have hlen : t.len = s.len + 1024 := by
    rw [DataSource.len, DataSource.len, ht, List.length_append, List.length_replicate]
  rw [walkFrom_read (by omega) (readBlock_of_le (by omega))] at h
  split at h
  · rw [add_eq (show zeroBlocks + 1 < 2 ^ 32 by omega)] at h
    dsimp only [bind, Except.bind] at h
    split at h
    · exact (Except.ok.inj h).symm
    · obtain rfl : zeroBlocks = 0 := by omega
      rw [walkFrom_terminator (by omega) (readBlock_of_le (by omega))
        (block_past ht (by omega))] at h
      exact (Except.ok.inj h).symm
  · obtain ⟨⟨p', next⟩, hmember, h⟩ := bind_eq_ok.mp h
    obtain ⟨hsame, -, hnext⟩ := memberAt_spec hmember
    dsimp only at h
    split at h
    · obtain rfl := Except.ok.inj h
      exact absurd (hend.symm.trans (hsame.trans hp)) (by decide)
    · have hroom := room_of_terminator h hend (hsame.trans hp) (by decide)
      omega

/-- Without the last two blocks of zeros the walk comes to the same, with or without the
terminator. -/
theorem walkFrom_cut (ht : t.bytes = s.bytes ++ List.replicate 1024 0)
    (h : walkFrom t offset zeroBlocks first p = .ok q) (hend : q.zeroTerminatorPresent = true)
    (hwhole : q.truncated = false) (hp : p.zeroTerminatorPresent = false) (hzero : zeroBlocks < 2)
    (hoffset : offset ≤ s.len) : walkFrom s offset zeroBlocks first p = .ok q ∨
      walkFrom s offset zeroBlocks first p = .ok { q with zeroTerminatorPresent := false } := by
  have hlen : t.len = s.len + 1024 := by
    rw [DataSource.len, DataSource.len, ht, List.length_append, List.length_replicate]
  induction hn : s.len - offset using Nat.strong_induction_on generalizing offset zeroBlocks first p
  with
  | _ n ih =>
      by_cases hpast : s.len < offset + 512
      · obtain rfl := walkFrom_end ht h hend hp hzero hoffset hpast
        rw [walkFrom_past hpast hoffset]
        obtain ⟨magicOk, entries, failures, terminated, truncated⟩ := p
        obtain rfl : terminated = false := hp
        exact .inr rfl
      · have hsame : (t.bytes.drop offset).take 512 = (s.bytes.drop offset).take 512 := by
          rw [ht, List.drop_append_of_le_length hoffset, List.take_append_of_le_length]
          rw [List.length_drop]
          unfold DataSource.len at hpast
          omega
        rw [walkFrom_read (by omega) (readBlock_of_le (by omega)), hsame] at h
        rw [walkFrom_read (by omega) (readBlock_of_le (by omega))]
        split at h
        · rename_i hblank
          rw [if_pos hblank]
          rw [add_eq (show zeroBlocks + 1 < 2 ^ 32 by omega)] at h ⊢
          dsimp only [bind, Except.bind] at h ⊢
          split at h
          · rename_i hmany
            rw [if_pos hmany]
            exact .inl h
          · rename_i hfew
            rw [if_neg hfew]
            exact ih _ (by omega) h hp (by omega) (by omega) rfl
        · rename_i hheader
          obtain ⟨⟨p', next⟩, hmember, h⟩ := bind_eq_ok.mp h
          obtain ⟨hterm, -, hnext⟩ := memberAt_spec hmember
          rw [if_neg hheader, hmember]
          dsimp only [bind, Except.bind] at h ⊢
          split at h
          · obtain rfl := Except.ok.inj h
            cases hwhole
          · have hroom := room_of_terminator h hend (hterm.trans hp) (by decide)
            rw [if_neg (by omega)]
            exact ih _ (by omega) h (hterm.trans hp) (by decide) (by omega) rfl

end Walk

end VeraqisRecover.Analyze.TarReader

namespace VeraqisRecover.Recovery

open ByteString Checked

variable {tools : Toolbox} {input original : Analyze.DataSource} {label : FilePath}
  {options : RecoveryOptions}

/-! ## What the detector reports -/

/-- What the detector reports of an archive without a terminator. -/
def missingTerminator : Analyze.Detected where
  kind := .tarMissingTerminator
  location := ⟨none, 0, 0⟩

theorem ne_nil_of_tarChecksumDefects {s : Analyze.DataSource} {max : ℕ}
    {failures : List (ℕ × Text)} {out r : List Analyze.Detected}
    (h : Analyze.tarChecksumDefects s max failures out = .ok r) (hout : out ≠ []) : r ≠ [] := by
  induction failures generalizing out with
  | nil =>
      obtain rfl := Except.ok.inj h
      exact hout
  | cons f failures ih =>
      rw [Analyze.tarChecksumDefects] at h
      split at h
      · obtain rfl := Except.ok.inj h
        exact hout
      · obtain ⟨field, -, h⟩ := bind_eq_ok.mp h
        obtain ⟨actual, -, h⟩ := bind_eq_ok.mp h
        obtain ⟨stop, -, h⟩ := bind_eq_ok.mp h
        obtain ⟨location, -, h⟩ := bind_eq_ok.mp h
        exact ih h (List.append_ne_nil_of_right_ne_nil _ (List.cons_ne_nil _ _))

theorem sound_of_tarDefects {s : Analyze.DataSource} {p : Analyze.TarParse}
    (h : Analyze.tarDefects s p [] 1 = .ok []) :
    p.checksumFailures = [] ∧ p.truncated = false ∧ p.zeroTerminatorPresent = true := by
  obtain ⟨out, hout, h⟩ := bind_eq_ok.mp h
  split at h
  · exact absurd rfl (Analyze.ne_nil_of_push h)
  · rename_i hwhole
    split at h
    · exact absurd rfl (Analyze.ne_nil_of_push h)
    · rename_i hend
      obtain rfl := Except.ok.inj h
      refine ⟨?_, Bool.eq_false_iff.mpr hwhole, not_not.mp hend⟩
      cases hsums : p.checksumFailures with
      | nil => rfl
      | cons f rest =>
          rw [hsums] at hout
          obtain ⟨field, -, hout⟩ := bind_eq_ok.mp hout
          obtain ⟨actual, -, hout⟩ := bind_eq_ok.mp hout
          obtain ⟨stop, -, hout⟩ := bind_eq_ok.mp hout
          obtain ⟨location, -, hout⟩ := bind_eq_ok.mp hout
          exact absurd rfl (ne_nil_of_tarChecksumDefects hout (List.cons_ne_nil _ _))

/-- Without its terminator a file is reported clean still, or with the one defect. -/
theorem tarDefects_of_cut {inflate : Bytes → Bytes × Bool}
    (hclean : Analyze.ReportsNoDefect inflate original .tar)
    (hcut : original.bytes = input.bytes ++ List.replicate 1024 0) :
    Analyze.ReportsNoDefect inflate input .tar ∨ ∀ wal max,
      Analyze.formatDefects inflate wal input .tar true max = .ok [missingTerminator] := by
  obtain ⟨q, hparse, hdefects⟩ := bind_eq_ok.mp (hclean.capped none)
  obtain ⟨hsums, hwhole, hend⟩ := sound_of_tarDefects hdefects
  rcases Analyze.TarReader.walkFrom_cut hcut hparse hend hwhole rfl (by decide)
    (Nat.zero_le _) with hwalk | hwalk
  · left
    refine Analyze.reportsNoDefect_of_nil fun _ max ↦ bind_eq_ok.mpr ⟨q, hwalk, ?_⟩
    exact Analyze.tarDefects_of_clean hsums hwhole hend max
  · right
    refine fun _ max ↦ bind_eq_ok.mpr ⟨_, hwalk, ?_⟩
    rw [Analyze.tarDefects]
    dsimp only
    rw [hsums, hwhole]
    rfl

/-! ## Recovery -/

theorem TarTerminatorAppend.apply_of_cut (hcut : original.bytes = input.bytes ++
    List.replicate 1024 0) (hopen : alreadyTerminated input.bytes = false) : ∃ report,
      tarTerminatorAppend.apply input.bytes = .ok (original.bytes, report) := by
  change ∃ report, TarTerminatorAppend.apply input.bytes = .ok (original.bytes, report)
  rw [TarTerminatorAppend.apply, if_neg (Bool.eq_false_iff.mp hopen), hcut]
  exact ⟨_, rfl⟩

/-- The terminator is appended before sizes are guessed and members are salvaged. -/
theorem applicable_terminator (overall : ℕ) : ((allStrategies tools).filter (·.canApply
    (analysisOf tools.env input .tar [missingTerminator] overall))).insertionSort
      (fun a b ↦ b.priority ≤ a.priority) =
        [tarTerminatorAppend, tarSizeBoundaryResync, tarContinuationSalvage] := rfl

/-- A clean archive that lost its last two blocks, and is no longer clean without them, gets them
back, unless its members end in as many zeros. -/
theorem recoverStream_terminator (hbare : Unlisted tools.env label)
    (hauto : options.forcedStrategy = none) (hagg : options.aggressive = false)
    (horiginal : Pristine tools.env original .tar)
    (hcut : original.bytes = input.bytes ++ List.replicate 1024 0)
    (hunclean : ¬ Analyze.ReportsNoDefect tools.env.inflate input .tar)
    (hopen : TarTerminatorAppend.alreadyTerminated input.bytes = false)
    (hname : Analyze.FormatDetection.detect input label.toList = .ok .tar) :
    ∃ report, recoverStream tools input label options = .ok (.ok (original.bytes, report)) ∧
      CreditedTo tarTerminatorAppend report := by
  have hdefects := (tarDefects_of_cut horiginal.clean hcut).resolve_left hunclean
  have hdetect : Analyze.detect tools.env.inflate (tools.env.wal label.toList) input .tar
      (Analyze.Integrity.run tools.env input .sha256) true 1000 =
        .ok ([missingTerminator], false) := by
    refine bind_eq_ok.mpr ⟨_, hdefects _ _, ?_⟩
    exact bind_eq_ok.mpr ⟨_, Analyze.manifestDefect_absent _ _ _ rfl, rfl⟩
  obtain ⟨applied, happly⟩ := TarTerminatorAppend.apply_of_cut hcut hopen
  have hne : original.bytes ≠ [] := by
    rw [hcut]
    exact List.append_ne_nil_of_right_ne_nil _ (List.cons_ne_nil _ _)
  exact recoverStream_of_first hbare hagg horiginal hne (firstAsked_of_detect hbare hauto hname
    (Analyze.Engine.refusal_of_ne_zip input (by decide)) hdetect (List.cons_ne_nil _ _)
    applicable_terminator rfl nofun) happly

/-! ## One byte under the name `z` -/

def letterMember : Tar.Entry where
  name := ['z']
  data := [0x78]
  short := by decide
  small := by decide

def letterTar : Analyze.DataSource where
  bytes := Tar.tarArchive [(letterMember.name, letterMember.data)]
  addressable := by
    rw [← List.map_singleton (f := fun m : Tar.Entry ↦ (m.name, m.data)),
      Analyze.TarReader.tarArchive_eq, List.flatMap_singleton, List.length_append,
      List.length_append, Analyze.TarReader.length_memberBytes,
      Analyze.TarReader.length_zeroBlock]
    decide

/-- Its member alone. -/
def openTar : Analyze.DataSource where
  bytes := Analyze.TarReader.memberBytes letterMember
  addressable := by
    rw [Analyze.TarReader.length_memberBytes]
    decide

theorem letterTar_bytes : letterTar.bytes = [letterMember].flatMap Analyze.TarReader.memberBytes ++
    (Analyze.TarReader.zeroBlock ++ Analyze.TarReader.zeroBlock) :=
  Analyze.TarReader.tarArchive_eq [letterMember]

theorem letterTar_eq : letterTar.bytes = openTar.bytes ++ List.replicate 1024 0 := by
  rw [letterTar_bytes, List.flatMap_singleton, Analyze.TarReader.zeroBlock,
    List.replicate_append_replicate]
  rfl

theorem letterTar_clean (inflate : Bytes → Bytes × Bool) :
    Analyze.ReportsNoDefect inflate letterTar .tar := by
  have hbytes : letterTar.bytes = [] ++ ([letterMember].flatMap Analyze.TarReader.memberBytes ++
      (Analyze.TarReader.zeroBlock ++ (Analyze.TarReader.zeroBlock ++ []))) := by
    rw [List.nil_append, List.append_nil, letterTar_bytes]
  have hwalk := Analyze.TarReader.walkFrom_archive (by decide) hbytes true {}
  refine Analyze.reportsNoDefect_of_nil fun _ max ↦ bind_eq_ok.mpr ⟨_, hwalk, ?_⟩
  exact Analyze.tarDefects_of_clean rfl rfl rfl max

theorem openTar_unclean (inflate : Bytes → Bytes × Bool) :
    ¬ Analyze.ReportsNoDefect inflate openTar .tar := by
  intro hclean
  have hlen : openTar.len = 1024 := Analyze.TarReader.length_memberBytes letterMember
  have hbytes : openTar.bytes = [] ++ (letterMember.header ++ (letterMember.data ++
      List.replicate (Tar.paddedSize letterMember.data.length - letterMember.data.length) 0)) :=
    Analyze.TarReader.memberBytes_eq letterMember
  obtain ⟨hin, hread⟩ := Analyze.TarReader.readBlock hbytes letterMember.length_header
  have hmember := @Analyze.TarReader.memberAt_header letterMember (by decide) 0 (by decide) true {}
  have hnext : 0 + 512 + Tar.paddedSize letterMember.data.length ≤ openTar.len := by
    rw [hlen]
    decide
  have hwalk := @Analyze.TarReader.walkFrom_header openTar 0 true {} _ 0 hin hread
    (Analyze.TarReader.header_not_zero letterMember) _ _ hmember hnext
  rw [Analyze.TarReader.walkFrom_past (by rw [hlen]; decide) hnext] at hwalk
  obtain ⟨q, hparse, hdefects⟩ := bind_eq_ok.mp (hclean.capped none)
  obtain rfl := Except.ok.inj (hparse.symm.trans hwalk)
  obtain ⟨-, -, hend⟩ := sound_of_tarDefects hdefects
  cases hend

theorem detect_stamped {file : Analyze.DataSource}
    (h : FormatId.identify (.whole file.bytes) = some .tar) (path : Text) :
    Analyze.FormatDetection.detect file path = .ok .tar := by
  rw [Analyze.FormatDetection.detect_eq, h]
  rfl

theorem recoverStream_terminator_openTar :
    ∃ report, recoverStream bareToolbox openTar "a" {} = .ok (.ok (letterTar.bytes, report)) ∧
      CreditedTo tarTerminatorAppend report :=
  recoverStream_terminator rfl rfl rfl
    ⟨detect_stamped (by decide +kernel),
      Analyze.Engine.refusal_of_ne_zip letterTar (by decide), letterTar_clean _⟩
    letterTar_eq (openTar_unclean _) (by decide +kernel) (detect_stamped (by decide +kernel) _)

end VeraqisRecover.Recovery
