import VeraqisRecover.Analyze.GzipHealthy
import VeraqisRecover.Recovery.Restoration
import VeraqisRecover.Support.SameFrom

/-!
# A GZIP file with a damaged magic

Two bytes are all that the detector misses, whatever stands behind them is
checked as before, and the two bytes are put back.
-/

namespace VeraqisRecover.Recovery

open ByteString Checked Crc

/-! ## The body does not depend on the magic -/

theorem GzTrailerRecompute.passIf_passNul_congr {d e : Bytes} {k pos : ℕ} (h : SameFrom k d e)
    (c : Bool) (hpos : k ≤ pos) : passIf c (passNul d) pos = passIf c (passNul e) pos := by
  rw [passIf, passIf, passNul, passNul, h.drop_of_le hpos]

theorem GzTrailerRecompute.two_le_skipExtra {d : Bytes} {c : Bool} {pos : ℕ}
    (h : Gzip.skipIf c (Gzip.skipExtra d) 10 = some pos) : 2 ≤ pos := by
  unfold Gzip.skipIf at h
  split at h
  · obtain ⟨xlen, -, rfl⟩ := Option.map_eq_some_iff.mp h
    omega
  · obtain rfl := Option.some.inj h
    decide

theorem GzTrailerRecompute.gzBodyStart_congr {d e : Bytes} (h : SameFrom 2 d e) :
    gzBodyStart d = gzBodyStart e := by
  have hskip (flags : UInt8) : Gzip.skipIf (flags &&& 0x04 != 0) (Gzip.skipExtra d) 10 =
      Gzip.skipIf (flags &&& 0x04 != 0) (Gzip.skipExtra e) 10 := by
    rw [Gzip.skipIf, Gzip.skipIf, Gzip.skipExtra, Gzip.skipExtra, h.u16le (by decide)]
  rw [gzBodyStart, gzBodyStart, h.length, h.getElem? (by decide)]
  dsimp only
  rw [hskip]
  generalize e[3]?.getD 0 = flags
  cases hextra : Gzip.skipIf (flags &&& 0x04 != 0) (Gzip.skipExtra e) 10 with
  | none => rfl
  | some pos =>
      have hpos := two_le_skipExtra hextra
      have hnamed : 2 ≤ passIf (flags &&& 0x08 != 0) (passNul e) pos :=
        hpos.trans (le_passIf (lt_passNul _).le)
      dsimp only
      rw [passIf_passNul_congr h _ hpos, passIf_passNul_congr h _ hnamed]

theorem GzTrailerRecompute.two_le_gzBodyStart {d : Bytes} (h : 2 ≤ d.length) :
    2 ≤ gzBodyStart d := by
  unfold gzBodyStart
  split
  · exact h
  · dsimp only
    generalize d[3]?.getD 0 = flags
    cases hextra : Gzip.skipIf (flags &&& 0x04 != 0) (Gzip.skipExtra d) 10 with
    | none => exact h
    | some pos =>
        have hpos := two_le_skipExtra hextra
        refine le_min (hpos.trans ?_) h
        exact (le_passIf (lt_passNul _).le).trans ((le_passIf (lt_passNul _).le).trans
          (le_passIf (Nat.le_add_right _ 2)))

/-! ## What the detector reports -/

section Defects

variable {inflate : Bytes → Bytes × Bool} {s t : Analyze.DataSource}
  {out : List Analyze.Detected}

theorem gzBodyDefect_nil {start : ℕ} {detail : String}
    (h : Analyze.gzBodyDefect s start detail out = .ok []) : False := by
  unfold Analyze.gzBodyDefect at h
  split at h
  · exact Analyze.ne_nil_of_push h rfl
  · rename_i hne
    exact hne (Except.ok.inj h)

theorem u32Field_congr {d e : Bytes} {k pos i : ℕ} (h : SameFrom k d e) (hpos : k ≤ pos) :
    Analyze.u32Field d pos i = Analyze.u32Field e pos i := by
  unfold Analyze.u32Field
  cases hfirst : add 64 pos i with
  | error fault => rfl
  | ok first =>
      have hle : k ≤ first := by
        have heq := add_eq_ok hfirst
        omega
      dsimp only [bind, Except.bind]
      cases add 64 pos (i + 4) with
      | error fault => rfl
      | ok last =>
          dsimp only
          rw [h.range hle]

theorem gzTrailerDefects_congr {start trailer : ℕ}
    (h : Analyze.gzTrailerDefects inflate s start trailer out = .ok [])
    (hsame : SameFrom 2 t.bytes s.bytes) (hstart : 2 ≤ start) (htrailer : 2 ≤ trailer)
    (found : List Analyze.Detected) :
    out = [] ∧ Analyze.gzTrailerDefects inflate t start trailer found = .ok found := by
  unfold Analyze.gzTrailerDefects at h ⊢
  obtain ⟨stored, hstored, h⟩ := bind_eq_ok.mp h
  obtain ⟨size, hsize, h⟩ := bind_eq_ok.mp h
  obtain ⟨body, hbody, h⟩ := bind_eq_ok.mp h
  dsimp only at h
  obtain ⟨plain, hplain, h⟩ := bind_eq_ok.mp h
  rw [u32Field_congr hsame htrailer, hstored, u32Field_congr hsame htrailer, hsize,
    hsame.range hstart, hbody]
  dsimp only [bind, Except.bind] at h ⊢
  rw [hplain]
  dsimp only
  split at h
  · exact absurd h gzBodyDefect_nil
  · rename_i hfull
    obtain ⟨between, hcrc, hisize⟩ := bind_eq_ok.mp h
    obtain ⟨hlength, rfl⟩ := Analyze.gzIsizeDefect_nil hisize
    obtain ⟨hsum, rfl⟩ := Analyze.gzCrcDefect_nil hcrc
    rw [if_neg hfull, Analyze.gzCrcDefect_of_eq hsum]
    exact ⟨rfl, Analyze.gzIsizeDefect_of_eq hlength found⟩

/-- A body and a trailer without defects are so behind any magic. -/
theorem gzBodyDefects_congr (h : Analyze.gzBodyDefects inflate s out = .ok [])
    (hsame : SameFrom 2 t.bytes s.bytes) (found : List Analyze.Detected) :
    out = [] ∧ Analyze.gzBodyDefects inflate t found = .ok found := by
  have hstart := GzHeader.analyze_gzBodyStart_eq s.addressable
  have hstart' : Analyze.gzBodyStart t.bytes = .ok (GzTrailerRecompute.gzBodyStart s.bytes) := by
    rw [GzHeader.analyze_gzBodyStart_eq t.addressable,
      GzTrailerRecompute.gzBodyStart_congr hsame]
  unfold Analyze.gzBodyDefects at h ⊢
  rw [hstart] at h
  rw [hstart', hsame.length]
  dsimp only [bind, Except.bind] at h ⊢
  split at h
  · exact absurd h gzBodyDefect_nil
  · rename_i hlong
    have hstart := GzTrailerRecompute.two_le_gzBodyStart (show 2 ≤ s.bytes.length by omega)
    rw [if_neg hlong]
    exact gzTrailerDefects_congr h hsame hstart (by omega) found

/-- Other bytes than the two of the format stand at the front. -/
def WithoutMagic (d : Bytes) : Prop := d.take 2 ≠ [0x1F, 0x8B]

def magicDefect (d : Bytes) : Analyze.Detected where
  kind := .gzMagicBad
  location := ⟨none, 0, 2⟩
  actualBytes := (d.take 10).take 2
  expectedBytes := some [0x1F, 0x8B]
  detail := "magic bytes should be 1F 8B"

theorem gzMagicOk_iff {d : Bytes} (h : 10 ≤ d.length) :
    Analyze.gzMagicOk (d.take 10) = .ok (decide (d.take 2 = [0x1F, 0x8B])) := by
  obtain ⟨a, b, rest, rfl⟩ : ∃ a b rest, d = a :: b :: rest := by
    match d, h with
    | a :: b :: rest, _ => exact ⟨a, b, rest, rfl⟩
  unfold Analyze.gzMagicOk
  by_cases ha : a = 0x1F
  · subst ha
    simp [index, bind, Except.bind, pure, Except.pure]
  · simp [index, bind, Except.bind, pure, Except.pure, ha]

theorem gzMagicDefect_eq {d : Bytes} (h : 10 ≤ d.length) (out : List Analyze.Detected) :
    Analyze.gzMagicDefect (d.take 10) out =
      .ok (if d.take 2 = [0x1F, 0x8B] then out else out ++ [magicDefect d]) := by
  have htwo : 2 ≤ (d.take 10).length := by
    rw [List.length_take]
    omega
  rw [Analyze.gzMagicDefect, gzMagicOk_iff h]
  dsimp only [bind, Except.bind]
  by_cases hmagic : d.take 2 = [0x1F, 0x8B]
  · rw [decide_eq_true hmagic, if_pos rfl, if_pos hmagic]
    rfl
  · rw [decide_eq_false hmagic, if_neg Bool.false_ne_true, if_neg hmagic, if_pos htwo]
    rfl

theorem gzOtherMethod_congr {d e : Bytes} (h : SameFrom 2 d e) :
    Analyze.gzOtherMethod (d.take 10) = Analyze.gzOtherMethod (e.take 10) := by
  have htake : SameFrom 2 (d.take 10) (e.take 10) :=
    ⟨by rw [List.length_take, List.length_take, h.length], h.take_drop le_rfl⟩
  rw [Analyze.gzOtherMethod, Analyze.gzOtherMethod, htake.length, htake.index le_rfl]

/-- A file without defects has its magic, and is without other defects behind any. -/
theorem gzDefects_congr (h : Analyze.gzDefects inflate s [] = .ok []) :
    18 ≤ s.bytes.length ∧ s.bytes.take 2 = [0x1F, 0x8B] ∧
      ∀ t : Analyze.DataSource, SameFrom 2 t.bytes s.bytes → WithoutMagic t.bytes →
        Analyze.gzDefects inflate t [] = .ok [magicDefect t.bytes] := by
  unfold Analyze.gzDefects at h
  split at h
  · obtain ⟨actual, -, h⟩ := bind_eq_ok.mp h
    exact absurd rfl (Analyze.ne_nil_of_push h)
  · rename_i hlong
    have hlen : 18 ≤ s.bytes.length := not_lt.mp hlong
    have hhead {u : Analyze.DataSource} (hu : u.bytes.length = s.bytes.length) :
        range u.bytes 0 (min u.bytes.length 10) = .ok (u.bytes.take 10) := by
      rw [range_eq (Nat.zero_le _) (min_le_left _ _), List.drop_zero, Nat.sub_zero,
        min_eq_right (by omega)]
    obtain ⟨head, hread, h⟩ := bind_eq_ok.mp h
    obtain rfl := Except.ok.inj (hread.symm.trans (hhead rfl))
    obtain ⟨out, hout, h⟩ := bind_eq_ok.mp h
    obtain rfl := Except.ok.inj (hout.symm.trans (gzMagicDefect_eq (by omega) []))
    obtain ⟨method, hmethod, h⟩ := bind_eq_ok.mp h
    cases method with
    | some method =>
        exact absurd rfl (Analyze.ne_nil_of_push h)
    | none =>
        have htake : s.bytes.take 2 = [0x1F, 0x8B] := by
          by_contra hne
          rw [if_neg hne] at h
          exact absurd (gzBodyDefects_congr h ⟨rfl, rfl⟩ []).1 (List.cons_ne_nil _ _)
        refine ⟨hlen, htake, fun t hsame hmagic ↦ ?_⟩
        obtain ⟨-, hbody⟩ := gzBodyDefects_congr h hsame [magicDefect t.bytes]
        have hlong' : ¬t.len < Analyze.gzMinSize := by
          rw [Analyze.DataSource.len, hsame.length]
          exact hlong
        rw [Analyze.gzDefects, if_neg hlong', hhead hsame.length]
        dsimp only [bind, Except.bind]
        rw [gzMagicDefect_eq (hsame.length.symm ▸ by omega), if_neg hmagic]
        dsimp only
        rw [gzOtherMethod_congr hsame, hmethod]
        exact hbody

end Defects

/-! ## Recovery -/

theorem GzMagicRestore.apply_eq {d original : Bytes} (hsame : SameFrom 2 d original)
    (hlong : 2 ≤ original.length) (hmagic : original.take 2 = [0x1F, 0x8B]) :
    ∃ report, gzMagicRestore.apply d = .ok (original, report) := by
  have hlen : 2 ≤ d.length := hsame.length.symm ▸ hlong
  have hset : (d.set 0 0x1F).set 1 0x8B = original := by
    obtain ⟨a, b, rest, rfl⟩ : ∃ a b rest, d = a :: b :: rest := by
      match d, hlen with
      | a :: b :: rest, _ => exact ⟨a, b, rest, rfl⟩
    rw [← List.take_append_drop 2 original, hmagic, ← hsame.drop]
    rfl
  change ∃ report, GzMagicRestore.apply d = .ok (original, report)
  rw [GzMagicRestore.apply, if_neg (by omega), hset]
  exact ⟨_, rfl⟩

variable {tools : Toolbox} {input original : Analyze.DataSource} {label : FilePath}
  {options : RecoveryOptions}

/-- The rule of the shared table for GZIP files. -/
def gzipOpening : FormatId.Signature :=
  ⟨.gzip, .start 0, [0x1F, 0x8B], 2, .measured "engine corpus, gzip members"⟩

theorem pristine_of_gzip {env : Analyze.Environment}
    (h : Analyze.ReportsNoDefect env.inflate original .gzip) : Pristine env original .gzip where
  identified := by
    obtain ⟨hlong, htake, -⟩ := gzDefects_congr (h.capped none)
    refine detect_of_opening gzipOpening (by decide) ?_ ?_ rfl
    · rw [List.prefix_iff_eq_take]
      exact htake.symm
    · change 2 ≤ original.bytes.length
      omega
  readable := Analyze.Engine.refusal_of_ne_zip original (by decide)
  clean := h

/-- The restoration of the magic is asked first, then the salvage of members. -/
theorem applicable_magic (overall : ℕ) : ((allStrategies tools).filter (·.canApply
    (analysisOf tools.env input .gzip [magicDefect input.bytes] overall))).insertionSort
      (fun a b ↦ b.priority ≤ a.priority) = [gzMagicRestore, gzMemberSalvage tools.codec] := rfl

/-- Whatever its first two bytes were overwritten with, they come back, and nothing else of the
file changes. -/
theorem recoverStream_magic (hbare : Unlisted tools.env label)
    (hauto : options.forcedStrategy = none) (hagg : options.aggressive = false)
    (hclean : Analyze.ReportsNoDefect tools.env.inflate original .gzip)
    (hdamage : SameFrom 2 input.bytes original.bytes) (hmagic : WithoutMagic input.bytes)
    (hname : Analyze.FormatDetection.detect input label.toList = .ok .gzip) :
    ∃ report, recoverStream tools input label options = .ok (.ok (original.bytes, report)) ∧
      CreditedTo gzMagicRestore report := by
  obtain ⟨hlong, htake, hdefects⟩ := gzDefects_congr (hclean.capped none)
  obtain ⟨applied, happly⟩ := GzMagicRestore.apply_eq hdamage (by omega) htake
  have hdetect : Analyze.detect tools.env.inflate (tools.env.wal label.toList) input .gzip
      (Analyze.Integrity.run tools.env input .sha256) true 1000 =
        .ok ([magicDefect input.bytes], false) := by
    refine bind_eq_ok.mpr ⟨_, hdefects input hdamage hmagic, ?_⟩
    exact bind_eq_ok.mpr ⟨_, Analyze.manifestDefect_absent _ _ _ rfl, rfl⟩
  have hne : original.bytes ≠ [] := by
    rintro hnil
    rw [hnil] at hlong
    exact absurd hlong (by decide)
  have hpristine := pristine_of_gzip hclean
  exact recoverStream_of_first hbare hagg hpristine hne (firstAsked_of_detect hbare hauto hname
    (Analyze.Engine.refusal_of_ne_zip input (by decide)) hdetect (List.cons_ne_nil _ _)
    applicable_magic rfl nofun) happly

/-! ## One byte in a stored block -/

/-- Stored blocks can be inflated. -/
def storedToolbox : Toolbox :=
  { bareToolbox with env := { bareToolbox.env with inflate := Analyze.storedBlock } }

def letterFile : Analyze.DataSource where
  bytes := Analyze.gzipFile [Analyze.letterOf 0x61]
  addressable := by decide

/-- The same with its magic overwritten. -/
def unmarkedFile : Analyze.DataSource where
  bytes := [0x00, 0x00] ++ letterFile.bytes.drop 2
  addressable := by decide

theorem letterFile_clean : Analyze.ReportsNoDefect Analyze.storedBlock letterFile .gzip := by
  refine (Analyze.gzipFile_iff (List.cons_ne_nil _ _) ?_ (by decide) rfl).mpr ⟨rfl, rfl⟩
  intro m hm
  obtain rfl := List.mem_singleton.mp hm
  exact Analyze.letterOf_decodes 0x61

theorem detect_unmarkedFile :
    Analyze.FormatDetection.detect unmarkedFile "a.gz".toList = .ok .gzip := by
  rw [Analyze.FormatDetection.detect_eq]
  decide

theorem recoverStream_magic_unmarkedFile :
    ∃ report, recoverStream storedToolbox unmarkedFile "a.gz" {} =
      .ok (.ok (letterFile.bytes, report)) ∧ CreditedTo gzMagicRestore report :=
  recoverStream_magic rfl rfl rfl letterFile_clean ⟨rfl, rfl⟩ (by unfold WithoutMagic; decide)
    detect_unmarkedFile

end VeraqisRecover.Recovery
