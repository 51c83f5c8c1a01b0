import VeraqisRecover.Recovery.Restoration

/-!
# A 7z file with a damaged signature

Named as a 7z file, and with its start header untouched, it comes out of a
stream recovery as it was before the damage.
-/

namespace VeraqisRecover.Recovery

open ByteString Checked Crc

variable {tools : Toolbox} {input original : Analyze.DataSource} {label : FilePath}
  {options : RecoveryOptions}

/-- The rule of the shared table for 7z files. -/
def sevenzOpening : FormatId.Signature :=
  ⟨.sevenZ, .start 0, [0x37, 0x7A, 0xBC, 0xAF, 0x27, 0x1C], 6,
    .measured "engine corpus, 7-Zip archives"⟩

/-- The start header of a file without defects is in order. -/
theorem intact_of_clean {inflate : Bytes → Bytes × Bool}
    (h : Analyze.ReportsNoDefect inflate original .sevenZ)
    (hlong : Sevenz.SIGNATURE_HEADER_LEN ≤ original.bytes.length) :
    Sevenz.Intact original.bytes := by
  have hclean : Analyze.sevenzDefects original [] = .ok [] := h.capped none
  have hthirtyTwo : 32 ≤ original.bytes.length := hlong
  obtain ⟨head, hhead, hclean⟩ := bind_eq_ok.mp hclean
  obtain rfl := Except.ok.inj (hhead.symm.trans (Analyze.sevenz_head_eq original))
  dsimp only [Option.getD_some] at hclean
  by_cases hsig : original.bytes.take 6 = Analyze.sevenzSig
  · rw [if_neg (not_not.mpr (Analyze.sevenz_sig_eq.mpr hsig)), if_pos (by
      rw [List.length_take]
      omega)] at hclean
    refine ⟨hlong, hsig, ?_⟩
    obtain ⟨stored, hstored, hclean⟩ := bind_eq_ok.mp hclean
    obtain ⟨startHeader, hstart, hclean⟩ := bind_eq_ok.mp hclean
    obtain rfl := Except.ok.inj (hstored.symm.trans (Analyze.leAt_head hthirtyTwo (by decide)))
    obtain rfl := Except.ok.inj (hstart.symm.trans
      (Analyze.range_head hthirtyTwo (by decide) (by decide)))
    dsimp only at hclean
    split at hclean
    · assumption
    · obtain ⟨location, -, hclean⟩ := bind_eq_ok.mp hclean
      obtain ⟨field, -, hclean⟩ := bind_eq_ok.mp hclean
      exact absurd (Except.ok.inj hclean) (List.append_ne_nil_of_right_ne_nil _ (by simp))
  · rw [if_pos (mt Analyze.sevenz_sig_eq.mp hsig)] at hclean
    exact absurd rfl (Analyze.ne_nil_of_push hclean)

theorem pristine_of_intact {env : Analyze.Environment}
    (h : Analyze.ReportsNoDefect env.inflate original .sevenZ)
    (hintact : Sevenz.Intact original.bytes) : Pristine env original .sevenZ where
  identified := by
    have hthirtyTwo : 32 ≤ original.bytes.length := hintact.long
    refine detect_of_opening sevenzOpening (by decide) ?_ ?_ rfl
    · rw [List.prefix_iff_eq_take]
      exact hintact.signature.symm
    · change 6 ≤ original.bytes.length
      omega
  readable := Analyze.Engine.refusal_of_ne_zip original (by decide)
  clean := h

/-- What the detector reports of a file whose signature is not the format's. -/
def signatureDefect (data : Bytes) : Analyze.Detected where
  kind := .sevenZMagicBad
  location := ⟨none, 0, 6⟩
  actualBytes := if 6 ≤ (data.take 32).length then (data.take 32).take 6 else []
  expectedBytes := some Analyze.sevenzSig
  detail := "7z signature should be 37 7A BC AF 27 1C"

theorem sevenzDefects_of_damaged (h : input.bytes.take 6 ≠ Analyze.sevenzSig) :
    Analyze.sevenzDefects input [] = .ok [signatureDefect input.bytes] := by
  rw [Analyze.sevenzDefects, Analyze.sevenz_head_eq]
  dsimp only [bind, Except.bind, Option.getD_some]
  rw [if_pos (mt Analyze.sevenz_sig_eq.mp h)]
  rfl

/-- Only the restoration applies. -/
theorem applicable_signature (overall : ℕ) : ((allStrategies tools).filter (·.canApply
    (analysisOf tools.env input .sevenZ [signatureDefect input.bytes] overall))).insertionSort
      (fun a b ↦ b.priority ≤ a.priority) = [sevenZSignatureRestore] := rfl

theorem apply_of_repairSignature {r : Sevenz.SignatureRepair}
    (h : Sevenz.repairSignature input.bytes = some r) :
    ∃ applied, sevenZSignatureRestore.apply input.bytes = .ok (r.data, applied) := by
  change ∃ applied, SevenZSignatureRestore.apply input.bytes = .ok (r.data, applied)
  rw [SevenZSignatureRestore.apply, h]
  exact ⟨_, rfl⟩

theorem firstAsked_signature (hbare : Unlisted tools.env label)
    (hauto : options.forcedStrategy = none) (hsig : input.bytes.take 6 ≠ Analyze.sevenzSig)
    (hname : Analyze.FormatDetection.detect input label.toList = .ok .sevenZ) :
    FirstAsked tools input label options sevenZSignatureRestore := by
  have hdetect : Analyze.detect tools.env.inflate (tools.env.wal label.toList) input .sevenZ
      (Analyze.Integrity.run tools.env input .sha256) true 1000 =
        .ok ([signatureDefect input.bytes], false) := by
    refine bind_eq_ok.mpr ⟨_, sevenzDefects_of_damaged hsig, ?_⟩
    exact bind_eq_ok.mpr ⟨_, Analyze.manifestDefect_absent _ _ _ rfl, rfl⟩
  exact firstAsked_of_detect hbare hauto hname
    (Analyze.Engine.refusal_of_ne_zip input (by decide)) hdetect (List.cons_ne_nil _ _)
    applicable_signature rfl nofun

/-- Whatever its six bytes were overwritten with, the signature comes back, and nothing else of the
file changes. -/
theorem recoverStream_signature (hbare : Unlisted tools.env label)
    (hauto : options.forcedStrategy = none) (hagg : options.aggressive = false)
    (hclean : Analyze.ReportsNoDefect tools.env.inflate original .sevenZ)
    (hlong : Sevenz.SIGNATURE_HEADER_LEN ≤ original.bytes.length)
    (hdamage : Sevenz.DiffersInSignature input.bytes original.bytes)
    (hname : Analyze.FormatDetection.detect input label.toList = .ok .sevenZ) :
    ∃ report, recoverStream tools input label options = .ok (.ok (original.bytes, report)) ∧
      CreditedTo sevenZSignatureRestore report := by
  have hintact := intact_of_clean hclean hlong
  have hsig : input.bytes.take 6 ≠ Analyze.sevenzSig := by
    rw [show Analyze.sevenzSig = Sevenz.SIGNATURE from rfl, ← hintact.signature]
    exact hdamage.2.2
  have hrepair := Sevenz.repairSignature_complete hintact hdamage
  obtain ⟨applied, happly⟩ := apply_of_repairSignature hrepair
  have hne : original.bytes ≠ [] := by
    intro hnil
    rw [hnil] at hlong
    exact absurd hlong (by decide)
  exact recoverStream_of_first hbare hagg (pristine_of_intact hclean hintact) hne
    (firstAsked_signature hbare hauto hsig hname) happly

/-! ## An archive of no file -/

def emptyArchive : Analyze.DataSource where
  bytes := Sevenz.emptyFile
  addressable := by decide

theorem emptyArchive_clean : Analyze.sevenzDefects emptyArchive [] = .ok [] := by
  decide

theorem detect_overwrittenArchive :
    Analyze.FormatDetection.detect overwrittenArchive "a.7z".toList = .ok .sevenZ := by
  rw [Analyze.FormatDetection.detect_eq]
  decide

theorem recoverStream_signature_overwrittenArchive :
    ∃ report, recoverStream bareToolbox overwrittenArchive "a.7z" {} =
      .ok (.ok (emptyArchive.bytes, report)) ∧ CreditedTo sevenZSignatureRestore report :=
  recoverStream_signature rfl rfl rfl
    (Analyze.reportsNoDefect_of_nil fun _ _ ↦ emptyArchive_clean) (by decide)
    ⟨rfl, rfl, by decide⟩ detect_overwrittenArchive

end VeraqisRecover.Recovery
