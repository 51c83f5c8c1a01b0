import VeraqisRecover.Analyze.Rules

/-!
# The recoverability estimate

`recoverability/estimator.rs`, its `weights.rs` and `model/recoverability.rs`: a probability summed
from named factors, clamped, and read as one of four classes.  Every weight and every threshold is
a double, so each is rounded where it is used.
-/

namespace VeraqisRecover.Analyze.Recoverability

open Checked

/-! ## Scores -/

/-- A factor that pushed the probability up or down. -/
structure RecoveryFactor where
  name : String
  positive : Bool
  weight : ℚ
  deriving DecidableEq, Repr

def RecoveryFactor.new (name : String) (weight : ℚ) : RecoveryFactor := ⟨name, 0 ≤ weight, weight⟩

/-- Coarse bucket of a probability. -/
inductive RecoverabilityClass
  | high | medium | low | none
  deriving DecidableEq, Repr

structure RecoverabilityScore where
  probability : ℚ
  confidence : ℚ
  factors : List RecoveryFactor
  deriving DecidableEq, Repr

namespace RecoverabilityScore

/-- Both scores are clamped into the valid range. -/
def new (probability confidence : ℚ) (factors : List RecoveryFactor) : RecoverabilityScore :=
  ⟨clampUnit probability, clampUnit confidence, factors⟩

/-- For undamaged input. -/
def certain : RecoverabilityScore := ⟨1, 1, []⟩

/-- The class of the probability. -/
def toClass (r : Rounding) (s : RecoverabilityScore) : RecoverabilityClass :=
  if r.fl (75 / 100) ≤ s.probability then .high
  else if r.fl (40 / 100) ≤ s.probability then .medium
  else if r.fl (15 / 100) ≤ s.probability then .low
  else .none

end RecoverabilityScore

/-! ## Weights -/

def BASE : ℚ := 5 / 10
def BITFLIP_ONLY : ℚ := 8 / 100
def ZIP_REDUNDANCY : ℚ := 20 / 100
def TAR_CHECKSUM_ONLY : ℚ := 25 / 100
def EXTERNAL_MANIFEST : ℚ := 18 / 100
def EMBEDDED_CHECKSUMS : ℚ := 8 / 100
def SMALL_DAMAGE_AREA : ℚ := 12 / 100
def PDF_LINEARIZATION : ℚ := 10 / 100
def SQLITE_WAL : ℚ := 15 / 100

/-- The least probability of damage without a definitive unrecoverable signal. -/
def LOW_FLOOR : ℚ := 15 / 100

/-- The greatest probability of damage with one. -/
def NONE_CEILING : ℚ := 10 / 100

def SIGNATURE_MISSING : ℚ := -60 / 100
def MISSING_DATA : ℚ := -28 / 100
def CATASTROPHIC_STRUCTURAL : ℚ := -45 / 100
def NO_MANIFEST_NO_CHECKSUMS : ℚ := -12 / 100
def TRUNCATED_AT_HEADER : ℚ := -45 / 100
def DB_PAGE_SIZE_INVALID : ℚ := -55 / 100

/-! ## The estimator -/

/-- What the estimator needs beyond the corruption list. -/
structure Inputs where
  corruptions : List Corruption
  format : Option ArchiveFormat
  manifestPresent : Bool
  embeddedChecksumsPresent : Bool
  totalSize : ℕ
  scanCapped : Bool
  ioErrors : Bool
  formatDetectionFailed : Bool

namespace Inputs

variable (inputs : Inputs)

/-- Some finding has a rule id of this kind. -/
def anyRule (p : String → Bool) : Bool := inputs.corruptions.any fun c ↦ p c.chain.primary.ruleId

def hasRule (id : String) : Bool := inputs.anyRule (· = id)

def hasRulePrefix (front : String) : Bool := inputs.anyRule (front.toList.isPrefixOf ·.toList)

def hasRuleSuffix (back : String) : Bool := inputs.anyRule (back.toList.isSuffixOf ·.toList)

/-- A finding of a category that is unrecoverable by policy. -/
def threatened : Bool := inputs.corruptions.any (·.category = .securityThreat)

def allBitflip : Bool :=
  inputs.corruptions ≠ [] && inputs.corruptions.all (·.category = .bitFlip)

def tarChecksumOnly : Bool :=
  inputs.corruptions ≠ [] && inputs.corruptions.all (·.chain.primary.ruleId = "TAR_UST_001")

/-- The entry signature is gone, unless it is the one of GZIP, which is written back. -/
def signatureMissing : Bool :=
  inputs.hasRuleSuffix "_MAGIC_001" && !inputs.hasRule "GZ_MAGIC_001" ||
    inputs.hasRule "PDF_HDR_001"

/-- The definitive signals. -/
def unrecoverable : Bool :=
  inputs.signatureMissing || inputs.hasRule "SQ_PGSIZE_001" || inputs.hasRule "ZIP_TRUNC_004" ||
    inputs.hasRule "TAR_TRUNC_003"

/-- The directory is lost, but the local headers can rebuild it. -/
def zipRedundantCatastrophe : Bool :=
  inputs.format = some .zip && (inputs.hasRule "ZIP_EOCD_001" || inputs.hasRule "ZIP_EOCD_002" ||
    inputs.hasRule "ZIP_EOCD_003") && !inputs.hasRule "ZIP_CD_001"

def catastrophicStructural : Bool :=
  inputs.corruptions.any fun c ↦ c.category = .structuralCorruption && c.severity = .catastrophic

def missing : ℕ := (inputs.corruptions.filter (·.category = .missingData)).length

/-- The bytes covered by located damage, a sum of 64-bit words. -/
def damaged : Checked ℕ :=
  (inputs.corruptions.filterMap (·.byteRange)).foldlM (fun sum r ↦ add 64 sum (r.stop - r.start)) 0

/-- Fraction of the stream covered by located damage, if measurable. -/
def damageFraction (r : Rounding) : Checked (Option ℚ) :=
  if inputs.totalSize = 0 then return Option.none
  else do
    let damaged ← inputs.damaged
    return if damaged = 0 then Option.none
      else some (r.fl (r.fl damaged / r.fl inputs.totalSize))

def truncationAtHeader (r : Rounding) : Bool :=
  if inputs.totalSize = 0 then false
  else
    let head := ⌊r.fl (r.fl inputs.totalSize * r.fl (10 / 100))⌋₊
    inputs.corruptions.any fun c ↦ c.category = .truncation && 0 < c.location.offsetEnd &&
      c.location.offsetEnd < head

def confidence (r : Rounding) : ℚ :=
  if inputs.formatDetectionFailed then r.fl (3 / 10)
  else if inputs.ioErrors then r.fl (4 / 10)
  else if inputs.scanCapped then r.fl (6 / 10)
  else 1

end Inputs

/-- A factor that is only there when its condition holds. -/
def factorIf (c : Bool) (name : String) (weight : ℚ) : List (String × ℚ) :=
  if c then [(name, weight)] else []

/-- The factors that raise the probability, in the order they are added. -/
def positiveFactors (r : Rounding) (inputs : Inputs) (frac : Option ℚ) : List (String × ℚ) :=
  factorIf inputs.allBitflip "bitflip-only damage" (r.fl BITFLIP_ONLY) ++
    factorIf inputs.tarChecksumOnly "TAR checksum only" (r.fl TAR_CHECKSUM_ONLY) ++
    factorIf (inputs.format = some .zip && !inputs.hasRule "ZIP_CD_001" &&
      !inputs.hasRule "ZIP_TRUNC_004") "ZIP central directory intact" (r.fl ZIP_REDUNDANCY) ++
    factorIf (inputs.hasRulePrefix "PDF_" && !inputs.hasRule "PDF_HDR_001")
      "PDF linearization hint" (r.fl PDF_LINEARIZATION) ++
    factorIf (inputs.hasRule "SQ_WAL_001") "SQLite WAL recovery" (r.fl SQLITE_WAL) ++
    factorIf inputs.manifestPresent "external manifest available" (r.fl EXTERNAL_MANIFEST) ++
    factorIf inputs.embeddedChecksumsPresent "embedded checksums present"
      (r.fl EMBEDDED_CHECKSUMS) ++
    factorIf (frac.any (· < r.fl (1 / 100))) "small damage area <1%" (r.fl SMALL_DAMAGE_AREA)

/-- The factors that lower it, after those. -/
def negativeFactors (r : Rounding) (inputs : Inputs) : List (String × ℚ) :=
  factorIf inputs.signatureMissing "format signature destroyed" (r.fl SIGNATURE_MISSING) ++
    factorIf (inputs.hasRule "SQ_PGSIZE_001") "SQLite page size invalid"
      (r.fl DB_PAGE_SIZE_INVALID) ++
    factorIf (inputs.truncationAtHeader r || inputs.hasRule "ZIP_TRUNC_004" ||
      inputs.hasRule "TAR_TRUNC_003") "truncation at header" (r.fl TRUNCATED_AT_HEADER) ++
    factorIf (0 < inputs.missing) "missing data" (r.fl (r.fl MISSING_DATA * r.fl inputs.missing)) ++
    factorIf (!inputs.zipRedundantCatastrophe && inputs.catastrophicStructural)
      "catastrophic structural corruption" (r.fl CATASTROPHIC_STRUCTURAL) ++
    factorIf (!inputs.manifestPresent && !inputs.embeddedChecksumsPresent)
      "no manifest and no checksums" (r.fl NO_MANIFEST_NO_CHECKSUMS)

/-- `prob += weight` for each weight. -/
def accumulate (r : Rounding) (weights : List ℚ) : ℚ :=
  weights.foldl (fun prob weight ↦ r.fl (prob + weight)) (r.fl BASE)

/-- `None` is reserved for a definitive unrecoverable signal; everything else is at worst low. -/
def limited (r : Rounding) (unrecoverable : Bool) (prob : ℚ) : ℚ :=
  if unrecoverable then min prob (r.fl NONE_CEILING) else max (r.fl LOW_FLOOR) (min prob 1)

/-- The score of damage that is not a threat, from the fraction it covers. -/
def damagedScore (r : Rounding) (inputs : Inputs) (frac : Option ℚ) : RecoverabilityScore :=
  let factors := positiveFactors r inputs frac ++ negativeFactors r inputs
  .new (limited r inputs.unrecoverable (accumulate r (factors.map Prod.snd))) (inputs.confidence r)
    (factors.map fun f ↦ RecoveryFactor.new f.1 f.2)

theorem damagedScore_confidence (r : Rounding) (inputs : Inputs) (frac : Option ℚ) :
    (damagedScore r inputs frac).confidence = clampUnit (inputs.confidence r) := rfl

/-- Estimate recoverability. -/
def estimate (r : Rounding) (inputs : Inputs) : Checked RecoverabilityScore :=
  if inputs.corruptions = [] ∧ ¬inputs.ioErrors then return .certain
  else if inputs.threatened then
    return .new 0 1 [RecoveryFactor.new "security threat detected — unrecoverable by policy" (-1)]
  else return damagedScore r inputs (← inputs.damageFraction r)

/-! ## When the verdict is that nothing can be recovered -/

/-- The rounding keeps the ceiling of one class below the floor of the next. -/
structure Separates (r : Rounding) : Prop where
  zero : r.fl 0 = 0
  gap : r.fl NONE_CEILING < r.fl LOW_FLOOR

theorem Separates.exact : Separates Rounding.exact where
  zero := rfl
  gap := by norm_num [Rounding.exact, NONE_CEILING, LOW_FLOOR]

section Verdict

variable {r : Rounding}

theorem Separates.floor_pos (h : Separates r) : 0 < r.fl LOW_FLOOR := by
  have hceiling : r.fl 0 ≤ r.fl NONE_CEILING := r.mono (by norm_num [NONE_CEILING])
  rw [h.zero] at hceiling
  exact hceiling.trans_lt h.gap

theorem floor_le_one (r : Rounding) : r.fl LOW_FLOOR ≤ 1 := by
  have hhalf : r.fl LOW_FLOOR ≤ 1 / 2 := r.le_half (by norm_num [LOW_FLOOR])
  linarith

/-- The last threshold decides between `none` and the rest. -/
theorem toClass_eq_none_iff (s : RecoverabilityScore) :
    s.toClass r = .none ↔ s.probability < r.fl LOW_FLOOR := by
  have hmedium : r.fl (15 / 100) ≤ r.fl (40 / 100) := r.mono (by norm_num)
  have hhigh : r.fl (40 / 100) ≤ r.fl (75 / 100) := r.mono (by norm_num)
  unfold RecoverabilityScore.toClass LOW_FLOOR
  split
  · rename_i h
    exact iff_of_false (by simp) (by linarith)
  · split
    · rename_i h
      exact iff_of_false (by simp) (by linarith)
    · split
      · rename_i h
        exact iff_of_false (by simp) (by linarith)
      · rename_i h
        exact iff_of_true rfl (not_le.mp h)

theorem clampUnit_lt_iff {q bound : ℚ} (hpos : 0 < bound) (hle : bound ≤ 1) :
    clampUnit q < bound ↔ q < bound := by
  unfold clampUnit
  rw [max_lt_iff, min_lt_iff]
  constructor
  · rintro ⟨-, h | h⟩
    · exact h
    · exact absurd h hle.not_gt
  · exact fun h ↦ ⟨hpos, .inl h⟩

theorem clampUnit_mem (q : ℚ) : 0 ≤ clampUnit q ∧ clampUnit q ≤ 1 :=
  ⟨le_max_left _ _, max_le (by norm_num) (min_le_right _ _)⟩

theorem limited_lt_iff (h : Separates r) (unrecoverable : Bool) (prob : ℚ) :
    limited r unrecoverable prob < r.fl LOW_FLOOR ↔ unrecoverable = true := by
  unfold limited
  split
  · rename_i hsignal
    exact iff_of_true ((min_le_right _ _).trans_lt h.gap) hsignal
  · rename_i hnone
    exact iff_of_false (le_max_left _ _).not_gt hnone

/-- Without findings there is no signal. -/
theorem unrecoverable_nil {inputs : Inputs} (h : inputs.corruptions = []) :
    inputs.threatened = false ∧ inputs.unrecoverable = false := by
  simp [Inputs.threatened, Inputs.unrecoverable, Inputs.signatureMissing, Inputs.hasRule,
    Inputs.hasRuleSuffix, Inputs.anyRule, h]

/-- Damage that is no threat is scored by its factors. -/
theorem estimate_of_damaged {inputs : Inputs} {frac : Option ℚ}
    (hdamaged : ¬(inputs.corruptions = [] ∧ ¬inputs.ioErrors)) (hthreat : ¬inputs.threatened)
    (hfrac : inputs.damageFraction r = .ok frac) :
    estimate r inputs = .ok (damagedScore r inputs frac) := by
  unfold estimate
  rw [if_neg hdamaged, if_neg hthreat, hfrac]
  rfl

/-- An estimate lies in the unit range, and says that nothing can be recovered exactly when a
finding is a threat or one of the definitive signals. -/
theorem estimate_none_iff (hr : Separates r) {inputs : Inputs} {score : RecoverabilityScore}
    (hscore : estimate r inputs = .ok score) :
    (score.toClass r = .none ↔ inputs.threatened = true ∨ inputs.unrecoverable = true) ∧
      (0 ≤ score.probability ∧ score.probability ≤ 1) ∧
      0 ≤ score.confidence ∧ score.confidence ≤ 1 := by
  unfold estimate at hscore
  rw [toClass_eq_none_iff]
  split at hscore
  · rename_i hclean
    obtain ⟨hthreat, hsignal⟩ := unrecoverable_nil hclean.1
    obtain rfl := Except.ok.inj hscore
    refine ⟨?_, ⟨zero_le_one, le_rfl⟩, zero_le_one, le_rfl⟩
    rw [hthreat, hsignal]
    exact iff_of_false (floor_le_one r).not_gt (by simp)
  · split at hscore
    · rename_i hthreat
      obtain rfl := Except.ok.inj hscore
      refine ⟨iff_of_true ?_ (.inl hthreat), clampUnit_mem _, clampUnit_mem _⟩
      exact (clampUnit_lt_iff hr.floor_pos (floor_le_one r)).mpr hr.floor_pos
    · rename_i hthreat
      obtain ⟨frac, -, hscore⟩ := bind_eq_ok.mp hscore
      obtain rfl := Except.ok.inj hscore
      refine ⟨?_, clampUnit_mem _, clampUnit_mem _⟩
      refine (clampUnit_lt_iff hr.floor_pos (floor_le_one r)).trans ?_
      rw [limited_lt_iff hr, or_iff_right hthreat]

end Verdict

/-- A 7z file of a hundred bytes without its signature. -/
def unsigned7z : Inputs where
  corruptions := [{
    id := 0
    location := ⟨none, 0, 6⟩
    category := .structuralCorruption
    severity := .catastrophic
    description := ""
    byteRange := none
    chain := ⟨⟨0, none, [], "signature", "", 1, "7Z_MAGIC_001", .signatureMismatch⟩, [], 1⟩ }]
  format := some .sevenZ
  manifestPresent := false
  embeddedChecksumsPresent := false
  totalSize := 100
  scanCapped := false
  ioErrors := false
  formatDetectionFailed := false

theorem estimate_unsigned7z (r : Rounding) :
    estimate r unsigned7z = .ok (damagedScore r unsigned7z none) :=
  estimate_of_damaged (by decide) (by decide) rfl

theorem estimate_none_unsigned7z :
    (damagedScore .exact unsigned7z none).toClass .exact = .none :=
  (estimate_none_iff Separates.exact (estimate_unsigned7z .exact)).1.mpr (.inr (by decide))

/-! ## More evidence never lowers the estimate -/

/-- Weights that are as good or better: some raising ones more, some lowering ones less. -/
inductive Improves : List ℚ → List ℚ → Prop
  | nil : Improves [] []
  | keep (w : ℚ) {l l' : List ℚ} : Improves l l' → Improves (w :: l) (w :: l')
  | gain (w : ℚ) {l l' : List ℚ} : 0 ≤ w → Improves l l' → Improves l (w :: l')
  | shed (w : ℚ) {l l' : List ℚ} : w ≤ 0 → Improves l l' → Improves (w :: l) l'

namespace Improves

theorem refl (l : List ℚ) : Improves l l := by
  induction l with
  | nil => exact .nil
  | cons w l ih => exact .keep w ih

theorem append {l l' m m' : List ℚ} (h : Improves l l') (h' : Improves m m') :
    Improves (l ++ m) (l' ++ m') := by
  induction h with
  | nil => exact h'
  | keep w _ ih => exact .keep w ih
  | gain w hw _ ih => exact .gain w hw ih
  | shed w hw _ ih => exact .shed w hw ih

/-- A raising factor may come to hold. -/
theorem raising {c c' : Bool} (hc : c ≤ c') (name : String) {w : ℚ} (hw : 0 ≤ w) :
    Improves ((factorIf c name w).map Prod.snd) ((factorIf c' name w).map Prod.snd) := by
  cases c <;> cases c'
  · exact .nil
  · exact .gain w hw .nil
  · exact absurd hc (by decide)
  · exact refl _

/-- A lowering factor may cease to hold. -/
theorem lowering {c c' : Bool} (hc : c' ≤ c) (name : String) {w : ℚ} (hw : w ≤ 0) :
    Improves ((factorIf c name w).map Prod.snd) ((factorIf c' name w).map Prod.snd) := by
  cases c <;> cases c'
  · exact .nil
  · exact absurd hc (by decide)
  · exact .shed w hw .nil
  · exact refl _

end Improves

section Evidence

variable {r : Rounding}

/-- The rounded sums are as far apart as the start and the weights put them; a weight that is only
on one side moves its sum the right way because sums are doubles already. -/
theorem foldl_le_of_improves (hidem : ∀ q, r.fl (r.fl q) = r.fl q) {l l' : List ℚ}
    (h : Improves l l') {p q : ℚ} (hp : r.fl p = p) (hq : r.fl q = q) (hpq : p ≤ q) :
    l.foldl (fun prob w ↦ r.fl (prob + w)) p ≤ l'.foldl (fun prob w ↦ r.fl (prob + w)) q := by
  induction h generalizing p q with
  | nil => exact hpq
  | keep w _ ih =>
      exact ih (hidem _) (hidem _) (r.mono (by linarith))
  | gain w hw _ ih =>
      have hstep : r.fl q ≤ r.fl (q + w) := r.mono (by linarith)
      rw [hq] at hstep
      exact ih hp (hidem _) (hpq.trans hstep)
  | shed w hw _ ih =>
      have hstep : r.fl (p + w) ≤ r.fl p := r.mono (by linarith)
      rw [hp] at hstep
      exact ih (hidem _) hq (hstep.trans hpq)

theorem limited_mono (unrecoverable : Bool) {p q : ℚ} (h : p ≤ q) :
    limited r unrecoverable p ≤ limited r unrecoverable q := by
  unfold limited
  split
  · exact min_le_min_right _ h
  · exact max_le_max_left _ (min_le_min_right _ h)

theorem clampUnit_mono {p q : ℚ} (h : p ≤ q) : clampUnit p ≤ clampUnit q :=
  max_le_max_left _ (min_le_min_right _ h)

/-- The same scan, with at least this much evidence beside it. -/
def Inputs.withEvidence (inputs : Inputs) (manifest embedded : Bool) : Inputs :=
  { inputs with manifestPresent := manifest, embeddedChecksumsPresent := embedded }

theorem withEvidence_confidence (inputs : Inputs) (manifest embedded : Bool) :
    (inputs.withEvidence manifest embedded).confidence r = inputs.confidence r := rfl

theorem fl_nonneg (hzero : r.fl 0 = 0) {q : ℚ} (h : 0 ≤ q) : 0 ≤ r.fl q :=
  hzero.symm.trans_le (r.mono h)

theorem fl_nonpos (hzero : r.fl 0 = 0) {q : ℚ} (h : q ≤ 0) : r.fl q ≤ 0 :=
  (r.mono h).trans_eq hzero

theorem positiveFactors_improve (hzero : r.fl 0 = 0) {inputs : Inputs} {manifest embedded : Bool}
    (hmanifest : inputs.manifestPresent ≤ manifest)
    (hembedded : inputs.embeddedChecksumsPresent ≤ embedded) (frac : Option ℚ) :
    Improves ((positiveFactors r inputs frac).map Prod.snd)
      ((positiveFactors r (inputs.withEvidence manifest embedded) frac).map Prod.snd) := by
  simp only [positiveFactors, List.map_append]
  refine ((Improves.append ?_ ?_).append ?_).append (.refl _)
  · exact .refl _
  · exact .raising hmanifest _ (fl_nonneg hzero (by norm_num [EXTERNAL_MANIFEST]))
  · exact .raising hembedded _ (fl_nonneg hzero (by norm_num [EMBEDDED_CHECKSUMS]))

theorem neither_anti {a b c d : Bool} (hac : a ≤ c) (hbd : b ≤ d) : (!c && !d) ≤ (!a && !b) := by
  revert a b c d
  decide

theorem negativeFactors_improve (hzero : r.fl 0 = 0) {inputs : Inputs} {manifest embedded : Bool}
    (hmanifest : inputs.manifestPresent ≤ manifest)
    (hembedded : inputs.embeddedChecksumsPresent ≤ embedded) :
    Improves ((negativeFactors r inputs).map Prod.snd)
      ((negativeFactors r (inputs.withEvidence manifest embedded)).map Prod.snd) := by
  simp only [negativeFactors, List.map_append]
  refine Improves.append (.refl _) (.lowering ?_ _ (fl_nonpos hzero ?_))
  · exact neither_anti hmanifest hembedded
  · norm_num [NO_MANIFEST_NO_CHECKSUMS]

/-- A manifest or embedded checksums beside the same scan never lower the probability, and leave
the confidence as it is. -/
theorem estimate_mono_evidence (hzero : r.fl 0 = 0) (hidem : ∀ q, r.fl (r.fl q) = r.fl q)
    {inputs : Inputs} {manifest embedded : Bool} (hmanifest : inputs.manifestPresent ≤ manifest)
    (hembedded : inputs.embeddedChecksumsPresent ≤ embedded) {score : RecoverabilityScore}
    (hscore : estimate r inputs = .ok score) :
    ∃ score', estimate r (inputs.withEvidence manifest embedded) = .ok score' ∧
      score.probability ≤ score'.probability ∧ score'.confidence = score.confidence := by
  unfold estimate at hscore
  split at hscore
  · rename_i hclean
    exact ⟨score, by rw [← hscore]; exact if_pos hclean, le_rfl, rfl⟩
  · rename_i hdamaged
    split at hscore
    · rename_i hthreat
      refine ⟨score, ?_, le_rfl, rfl⟩
      rw [← hscore]
      exact (if_neg hdamaged).trans (if_pos hthreat)
    · rename_i hthreat
      obtain ⟨frac, hfrac, hscore⟩ := bind_eq_ok.mp hscore
      obtain rfl := Except.ok.inj hscore
      refine ⟨damagedScore r (inputs.withEvidence manifest embedded) frac, ?_, ?_, ?_⟩
      · exact estimate_of_damaged hdamaged hthreat hfrac
      · refine clampUnit_mono (limited_mono inputs.unrecoverable ?_)
        refine foldl_le_of_improves hidem ?_ (hidem _) (hidem _) le_rfl
        rw [List.map_append, List.map_append]
        exact (positiveFactors_improve hzero hmanifest hembedded frac).append
          (negativeFactors_improve hzero hmanifest hembedded)
      · rw [damagedScore_confidence, damagedScore_confidence, withEvidence_confidence]

end Evidence

/-- With a manifest beside it, the same file. -/
theorem estimate_mono_unsigned7z :
    ∃ score, estimate .exact (unsigned7z.withEvidence true false) = .ok score ∧
      (damagedScore .exact unsigned7z none).probability ≤ score.probability ∧
      score.confidence = (damagedScore .exact unsigned7z none).confidence :=
  estimate_mono_evidence rfl (fun _ ↦ rfl) (by decide) (by decide) (estimate_unsigned7z .exact)

end VeraqisRecover.Analyze.Recoverability
