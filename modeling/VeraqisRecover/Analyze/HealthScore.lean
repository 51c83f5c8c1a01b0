import VeraqisRecover.Analyze.MergeAdjacent
import VeraqisRecover.Support.Weight

/-!
# The health score

`health/weights.rs`, `health/scorer.rs` and `model/health.rs`: every corruption costs points in
some of three subscores.  What a score is depends on the sums of these points only.
-/

namespace VeraqisRecover.Analyze.Health

open Checked

/-! ## Penalties -/

/-- How many points a rule costs, and in which subscores. -/
structure RulePenalty where
  points : ℕ
  structural : Bool
  data : Bool
  metadata : Bool
  deriving DecidableEq, Repr

namespace RulePenalty

def s (points : ℕ) : RulePenalty := ⟨points, true, false, false⟩

def d (points : ℕ) : RulePenalty := ⟨points, false, true, false⟩

def sd (points : ℕ) : RulePenalty := ⟨points, true, true, false⟩

def all (points : ℕ) : RulePenalty := ⟨points, true, true, true⟩

end RulePenalty

/-- Calibrated per-rule penalties. -/
def RULE_PENALTIES : List (String × RulePenalty) := [
  ("ZIP_EOCD_001", .all 85), ("ZIP_EOCD_002", .all 63), ("ZIP_EOCD_003", .all 63),
  ("ZIP_CD_001", .all 85), ("ZIP_CD_002", .sd 44), ("ZIP_CD_003", .sd 56), ("ZIP_LFH_001", .sd 56),
  ("ZIP_CRC_001", .d 10), ("ZIP_CRC_002", .sd 44), ("ZIP_SIZE_001", .sd 56),
  ("ZIP_TRUNC_001", .sd 13), ("ZIP_TRUNC_002", .sd 44), ("ZIP_TRUNC_003", .all 68),
  ("ZIP_TRUNC_004", .all 85), ("ZIP_FLIP_001", .d 10), ("ZIP_FLIP_002", .sd 40),
  ("ZIP_FLIP_003", .sd 44), ("ZIP_EXTRA_001", .sd 22), ("ZIP_Z64_001", .sd 56),
  ("TAR_UST_001", .sd 25), ("TAR_TERM_001", .d 10), ("TAR_SIZE_001", .sd 44),
  ("TAR_SIZE_002", .all 40), ("TAR_BLOCK_001", .sd 44), ("TAR_GNU_001", .sd 56),
  ("TAR_TRUNC_001", .sd 13), ("TAR_TRUNC_002", .sd 44), ("TAR_TRUNC_003", .all 85),
  ("TAR_FLIP_001", .d 10), ("TAR_FLIP_002", .sd 44),
  ("ISO_PVD_001", .all 85), ("ISO_PT_001", .all 63), ("ISO_SVD_001", .sd 44),
  ("ISO_DIR_001", .sd 44), ("ISO_SECTOR_001", .d 10), ("ISO_SECTOR_002", .sd 56),
  ("ISO_TRUNC_001", .sd 44), ("ISO_TRUNC_002", .all 68),
  ("GZ_MAGIC_001", .all 85), ("GZ_ICRC_001", .sd 56), ("GZ_ISIZE_001", .d 15),
  ("GZ_FLIP_001", .sd 56),
  ("PDF_HDR_001", .all 85), ("PDF_XREF_001", .sd 44), ("PDF_EOF_001", .sd 30),
  ("SQ_MAGIC_001", .all 85), ("SQ_PGSIZE_001", .all 85), ("SQ_PGSIZE_002", .sd 30),
  ("SQ_FC_001", .s 10), ("SQ_BTREE_001", .sd 44), ("SQ_BTREE_002", .sd 30),
  ("SQ_BTREE_003", .sd 20), ("SQ_FREE_001", .d 15), ("SQ_FREE_002", .sd 20), ("SQ_WAL_001", .s 10),
  ("SQ_WAL_002", .s 15), ("SQ_TRUNC_001", .sd 44), ("SQ_TRUNC_002", .all 75),
  ("SQ_FLIP_001", .d 10), ("SQ_FLIP_002", .sd 25), ("SQ_COMP_001", .all 70),
  ("GEN_TRUNC_001", .sd 44), ("GEN_FLIP_001", .d 10), ("GEN_MISSING_001", .sd 44),
  ("GEN_STRUCT_001", .sd 44), ("INTEGRITY_HASH_001", .d 20), ("RAR_MAGIC_001", .all 85),
  ("7Z_MAGIC_001", .all 85), ("7Z_TRUNC_001", .sd 50), ("BZ2_MAGIC_001", .all 85),
  ("XZ_MAGIC_001", .all 85), ("ZST_MAGIC_001", .all 85), ("LZ4_MAGIC_001", .all 85)]

def defaultPoints : Severity → ℕ
  | .benign => 0
  | .minor => 10
  | .major => 25
  | .catastrophic => 50

/-- Which subscores a category costs points in. -/
def route (category : CorruptionCategory) (points : ℕ) : RulePenalty :=
  match category with
  | .structuralCorruption | .blockReorder | .paddingMismatch => .s points
  | .bitFlip | .checksumMismatch => .d points
  | .missingData => .d points
  | .truncation => .sd points
  | .securityThreat => .all points

/-- The penalty of a rule that is not in the table. -/
def fallback (severity : Severity) (category : CorruptionCategory) : RulePenalty :=
  if severity = .catastrophic then .all (defaultPoints severity)
  else route category (defaultPoints severity)

def penaltyFor (ruleId : String) (severity : Severity) (category : CorruptionCategory) :
    RulePenalty :=
  match RULE_PENALTIES.find? (·.1 = ruleId) with
  | some p => p.2
  | none => fallback severity category

def penaltyOf (c : Corruption) : RulePenalty :=
  penaltyFor c.chain.primary.ruleId c.severity c.category

/-! ## Scores -/

structure HealthScore where
  overall : ℕ
  structuralHealth : ℕ
  dataHealth : ℕ
  metadataHealth : ℕ
  deriving DecidableEq, Repr

/-- `f64::round`: halves are rounded away from zero. -/
def roundAway (q : ℚ) : ℤ := if 0 ≤ q then ⌊q + 1 / 2⌋ else ⌈q - 1 / 2⌉

/-- `x.clamp(0, 100) as u8` -/
def clampScore (x : ℤ) : ℕ := (max 0 (min x 100)).toNat

def HealthScore.fromSubscores (structural data metadata : ℕ) : HealthScore :=
  let structural := min structural 100
  let data := min data 100
  let metadata := min metadata 100
  let sum : ℚ := structural * (2 / 5) + data * (2 / 5) + metadata * (1 / 5)
  { overall := clampScore (roundAway sum)
    structuralHealth := structural
    dataHealth := data
    metadataHealth := metadata }

/-- `i32` subtraction -/
def subI32 (a b : ℤ) : Checked ℤ :=
  if -2 ^ 31 ≤ a - b ∧ a - b < 2 ^ 31 then .ok (a - b) else .error .overflow

/-- The accumulators of the scorer. -/
structure Subscores where
  structural : ℤ
  data : ℤ
  metadata : ℤ

/-- `if hit { x -= points }` -/
def subtractIf (hit : Bool) (x : ℤ) (points : ℕ) : Checked ℤ :=
  if hit then subI32 x points else return x

def Subscores.deduct (acc : Subscores) (p : RulePenalty) : Checked Subscores := do
  let structural ← subtractIf p.structural acc.structural p.points
  let data ← subtractIf p.data acc.data p.points
  let metadata ← subtractIf p.metadata acc.metadata p.points
  return ⟨structural, data, metadata⟩

/-- The health score of these corruptions. -/
def score (corruptions : List Corruption) : Checked HealthScore := do
  let start : Subscores := ⟨100, 100, 100⟩
  let acc ← corruptions.foldlM (fun acc c ↦ Subscores.deduct acc (penaltyOf c)) start
  return .fromSubscores (clampScore acc.structural) (clampScore acc.data)
    (clampScore acc.metadata)

/-! ## What a penalty costs in each subscore -/

inductive Subscore
  | structural | data | metadata

def RulePenalty.hits (p : RulePenalty) : Subscore → Bool
  | .structural => p.structural
  | .data => p.data
  | .metadata => p.metadata

def RulePenalty.cost (p : RulePenalty) (k : Subscore) : ℕ := if p.hits k then p.points else 0

theorem cost_le_points (p : RulePenalty) (k : Subscore) : p.cost k ≤ p.points := by
  unfold RulePenalty.cost
  split
  · exact le_rfl
  · exact Nat.zero_le _

theorem route_points (category : CorruptionCategory) (points : ℕ) :
    (route category points).points = points := by
  cases category <;> rfl

/-- Routing does not look at the points. -/
theorem route_hits (category : CorruptionCategory) (m n : ℕ) (k : Subscore) :
    (route category m).hits k = (route category n).hits k := by
  cases category <;> rfl

theorem cost_all (points : ℕ) (k : Subscore) : (RulePenalty.all points).cost k = points := by
  cases k <;> rfl

theorem cost_route_mono (category : CorruptionCategory) {m n : ℕ} (h : m ≤ n) (k : Subscore) :
    (route category m).cost k ≤ (route category n).cost k := by
  unfold RulePenalty.cost
  rw [route_hits category m n k, route_points, route_points]
  split
  · exact h
  · exact le_rfl

theorem defaultPoints_mono {a b : Severity} (h : a ≤ b) : defaultPoints a ≤ defaultPoints b := by
  have hrank : a.rank ≤ b.rank := h
  cases a <;> cases b <;> revert hrank <;> decide

/-- A severer defect costs at least as much everywhere, also where it is routed elsewhere. -/
theorem cost_fallback_mono {a b : Severity} (h : a ≤ b) (category : CorruptionCategory)
    (k : Subscore) : (fallback a category).cost k ≤ (fallback b category).cost k := by
  have hpoints := defaultPoints_mono h
  unfold fallback
  by_cases hb : b = .catastrophic
  · rw [if_pos hb, cost_all]
    split
    · rwa [cost_all]
    · exact (cost_le_points _ k).trans (by rwa [route_points])
  · have ha : a ≠ .catastrophic := by
      rintro rfl
      cases b with
      | catastrophic => exact hb rfl
      | benign | minor | major => exact absurd (show (3 : ℕ) ≤ _ from h) (by decide)
    rw [if_neg ha, if_neg hb]
    exact cost_route_mono category hpoints k

theorem cost_penaltyFor_mono (ruleId : String) {a b : Severity} (h : a ≤ b)
    (category : CorruptionCategory) (k : Subscore) :
    (penaltyFor ruleId a category).cost k ≤ (penaltyFor ruleId b category).cost k := by
  unfold penaltyFor
  cases RULE_PENALTIES.find? (·.1 = ruleId) with
  | some p => exact le_rfl
  | none => exact cost_fallback_mono h category k

/-- No penalty costs more than `85` points. -/
theorem points_penaltyFor_le (ruleId : String) (severity : Severity)
    (category : CorruptionCategory) : (penaltyFor ruleId severity category).points ≤ 85 := by
  unfold penaltyFor
  cases hfind : RULE_PENALTIES.find? (·.1 = ruleId) with
  | some p =>
      have hall : ∀ p ∈ RULE_PENALTIES, p.2.points ≤ 85 := by decide
      exact hall p (List.mem_of_find?_eq_some hfind)
  | none =>
      have hpoints : defaultPoints severity ≤ 85 := by cases severity <;> decide
      change (fallback severity category).points ≤ 85
      unfold fallback
      split
      · exact hpoints
      · rwa [route_points]

/-! ## The run of the scorer -/

def Subscores.get (acc : Subscores) : Subscore → ℤ
  | .structural => acc.structural
  | .data => acc.data
  | .metadata => acc.metadata

/-- The accumulators with these points taken off. -/
def Subscores.minus (acc : Subscores) (cost : Subscore → ℕ) : Subscores :=
  ⟨acc.structural - cost .structural, acc.data - cost .data, acc.metadata - cost .metadata⟩

theorem get_minus (acc : Subscores) (cost : Subscore → ℕ) (k : Subscore) :
    (acc.minus cost).get k = acc.get k - cost k := by
  cases k <;> rfl

/-- Every accumulator is an `i32` and at most its first value. -/
def Subscores.Bounded (acc : Subscores) : Prop := ∀ k, -2 ^ 31 ≤ acc.get k ∧ acc.get k ≤ 100

theorem subtractIf_eq_ok_iff {hit : Bool} {x y : ℤ} {points : ℕ} (hlo : -2 ^ 31 ≤ x)
    (hhi : x ≤ 100) : subtractIf hit x points = .ok y ↔
      -2 ^ 31 ≤ x - (if hit then points else 0 : ℕ) ∧ x - (if hit then points else 0 : ℕ) = y := by
  cases hit with
  | false =>
      simp only [subtractIf, Bool.false_eq_true, if_false, Nat.cast_zero, sub_zero]
      exact ⟨fun h ↦ ⟨hlo, Except.ok.inj h⟩, fun h ↦ h.2 ▸ rfl⟩
  | true =>
      simp only [subtractIf, if_true, subI32]
      split
      · rename_i hin
        exact ⟨fun h ↦ ⟨hin.1, Except.ok.inj h⟩, fun h ↦ h.2 ▸ rfl⟩
      · rename_i hout
        refine ⟨fun h ↦ (nomatch h), fun h ↦ absurd ⟨h.1, ?_⟩ hout⟩
        omega

theorem deduct_eq_ok_iff {acc acc' : Subscores} (hacc : acc.Bounded) (p : RulePenalty) :
    acc.deduct p = .ok acc' ↔
      (∀ k, -2 ^ 31 ≤ acc.get k - p.cost k) ∧ acc.minus p.cost = acc' := by
  have hstep : ∀ k y, subtractIf (p.hits k) (acc.get k) p.points = .ok y ↔
      -2 ^ 31 ≤ acc.get k - p.cost k ∧ acc.get k - p.cost k = y :=
    fun k y ↦ subtractIf_eq_ok_iff (hacc k).1 (hacc k).2
  constructor
  · intro h
    obtain ⟨structural, hs, h⟩ := bind_eq_ok.mp h
    obtain ⟨data, hd, h⟩ := bind_eq_ok.mp h
    obtain ⟨metadata, hm, h⟩ := bind_eq_ok.mp h
    obtain ⟨hs', rfl⟩ := (hstep .structural structural).mp hs
    obtain ⟨hd', rfl⟩ := (hstep .data data).mp hd
    obtain ⟨hm', rfl⟩ := (hstep .metadata metadata).mp hm
    refine ⟨fun k ↦ ?_, Except.ok.inj h⟩
    cases k with
    | structural => exact hs'
    | data => exact hd'
    | metadata => exact hm'
  · rintro ⟨hin, rfl⟩
    refine bind_eq_ok.mpr ⟨_, (hstep .structural _).mpr ⟨hin .structural, rfl⟩, ?_⟩
    refine bind_eq_ok.mpr ⟨_, (hstep .data _).mpr ⟨hin .data, rfl⟩, ?_⟩
    exact bind_eq_ok.mpr ⟨_, (hstep .metadata _).mpr ⟨hin .metadata, rfl⟩, rfl⟩

theorem bounded_minus {acc : Subscores} (hacc : acc.Bounded) {cost : Subscore → ℕ}
    (h : ∀ k, -2 ^ 31 ≤ acc.get k - cost k) : (acc.minus cost).Bounded := by
  intro k
  rw [get_minus]
  exact ⟨h k, (sub_le_self _ (Int.natCast_nonneg _)).trans (hacc k).2⟩

/-- What these corruptions cost in a subscore. -/
def total (k : Subscore) (l : List Corruption) : ℕ := Weight.total (fun c ↦ (penaltyOf c).cost k) l

theorem total_cons (k : Subscore) (c : Corruption) (l : List Corruption) :
    total k (c :: l) = (penaltyOf c).cost k + total k l :=
  Weight.total_cons _ _ _

theorem minus_minus (acc : Subscores) (cost cost' : Subscore → ℕ) :
    (acc.minus cost).minus cost' = acc.minus fun k ↦ cost k + cost' k := by
  simp only [Subscores.minus, Nat.cast_add, sub_add_eq_sub_sub]

theorem foldlM_deduct_eq_ok_iff {l : List Corruption} {acc acc' : Subscores}
    (hacc : acc.Bounded) :
    l.foldlM (fun acc c ↦ Subscores.deduct acc (penaltyOf c)) acc = .ok acc' ↔
      (∀ k, -2 ^ 31 ≤ acc.get k - total k l) ∧ acc.minus (total · l) = acc' := by
  induction l generalizing acc with
  | nil =>
      have hnone : acc.minus (total · []) = acc := by
        simp [Subscores.minus, total]
      rw [hnone]
      refine ⟨fun h ↦ ⟨fun k ↦ ?_, Except.ok.inj h⟩, fun h ↦ h.2 ▸ rfl⟩
      simpa [total] using (hacc k).1
  | cons c l ih =>
      have htotal : (total · (c :: l)) = fun k ↦ (penaltyOf c).cost k + total k l :=
        funext fun k ↦ total_cons k c l
      rw [List.foldlM_cons, bind_eq_ok, htotal, ← minus_minus]
      constructor
      · rintro ⟨acc₁, hstep, hrest⟩
        obtain ⟨hin, rfl⟩ := (deduct_eq_ok_iff hacc _).mp hstep
        obtain ⟨hin', rfl⟩ := (ih (bounded_minus hacc hin)).mp hrest
        refine ⟨fun k ↦ ?_, rfl⟩
        have hk := hin' k
        rw [get_minus] at hk
        rw [total_cons]
        omega
      · rintro ⟨hin, rfl⟩
        have hfirst : ∀ k, -2 ^ 31 ≤ acc.get k - (penaltyOf c).cost k := by
          intro k
          have hk := hin k
          rw [total_cons] at hk
          omega
        refine ⟨_, (deduct_eq_ok_iff hacc _).mpr ⟨hfirst, rfl⟩, ?_⟩
        refine (ih (bounded_minus hacc hfirst)).mpr ⟨fun k ↦ ?_, rfl⟩
        have hk := hin k
        rw [total_cons] at hk
        rw [get_minus]
        omega

/-- The corruptions do not overflow the accumulators. -/
def Fits (l : List Corruption) : Prop := ∀ k, total k l ≤ 2 ^ 31 + 100

/-- The score by what the corruptions cost. -/
def scoreOf (l : List Corruption) : HealthScore :=
  .fromSubscores (100 - total .structural l) (100 - total .data l) (100 - total .metadata l)

theorem clampScore_sub (n : ℕ) : clampScore (100 - n) = 100 - n := by
  unfold clampScore
  omega

theorem score_eq_ok_iff {l : List Corruption} {h : HealthScore} :
    score l = .ok h ↔ Fits l ∧ scoreOf l = h := by
  have hstart : Subscores.Bounded ⟨100, 100, 100⟩ := by
    intro k
    cases k <;> exact ⟨by decide, le_rfl⟩
  have hfits : (∀ k, -2 ^ 31 ≤ Subscores.get ⟨100, 100, 100⟩ k - total k l) ↔ Fits l := by
    refine forall_congr' fun k ↦ ?_
    have hget : Subscores.get ⟨100, 100, 100⟩ k = 100 := by cases k <;> rfl
    rw [hget]
    omega
  have hscore : HealthScore.fromSubscores (clampScore (100 - total .structural l))
      (clampScore (100 - total .data l)) (clampScore (100 - total .metadata l)) = scoreOf l := by
    rw [clampScore_sub, clampScore_sub, clampScore_sub, scoreOf]
  rw [score, bind_eq_ok]
  constructor
  · rintro ⟨acc, hrun, hret⟩
    obtain ⟨hin, rfl⟩ := (foldlM_deduct_eq_ok_iff hstart).mp hrun
    exact ⟨hfits.mp hin, hscore.symm.trans (Except.ok.inj hret)⟩
  · rintro ⟨hin, rfl⟩
    exact ⟨_, (foldlM_deduct_eq_ok_iff hstart).mpr ⟨hfits.mpr hin, rfl⟩, congrArg Except.ok hscore⟩

/-- Lists of this length always fit. -/
theorem fits_of_length {l : List Corruption} (h : l.length ≤ 25264514) : Fits l := by
  intro k
  have hle : total k l ≤ l.length * 85 := by
    induction l with
    | nil => exact Nat.zero_le _
    | cons c l ih =>
        have hc : (penaltyOf c).cost k ≤ 85 :=
          (cost_le_points _ k).trans (points_penaltyFor_le _ _ _)
        have hl := ih (by rw [List.length_cons] at h; omega)
        rw [total_cons, List.length_cons]
        omega
  omega

/-! ## Scores in order -/

/-- No better in any figure. -/
instance : LE HealthScore where
  le a b := a.overall ≤ b.overall ∧ a.structuralHealth ≤ b.structuralHealth ∧
    a.dataHealth ≤ b.dataHealth ∧ a.metadataHealth ≤ b.metadataHealth

def HealthScore.InRange (h : HealthScore) : Prop :=
  h.overall ≤ 100 ∧ h.structuralHealth ≤ 100 ∧ h.dataHealth ≤ 100 ∧ h.metadataHealth ≤ 100

theorem roundAway_of_nonneg {q : ℚ} (h : 0 ≤ q) : roundAway q = round q := by
  rw [roundAway, if_pos h, round_eq]

theorem round_le_round {a b : ℚ} (h : a ≤ b) : round a ≤ round b := by
  rw [round_eq, round_eq]
  exact Int.floor_mono (by linarith)

theorem clampScore_mono {x y : ℤ} (h : x ≤ y) : clampScore x ≤ clampScore y := by
  unfold clampScore
  omega

theorem clampScore_of_mem {x : ℤ} (hlo : 0 ≤ x) (hhi : x ≤ 100) : (clampScore x : ℤ) = x := by
  unfold clampScore
  omega

theorem clampScore_le (x : ℤ) : clampScore x ≤ 100 := by
  unfold clampScore
  omega

section Subscores

variable {s d m s' d' m' : ℕ}

theorem fromSubscores_mono (hs : s ≤ s') (hd : d ≤ d') (hm : m ≤ m') :
    HealthScore.fromSubscores s d m ≤ HealthScore.fromSubscores s' d' m' := by
  have hs' : min s 100 ≤ min s' 100 := min_le_min_right _ hs
  have hd' : min d 100 ≤ min d' 100 := min_le_min_right _ hd
  have hm' : min m 100 ≤ min m' 100 := min_le_min_right _ hm
  refine ⟨clampScore_mono ?_, hs', hd', hm'⟩
  rw [roundAway_of_nonneg (by positivity), roundAway_of_nonneg (by positivity)]
  refine round_le_round ?_
  gcongr

theorem fromSubscores_inRange : (HealthScore.fromSubscores s d m).InRange :=
  ⟨clampScore_le _, min_le_right _ _, min_le_right _ _, min_le_right _ _⟩

/-- A weighted sum of figures up to `100` needs no clamping. -/
theorem clampScore_weighted {a b c : ℚ} (ha : 0 ≤ a ∧ a ≤ 100) (hb : 0 ≤ b ∧ b ≤ 100)
    (hc : 0 ≤ c ∧ c ≤ 100) :
    (clampScore (roundAway (a * (2 / 5) + b * (2 / 5) + c * (1 / 5))) : ℤ) =
      round ((2 * a + 2 * b + c) / 5) := by
  have hsum : a * (2 / 5) + b * (2 / 5) + c * (1 / 5) = (2 * a + 2 * b + c) / 5 := by ring
  have hlo : 0 ≤ (2 * a + 2 * b + c) / 5 := by linarith
  have hhi : (2 * a + 2 * b + c) / 5 ≤ ((100 : ℤ) : ℚ) := by
    push_cast
    linarith
  rw [hsum, roundAway_of_nonneg hlo]
  refine clampScore_of_mem ?_ ?_
  · simpa using round_le_round hlo
  · simpa using round_le_round hhi

theorem overall_fromSubscores {h : HealthScore} (hh : HealthScore.fromSubscores s d m = h) :
    (h.overall : ℤ) =
      round ((2 * h.structuralHealth + 2 * h.dataHealth + h.metadataHealth : ℚ) / 5) := by
  have hrange : ∀ n : ℕ, (0 : ℚ) ≤ (min n 100 : ℕ) ∧ ((min n 100 : ℕ) : ℚ) ≤ 100 :=
    fun n ↦ ⟨Nat.cast_nonneg _, by exact_mod_cast min_le_right n 100⟩
  subst hh
  exact clampScore_weighted (hrange s) (hrange d) (hrange m)

end Subscores

/-- Who pays more scores no better. -/
theorem scoreOf_antitone {l l' : List Corruption} (h : ∀ k, total k l ≤ total k l') :
    scoreOf l' ≤ scoreOf l :=
  fromSubscores_mono (Nat.sub_le_sub_left (h _) 100) (Nat.sub_le_sub_left (h _) 100)
    (Nat.sub_le_sub_left (h _) 100)

theorem total_perm {l l' : List Corruption} (h : l.Perm l') (k : Subscore) :
    total k l = total k l' :=
  (h.map _).sum_eq

theorem total_insert (k : Subscore) (pre post : List Corruption) (c : Corruption) :
    total k (pre ++ c :: post) = (penaltyOf c).cost k + total k (pre ++ post) :=
  (total_perm List.perm_middle k).trans (total_cons k c _)

/-- The score does not depend on the order, and neither one corruption more nor a severer one
improves it. -/
theorem score_antitone {l : List Corruption} {h : HealthScore} (hl : score l = .ok h) :
    (∀ l', l.Perm l' → score l' = .ok h) ∧
      (∀ pre post c h', l = pre ++ post → score (pre ++ c :: post) = .ok h' → h' ≤ h) ∧
      (∀ pre post c severity h', l = pre ++ c :: post → c.severity ≤ severity →
        score (pre ++ { c with severity := severity } :: post) = .ok h' → h' ≤ h) ∧
      h.InRange ∧
      (h.overall : ℤ) =
        round ((2 * h.structuralHealth + 2 * h.dataHealth + h.metadataHealth : ℚ) / 5) := by
  obtain ⟨hfits, rfl⟩ := score_eq_ok_iff.mp hl
  refine ⟨?_, ?_, ?_, fromSubscores_inRange, overall_fromSubscores rfl⟩
  · intro l' hperm
    refine score_eq_ok_iff.mpr ⟨fun k ↦ total_perm hperm k ▸ hfits k, ?_⟩
    rw [scoreOf, scoreOf, total_perm hperm, total_perm hperm, total_perm hperm]
  · rintro pre post c h' rfl hmore
    obtain ⟨-, rfl⟩ := score_eq_ok_iff.mp hmore
    refine scoreOf_antitone fun k ↦ ?_
    rw [total_insert]
    exact Nat.le_add_left _ _
  · rintro pre post c severity h' rfl hsevere hmore
    obtain ⟨-, rfl⟩ := score_eq_ok_iff.mp hmore
    refine scoreOf_antitone fun k ↦ ?_
    rw [total_insert, total_insert]
    exact Nat.add_le_add_right (cost_penaltyFor_mono _ hsevere _ k) _

/-- An entry whose contents do not match their checksum. -/
def crcMismatch : Corruption where
  id := 0
  location := ⟨none, 0, 1⟩
  category := .checksumMismatch
  severity := .minor
  description := ""
  byteRange := none
  chain := ⟨⟨0, none, [], "LocalFileHeader.crc32", "", 1, "ZIP_CRC_001", .checksumMismatch⟩, [], 1⟩

/-- An extra field that is too long.  No penalty is calibrated for the rule: the severity counts. -/
def extraField : Corruption where
  id := 1
  location := ⟨none, 10, 12⟩
  category := .structuralCorruption
  severity := .minor
  description := ""
  byteRange := none
  chain := ⟨⟨1, none, [], "gzip.extra_len", "", 1, "GZ_EXTRA_001", .lengthOverflow⟩, [], 1⟩

theorem score_twoFindings : score [crcMismatch, extraField] = .ok ⟨92, 90, 90, 100⟩ := by
  have hcosts : scoreOf [crcMismatch, extraField] = .fromSubscores 90 90 100 := rfl
  refine score_eq_ok_iff.mpr ⟨fits_of_length (by decide), hcosts.trans ?_⟩
  norm_num [HealthScore.fromSubscores, clampScore, roundAway]
  rfl

theorem score_antitone_twoFindings : score [extraField, crcMismatch] = .ok ⟨92, 90, 90, 100⟩ ∧
    (∀ h', score [crcMismatch, extraField, extraField] = .ok h' →
      h' ≤ ⟨92, 90, 90, 100⟩) ∧
    ∀ h', score [crcMismatch, { extraField with severity := .catastrophic }] = .ok h' →
      h' ≤ ⟨92, 90, 90, 100⟩ := by
  obtain ⟨hperm, hmore, hseverer, -⟩ := score_antitone score_twoFindings
  exact ⟨hperm _ (.swap _ _ _), fun h' ↦ hmore [crcMismatch, extraField] [] extraField h' rfl,
    fun h' ↦ hseverer [crcMismatch] [] extraField .catastrophic h' rfl (by decide)⟩

end VeraqisRecover.Analyze.Health
