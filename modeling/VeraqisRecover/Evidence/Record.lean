import VeraqisRecover.Support.Weight

/-!
# Evidence records

The record every emission passes through: two orthogonal axes, verifiers that
count and targets that do not, the guards of `finish`, and what the record
allows afterwards.
-/

namespace VeraqisRecover.Evidence

/-- Health may rise from a probabilistic result only at or above this many bits. -/
def healthMinBits : ℕ := 32

/-- The largest `u32`. -/
def u32Max : ℕ := 2 ^ 32 - 1

inductive Axis where
  | probabilistic
  | logical
  | suggestion
  deriving DecidableEq

inductive EvidenceClass where
  | exactErasure
  | algebraicIndependent
  | exactCopy
  | structuralUnique
  | structuralHeuristic
  | suggested
  deriving DecidableEq

abbrev Region := ℕ × ℕ

/-- Something that was checked, not solved to. -/
structure Verifier where
  kind : String
  width : ℕ
  region : Region
  deriving DecidableEq

/-- A target the candidate was fitted to. -/
structure SolvedAgainst where
  kind : String
  region : Region
  deriving DecidableEq

inductive EvidenceError where
  | noIndependentVerifier
  | tautologicalVerifier (kind : String)
  | untrustedErasureTarget
  deriving DecidableEq

structure EvidenceRecord where
  axis : Axis
  class' : EvidenceClass
  independentVerifiers : List Verifier
  solvedAgainst : List SolvedAgainst
  logicalConstraintsUsed : List String
  targetTrust : Option String
  uniqueGatePassed : Bool
  cleanDifferential : Bool
  deriving DecidableEq

def overlaps (a b : Region) : Bool := a.1 < b.2 && b.1 < a.2

namespace EvidenceRecord

def base (axis : Axis) (class' : EvidenceClass) : EvidenceRecord :=
  ⟨axis, class', [], [], [], none, false, false⟩

/-! ## Builders -/

def exactErasure (targetTrust : String) : EvidenceRecord :=
  { base .probabilistic .exactErasure with targetTrust := some targetTrust }

def algebraicIndependent : EvidenceRecord := base .probabilistic .algebraicIndependent

def exactCopy : EvidenceRecord := base .probabilistic .exactCopy

def structuralUnique (uniqueGatePassed cleanDifferential : Bool) : EvidenceRecord :=
  { base .logical .structuralUnique with
    uniqueGatePassed := uniqueGatePassed
    cleanDifferential := cleanDifferential }

def structuralHeuristic : EvidenceRecord := base .logical .structuralHeuristic

def suggested : EvidenceRecord := base .suggestion .suggested

def addSolvedAgainst (r : EvidenceRecord) (kind : String) (region : Region) : EvidenceRecord :=
  { r with solvedAgainst := r.solvedAgainst ++ [⟨kind, region⟩] }

def verifiedBy (r : EvidenceRecord) (kind : String) (width : ℕ) (region : Region) :
    EvidenceRecord :=
  { r with independentVerifiers := r.independentVerifiers ++ [⟨kind, width, region⟩] }

def withConstraint (r : EvidenceRecord) (c : String) : EvidenceRecord :=
  { r with logicalConstraintsUsed := r.logicalConstraintsUsed ++ [c] }

/-! ## What the record allows -/

def evidenceBits (r : EvidenceRecord) : ℕ :=
  match r.axis with
  | .probabilistic => r.independentVerifiers.foldl (fun a v ↦ min (a + v.width) u32Max) 0
  | .logical | .suggestion => 0

/-- The verifier coincides with a target the candidate was solved to. -/
def tautological (r : EvidenceRecord) (v : Verifier) : Bool :=
  r.solvedAgainst.any fun s ↦ s.kind == v.kind && overlaps s.region v.region

def finish (r : EvidenceRecord) : Except EvidenceError EvidenceRecord :=
  match r.independentVerifiers.find? r.tautological with
  | some v => .error (.tautologicalVerifier v.kind)
  | none =>
      match r.axis, r.class' with
      | .probabilistic, .exactErasure =>
          if r.targetTrust.isNone then .error .untrustedErasureTarget else .ok r
      | .probabilistic, _ =>
          if r.evidenceBits = 0 then .error .noIndependentVerifier else .ok r
      | _, _ => .ok r

def canEmit (r : EvidenceRecord) : Bool :=
  match r.axis with
  | .probabilistic =>
      match r.class' with
      | .exactErasure => r.targetTrust.isSome
      | _ => 0 < r.evidenceBits
  | .logical | .suggestion => true

def raisesHealth (r : EvidenceRecord) : Bool :=
  match r.axis, r.class' with
  | .probabilistic, .exactErasure => r.targetTrust.isSome
  | .probabilistic, _ => healthMinBits ≤ r.evidenceBits && !r.independentVerifiers.isEmpty
  | .logical, .structuralUnique => r.uniqueGatePassed && r.cleanDifferential
  | _, _ => false

/-! ## What an accepted record promises -/

variable {r r' : EvidenceRecord}

theorem evidenceBits_eq (r : EvidenceRecord) :
    r.evidenceBits = if r.axis = .probabilistic then
      min (Weight.total Verifier.width r.independentVerifiers) u32Max else 0 := by
  rw [evidenceBits]
  cases r.axis with
  | probabilistic =>
      have hfold := Weight.foldl_min Verifier.width u32Max r.independentVerifiers 0
      rw [Nat.zero_add, Nat.zero_min] at hfold
      simpa using hfold
  | logical => rfl
  | suggestion => rfl

theorem finish_eq_ok (h : r.finish = .ok r') :
    r' = r ∧ (∀ v ∈ r.independentVerifiers, r.tautological v = false) ∧ r.canEmit = true := by
  rw [finish] at h
  split at h
  · cases h
  · rename_i hnone
    have hclear : ∀ v ∈ r.independentVerifiers, r.tautological v = false := by
      simpa using hnone
    rw [canEmit]
    split at h
    · rename_i haxis hclass
      split at h
      · cases h
      · rename_i htrust
        cases h
        refine ⟨rfl, hclear, ?_⟩
        simpa [haxis, hclass, Option.isSome_iff_ne_none] using htrust
    · rename_i haxis hclass
      split at h
      · cases h
      · rename_i hbits
        cases h
        refine ⟨rfl, hclear, ?_⟩
        rw [haxis]
        dsimp only
        split
        · exact absurd ‹_› hclass
        · exact decide_eq_true (Nat.pos_of_ne_zero hbits)
    · rename_i hother _
      cases h
      refine ⟨rfl, hclear, ?_⟩
      cases haxis : r.axis with
      | probabilistic => exact absurd haxis hother
      | logical => rfl
      | suggestion => rfl

theorem basis_of_raisesHealth (h : r.raisesHealth = true) :
    (r.class' = .exactErasure ∧ r.targetTrust.isSome = true) ∨
      (r.uniqueGatePassed = true ∧ r.cleanDifferential = true) ∨
        healthMinBits ≤ r.evidenceBits := by
  rw [raisesHealth] at h
  split at h
  · rename_i haxis hclass
    exact Or.inl ⟨hclass, h⟩
  · rw [Bool.and_eq_true, decide_eq_true_eq] at h
    exact Or.inr (Or.inr h.1)
  · rw [Bool.and_eq_true] at h
    exact Or.inr (Or.inl h)
  · cases h

/-- Different kind or different region. -/
def Distinct (v w : Verifier) : Prop := v.kind ≠ w.kind ∨ v.region ≠ w.region

/-- Nothing tautological and nothing twice is counted. -/
structure Honest (r : EvidenceRecord) : Prop where
  emits : r.canEmit = true
  independent : ∀ v ∈ r.independentVerifiers, ∀ s ∈ r.solvedAgainst, s.kind = v.kind →
    overlaps s.region v.region = false
  health : r.raisesHealth = true → (r.class' = .exactErasure ∧ r.targetTrust.isSome = true) ∨
    (r.uniqueGatePassed = true ∧ r.cleanDifferential = true) ∨ healthMinBits ≤ r.evidenceBits
  countsOnce : ∃ s : List Verifier, s.Sublist r.independentVerifiers ∧ s.Pairwise Distinct ∧
    r.evidenceBits ≤ Weight.total Verifier.width s

/-- No two verifiers that carry bits share kind and region, or different ones
carry more than the sum can hold. -/
def NoneTwice (r : EvidenceRecord) : Prop :=
  r.axis = .probabilistic →
    (Weight.heavy Verifier.width r.independentVerifiers).Pairwise Distinct ∨
      ∃ s : List Verifier, s.Sublist r.independentVerifiers ∧ s.Pairwise Distinct ∧
        u32Max ≤ Weight.total Verifier.width s

theorem countsOnce_iff (r : EvidenceRecord) :
    (∃ s : List Verifier, s.Sublist r.independentVerifiers ∧ s.Pairwise Distinct ∧
      r.evidenceBits ≤ Weight.total Verifier.width s) ↔ r.NoneTwice := by
  rw [NoneTwice, evidenceBits_eq]
  by_cases haxis : r.axis = .probabilistic
  · simp only [haxis, if_true, true_imp_iff]
    rw [← Weight.exists_sublist_iff]
    constructor
    · rintro ⟨s, hs, hdistinct, hbits⟩
      rcases le_total (Weight.total Verifier.width r.independentVerifiers) u32Max with hle | hle
      · exact Or.inl ⟨s, hs, hdistinct, by rwa [min_eq_left hle] at hbits⟩
      · exact Or.inr ⟨s, hs, hdistinct, by rwa [min_eq_right hle] at hbits⟩
    · rintro (⟨s, hs, hdistinct, hle⟩ | ⟨s, hs, hdistinct, hle⟩)
      · exact ⟨s, hs, hdistinct, (min_le_left _ _).trans hle⟩
      · exact ⟨s, hs, hdistinct, (min_le_right _ _).trans hle⟩
  · simp only [haxis, if_false, false_imp_iff, iff_true]
    exact ⟨[], List.nil_sublist _, List.Pairwise.nil, Nat.zero_le _⟩

theorem honest_iff (h : r.finish = .ok r') : r'.Honest ↔ r'.NoneTwice := by
  obtain ⟨rfl, hclear, hemit⟩ := finish_eq_ok h
  rw [← countsOnce_iff]
  constructor
  · intro hhonest
    exact hhonest.countsOnce
  · intro hcounts
    refine ⟨hemit, ?_, basis_of_raisesHealth, hcounts⟩
    intro v hv s hs hkind
    have hv' := List.any_eq_false.mp (hclear v hv) s hs
    simpa [hkind] using hv'

end EvidenceRecord

/-! ## Sequences of builder calls -/

inductive Start where
  | exactErasure (targetTrust : String)
  | algebraicIndependent
  | exactCopy
  | structuralUnique (uniqueGatePassed cleanDifferential : Bool)
  | structuralHeuristic
  | suggested

inductive Call where
  | solvedAgainst (kind : String) (region : Region)
  | verifiedBy (kind : String) (width : ℕ) (region : Region)
  | withConstraint (c : String)

def Start.record : Start → EvidenceRecord
  | exactErasure targetTrust => EvidenceRecord.exactErasure targetTrust
  | algebraicIndependent => EvidenceRecord.algebraicIndependent
  | exactCopy => EvidenceRecord.exactCopy
  | structuralUnique unique clean => EvidenceRecord.structuralUnique unique clean
  | structuralHeuristic => EvidenceRecord.structuralHeuristic
  | suggested => EvidenceRecord.suggested

def Call.apply (r : EvidenceRecord) : Call → EvidenceRecord
  | solvedAgainst kind region => r.addSolvedAgainst kind region
  | verifiedBy kind width region => r.verifiedBy kind width region
  | withConstraint c => r.withConstraint c

def build (start : Start) (calls : List Call) : EvidenceRecord :=
  calls.foldl Call.apply start.record

/-- An accepted record is honest exactly when it counts nothing twice. -/
theorem build_honest_iff {start : Start} {calls : List Call} {r : EvidenceRecord}
    (h : (build start calls).finish = .ok r) : r.Honest ↔ r.NoneTwice :=
  EvidenceRecord.honest_iff h

def lengthCheck : Call := .verifiedBy "length" 16 (0, 100)

/-- A fit to one checksum, and two checks: of the length, and of the next checksum. -/
def fittedAndChecked : List Call :=
  [.solvedAgainst "crc32" (0, 100), lengthCheck, .verifiedBy "crc32" 32 (100, 120)]

theorem build_honest_iff_fittedAndChecked :
    (build .algebraicIndependent fittedAndChecked).Honest ↔
      (build .algebraicIndependent fittedAndChecked).NoneTwice :=
  @build_honest_iff .algebraicIndependent fittedAndChecked _ (by decide)

/-- The same sixteen bits, counted twice, raise Health. -/
theorem lengthCheck_twice :
    (build .algebraicIndependent [lengthCheck, lengthCheck]).finish =
        .ok (build .algebraicIndependent [lengthCheck, lengthCheck]) ∧
      (build .algebraicIndependent [lengthCheck, lengthCheck]).raisesHealth = true ∧
        ¬(build .algebraicIndependent [lengthCheck, lengthCheck]).Honest := by
  refine ⟨by decide, by decide, ?_⟩
  intro hhonest
  rcases (EvidenceRecord.countsOnce_iff _).mp hhonest.countsOnce rfl with hpair | ⟨s, hs, -, hfull⟩
  · have hsame := List.rel_of_pairwise_cons hpair (List.mem_singleton_self _)
    exact hsame.elim (fun h ↦ h rfl) fun h ↦ h rfl
  · have hle := (Weight.total_le_of_sublist Verifier.width hs).trans'  hfull
    revert hle
    decide

end VeraqisRecover.Evidence
