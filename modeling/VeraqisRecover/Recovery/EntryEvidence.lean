import VeraqisRecover.Recovery.Model
import VeraqisRecover.Support.Matching
import VeraqisRecover.Zip.Build
import VeraqisRecover.Zip.Extract
import VeraqisRecover.Zip.Parse
import VeraqisRecover.Zip.StoredCodec

/-!
# Per-entry evidence in the manifest

`entry_evidence_records` of `engine.rs`.  Existence is decided from the
source's directory and content from the output's own header; the two parses
are joined by name alone.
-/

namespace VeraqisRecover.Recovery

open ByteString Zip

/-- What justified one emitted entry (`manifest.rs`). -/
structure EntryEvidenceRecord where
  path : Text
  verdict : String
  existenceEvidence : String
  contentEvidence : String
  evidenceProvenance : String
  centralDirectoryProvenance : String
  trustedMetricInclusion : Bool
  abstentionReason : Option String
  deriving DecidableEq, Repr

/-- Directory records of a source whose directory is count-consistent; otherwise its silence
means nothing and it attests nothing. -/
def attestingRecords (src : ZipParse) : List ZipEntry :=
  if src.cdCountConsistent then src.entries.filter (·.fromCentralDir) else []

/-- Does the source's directory attest this name? -/
def attests (src : ZipParse) (name : Text) : Bool := name ∈ (attestingRecords src).map (·.name)

def cdRebuilt (plans : List RepairPlan) : Bool :=
  plans.any fun p ↦ p.technique = "CentralDirRebuild" || p.technique = "EocdReconstruct"

def cdProvenanceLabel (src : ZipParse) (plans : List RepairPlan) : String :=
  if cdRebuilt plans then "RECONSTRUCTED"
  else if src.cdFound && !src.cdRecoveredByScan then "ORIGINAL_SURVIVING"
  else if src.cdFound then "RECONSTRUCTED"
  else "ABSENT"

def unattestedReason : String :=
  "no complete independent central directory attests that this entry belonged to the archive; " ++
    "its checksum proves only that the payload matches its own header"

/-- Verdict, trust and abstention reason from existence and content. -/
def classify : Bool → Bool → String × Bool × Option String
  | true, true => ("EXACT_RECOVERABLE", true, none)
  | true, false => ("SALVAGED_UNVERIFIED", false, some "content checksum did not verify")
  | false, _ => ("SALVAGED_UNVERIFIED", false, some unattestedReason)

def contentEvidence : Bool → Bool → String
  | true, true => "CRC32_INDEPENDENT"
  | true, false => "CRC32_SELF_CONSISTENT_ONLY"
  | false, _ => "NONE"

/-- The record of one output entry. -/
def evidenceRecord (fl : Flate2) (src : ZipParse) (output : Bytes) (plans : List RepairPlan)
    (e : ZipEntry) : EntryEvidenceRecord :=
  let crcOk := decide ((extractEntry fl output e).status = .verifiedCrc)
  let isPresent := attests src e.name
  let (verdict, trusted, abstention) := classify isPresent crcOk
  { path := e.name
    verdict
    existenceEvidence :=
      if isPresent then "COMPLETE_CENTRAL_DIRECTORY" else "LOCAL_HEADER_SCAN_ONLY"
    contentEvidence := contentEvidence crcOk isPresent
    evidenceProvenance := if cdRebuilt plans then "PHX_RECONSTRUCTED" else "ARCHIVE_AS_FOUND"
    centralDirectoryProvenance := cdProvenanceLabel src plans
    trustedMetricInclusion := trusted
    abstentionReason := abstention }

/-- Classify every entry of a recovered ZIP against the evidence the source offered. -/
def entryEvidenceRecords (fl : Flate2) (source output : Bytes) (plans : List RepairPlan) :
    List EntryEvidenceRecord :=
  (parseZip output).entries.map (evidenceRecord fl (parseZip source) output plans)

/-- An entry is trusted when its name is attested and its own checksum verifies; the labels say
the same. -/
theorem trusted_iff (fl : Flate2) (src : ZipParse) (output : Bytes) (plans : List RepairPlan)
    (e : ZipEntry) :
    (evidenceRecord fl src output plans e).trustedMetricInclusion = true ↔
      attests src e.name = true ∧ (extractEntry fl output e).status = .verifiedCrc := by
  unfold evidenceRecord
  dsimp only
  cases attests src e.name <;> by_cases hc : (extractEntry fl output e).status = .verifiedCrc <;>
    simp [classify, hc]

theorem trusted_labels {fl : Flate2} {src : ZipParse} {output : Bytes} {plans : List RepairPlan}
    {e : ZipEntry} (h : (evidenceRecord fl src output plans e).trustedMetricInclusion = true) :
    (evidenceRecord fl src output plans e).verdict = "EXACT_RECOVERABLE" ∧
      (evidenceRecord fl src output plans e).contentEvidence = "CRC32_INDEPENDENT" ∧
      (evidenceRecord fl src output plans e).abstentionReason = none := by
  obtain ⟨ha, hc⟩ := (trusted_iff fl src output plans e).mp h
  simp [evidenceRecord, ha, hc, classify, contentEvidence]

/-! ## Independent attestation -/

variable (fl : Flate2) (source output : Bytes) (plans : List RepairPlan)

/-- Positions of the output's entries that the manifest trusts. -/
abbrev TrustedPosition : Type :=
  {i : Fin (parseZip output).entries.length //
    (evidenceRecord fl (parseZip source) output plans
      (parseZip output).entries[i]).trustedMetricInclusion = true}

/-- Positions of the source's directory records. -/
abbrev SourceRecordPosition : Type :=
  {j : Fin (parseZip source).entries.length // (parseZip source).entries[j].fromCentralDir = true}

/-- Every trusted entry is attested by a record of its own in a count-consistent directory of the
source, under its name and with the checksum of the bytes extracted for it. -/
def IndependentlyAttested : Prop :=
  ∃ f : TrustedPosition fl source output plans → SourceRecordPosition source,
    Function.Injective f ∧ ∀ i, (parseZip source).cdCountConsistent = true ∧
      (parseZip source).entries[(f i).1].name = (parseZip output).entries[i.1].name ∧
      (parseZip source).entries[(f i).1].crc32 =
        (fl.crc32 (extractEntry fl output (parseZip output).entries[i.1]).bytes).toNat

/-- For each attested name and each checksum: the output has no more verified entries of that
name and checksum than the source's directory has records. -/
def ChecksumsCovered : Prop :=
  ∀ name crc, attests (parseZip source) name = true →
    (parseZip output).entries.countP (fun e ↦ e.name = name ∧ e.crc32 = crc ∧
        (extractEntry fl output e).status = .verifiedCrc) ≤
      (parseZip source).entries.countP fun r ↦
        r.fromCentralDir = true ∧ r.name = name ∧ r.crc32 = crc

variable {fl source output plans}

theorem countConsistent_of_attests {src : ZipParse} {name : Text} (h : attests src name = true) :
    src.cdCountConsistent = true := by
  by_contra hc
  simp [attests, attestingRecords, hc] at h

/-- The bytes of a verified entry have the checksum its header states. -/
theorem crc_of_verified {e : ZipEntry} (h : (extractEntry fl output e).status = .verifiedCrc) :
    (fl.crc32 (extractEntry fl output e).bytes).toNat = e.crc32 := by
  obtain ⟨comp, bytes, -, -, hcrc, hbytes⟩ := extractEntry_verified h
  rw [hbytes, hcrc]

theorem independentlyAttested_iff_matched :
    IndependentlyAttested fl source output plans ↔
      Matching.Matched
        (fun i : TrustedPosition fl source output plans ↦
          ((parseZip output).entries[i.1].name, (parseZip output).entries[i.1].crc32))
        (fun j : SourceRecordPosition source ↦
          ((parseZip source).entries[j.1].name, (parseZip source).entries[j.1].crc32)) := by
  refine exists_congr fun f ↦ and_congr_right fun _ ↦ forall_congr' fun i ↦ ?_
  obtain ⟨ha, hv⟩ := (trusted_iff _ _ _ _ _).mp i.2
  rw [crc_of_verified hv, Prod.mk.injEq]
  exact and_iff_right (countConsistent_of_attests ha)

theorem card_trusted (c : Text × ℕ) :
    Fintype.card {i : TrustedPosition fl source output plans //
        ((parseZip output).entries[i.1].name, (parseZip output).entries[i.1].crc32) = c} =
      (parseZip output).entries.countP fun e ↦
        (evidenceRecord fl (parseZip source) output plans e).trustedMetricInclusion = true ∧
          (e.name, e.crc32) = c :=
  Matching.card_labelled_positions (parseZip output).entries
    (fun e ↦ (evidenceRecord fl (parseZip source) output plans e).trustedMetricInclusion = true)
    (fun e ↦ (e.name, e.crc32)) c

theorem card_sourceRecords (c : Text × ℕ) :
    Fintype.card {j : SourceRecordPosition source //
        ((parseZip source).entries[j.1].name, (parseZip source).entries[j.1].crc32) = c} =
      (parseZip source).entries.countP fun r ↦
        r.fromCentralDir = true ∧ (r.name, r.crc32) = c :=
  Matching.card_labelled_positions (parseZip source).entries (fun r ↦ r.fromCentralDir = true)
    (fun r ↦ (r.name, r.crc32)) c

/-- Trust is independently attested exactly when the checksums are covered. -/
theorem independentlyAttested_iff :
    IndependentlyAttested fl source output plans ↔ ChecksumsCovered fl source output := by
  rw [independentlyAttested_iff_matched, Matching.matched_iff_card]
  simp only [card_trusted, card_sourceRecords, trusted_iff, Prod.forall, Prod.mk.injEq,
    ChecksumsCovered]
  refine forall₂_congr fun name crc ↦ ?_
  cases ha : attests (parseZip source) name with
  | true =>
      have hsame : ∀ e : ZipEntry,
          ((attests (parseZip source) e.name = true ∧
              (extractEntry fl output e).status = .verifiedCrc) ∧ e.name = name ∧ e.crc32 = crc) ↔
            e.name = name ∧ e.crc32 = crc ∧ (extractEntry fl output e).status = .verifiedCrc := by
        intro e
        constructor
        · rintro ⟨⟨-, hv⟩, hn, hc⟩
          exact ⟨hn, hc, hv⟩
        · rintro ⟨rfl, hc, hv⟩
          exact ⟨⟨ha, hv⟩, rfl, hc⟩
      simp only [hsame, true_implies]
  | false =>
      have hnone : ∀ e : ZipEntry,
          ¬ ((attests (parseZip source) e.name = true ∧
            (extractEntry fl output e).status = .verifiedCrc) ∧ e.name = name ∧ e.crc32 = crc) := by
        rintro e ⟨⟨he, -⟩, rfl, -⟩
        rw [ha] at he
        exact absurd he (by decide)
      simp [hnone]

/-- A source whose only member was replaced, header and payload, under an intact directory. -/
def replacedMember : Bytes :=
  let body := localRecord storedFlate ⟨['a'], [0x79]⟩
  let cd := centralRecord storedFlate ⟨['a'], [0x78]⟩ 0
  body ++ cd ++ endRecord 1 cd.length body.length

/-- The archive rebuilt from the replaced member. -/
def rebuiltMember : Bytes := encodeZip storedFlate [⟨['a'], [0x79]⟩]

/-- The replaced member is laundered into a trusted entry. -/
theorem replacedMember_trusted :
    (∃ r ∈ entryEvidenceRecords storedFlate replacedMember rebuiltMember [],
      r.trustedMetricInclusion = true) ∧
      ¬ IndependentlyAttested storedFlate replacedMember rebuiltMember [] := by
  have htrusted : ∃ h : 0 < (parseZip rebuiltMember).entries.length,
      (evidenceRecord storedFlate (parseZip replacedMember) rebuiltMember []
        ((parseZip rebuiltMember).entries[0])).trustedMetricInclusion = true := by decide +kernel
  have hcrc : ∀ r ∈ (parseZip replacedMember).entries, ∀ e ∈ (parseZip rebuiltMember).entries,
      r.crc32 ≠ (storedFlate.crc32 (extractEntry storedFlate rebuiltMember e).bytes).toNat := by
    decide +kernel
  obtain ⟨h, ht⟩ := htrusted
  refine ⟨⟨_, List.mem_map_of_mem (List.getElem_mem h), ht⟩, ?_⟩
  rintro ⟨f, -, hf⟩
  exact hcrc _ (List.getElem_mem _) _ (List.getElem_mem _) (hf ⟨⟨0, h⟩, ht⟩).2.2

end VeraqisRecover.Recovery
