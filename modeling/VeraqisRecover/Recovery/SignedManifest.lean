import VeraqisRecover.Recovery.EntryEvidence
import VeraqisRecover.Recovery.Manifest

/-!
# Building the manifest

`build` of `manifest.rs`: what a recovery records about itself, and the
signature over it.  The record claims verified bytes only of an output that was
verified, and the signature is one that `verify` accepts.
-/

namespace VeraqisRecover.Recovery.Manifest

open ByteString

/-- Provenance guarantee for a repair. -/
inductive Guarantee
  | verified
  | unverified
  | lost
  deriving DecidableEq, Repr

/-- The headline guarantee of a repair, given whether the whole output was byte-verified. -/
def Guarantee.fromRisk : RepairRisk → Bool → Guarantee
  | .safe, true => verified
  | .safe, false => unverified
  | .inferred, _ => unverified
  | .lossy, _ => lost

structure GuaranteeTriad where
  verifiedBytes : ℕ
  unverifiedBytes : ℕ
  lostBytes : ℕ
  deriving DecidableEq, Repr

structure RepairRecord where
  ruleId : String
  technique : String
  targetRange : Option ByteRange
  risk : String
  guarantee : Guarantee
  deriving DecidableEq, Repr

def RepairRecord.fromPlan (outputVerified : Bool) (p : RepairPlan) : RepairRecord :=
  ⟨p.ruleId, p.technique, p.targetRange, p.risk.label, .fromRisk p.risk outputVerified⟩

/-- Everything the signature covers. -/
structure ManifestBody where
  formatVersion : String
  tool : String
  sourcePath : Text
  outputPath : Text
  sourceSha256 : Text
  outputSha256 : Text
  repairs : List RepairRecord
  entries : List EntryEvidenceRecord
  guarantees : GuaranteeTriad
  deriving DecidableEq, Repr

/-- The manifest that is written to disk. -/
structure SignedManifest extends RepairManifest ManifestBody where
  /-- The first 16 hexadecimal digits of the digest of the public key. -/
  keyId : Text

/-- What is signed with, and the serializers. -/
structure Notary (κ : Type) where
  /-- The public key of a seed, as it is embedded. -/
  publicKey : Bytes → Bytes
  sign : Bytes → Bytes → Bytes
  verifyingKey : Bytes → Option κ
  verifies : κ → Bytes → Bytes → Bool
  signingBytes : ManifestBody → Bytes
  toJson : SignedManifest → Bytes

/-- What Ed25519 promises: keys of 32 bytes, signatures of 64, and each signature is accepted. -/
structure Notary.Sound {κ : Type} (notary : Notary κ) : Prop where
  length_publicKey : ∀ seed, (notary.publicKey seed).length = 32
  length_sign : ∀ seed message, (notary.sign seed message).length = 64
  accepts : ∀ seed, ∃ vk, notary.verifyingKey (notary.publicKey seed) = some vk ∧
    ∀ message, notary.verifies vk message (notary.sign seed message) = true

def MANIFEST_VERSION : String := "phxr-1.0"

def CARGO_PKG_VERSION : String := "0.2.1"

def keyId (digest : Bytes → Bytes) (publicKey : Bytes) : Text := (hex (digest publicKey)).take 16

/-- With a reference match the recovered bytes are verified, otherwise they are unproven. -/
def triad (bytesRecovered bytesLost : ℕ) (outputVerified : Bool) : GuaranteeTriad :=
  if outputVerified then ⟨bytesRecovered, 0, bytesLost⟩ else ⟨0, bytesRecovered, bytesLost⟩

/-- Build and sign a manifest. -/
def build {κ : Type} (notary : Notary κ) (digest : Bytes → Bytes) (sourcePath outputPath : Text)
    (sourceBytes outputBytes : Bytes) (repairs : List RepairPlan)
    (entries : List EntryEvidenceRecord) (bytesRecovered bytesLost : ℕ) (outputVerified : Bool)
    (key : Bytes) (toolName : String) : SignedManifest :=
  let body : ManifestBody := {
    formatVersion := MANIFEST_VERSION
    tool := s!"{toolName} {CARGO_PKG_VERSION}"
    sourcePath
    outputPath
    sourceSha256 := hex (digest sourceBytes)
    outputSha256 := hex (digest outputBytes)
    repairs := repairs.map (.fromPlan outputVerified)
    entries
    guarantees := triad bytesRecovered bytesLost outputVerified }
  let vk := notary.publicKey key
  { body
    publicKey := hex vk
    signature := hex (notary.sign key (notary.signingBytes body))
    keyId := keyId digest vk }

/-- The body claims something to be byte-exact: a count of bytes, or a repair. -/
def ManifestBody.ClaimsVerified (body : ManifestBody) : Prop :=
  0 < body.guarantees.verifiedBytes ∨ ∃ r ∈ body.repairs, r.guarantee = .verified

/-- Signed anew, a manifest passes its own check. -/
theorem verify_of_signed {κ : Type} {notary : Notary κ} (hsound : notary.Sound) {key : Bytes}
    {m : RepairManifest ManifestBody} (hkey : m.publicKey = hex (notary.publicKey key))
    (hsig : m.signature = hex (notary.sign key (notary.signingBytes m.body))) :
    m.verify notary.signingBytes notary.verifyingKey notary.verifies = .ok true := by
  obtain ⟨vk, hvk, haccepts⟩ := hsound.accepts key
  rw [RepairManifest.verify, hkey, hsig, unhex_hex, unhex_hex]
  dsimp only [bind, Except.bind]
  rw [Option.filter_some, if_pos (decide_eq_true (hsound.length_publicKey key)),
    Option.filter_some, if_pos (decide_eq_true (hsound.length_sign key _))]
  dsimp only
  rw [hvk]
  dsimp only
  rw [haccepts]
  rfl

theorem fromRisk_eq_verified {risk : RepairRisk} {outputVerified : Bool}
    (h : Guarantee.fromRisk risk outputVerified = .verified) : outputVerified = true := by
  cases risk with
  | safe =>
      cases outputVerified with
      | false => cases h
      | true => rfl
  | inferred => cases h
  | lossy => cases h

/-- Nothing is claimed to be byte-exact unless the output was verified. -/
theorem verified_of_claims {outputVerified : Bool} {body : ManifestBody} {repairs : List RepairPlan}
    {bytesRecovered bytesLost : ℕ}
    (hrepairs : body.repairs = repairs.map (.fromPlan outputVerified))
    (htriad : body.guarantees = triad bytesRecovered bytesLost outputVerified)
    (h : body.ClaimsVerified) : outputVerified = true := by
  rcases h with hbytes | ⟨r, hr, hverified⟩
  · by_contra hnot
    rw [htriad, triad, if_neg hnot] at hbytes
    exact absurd hbytes (Nat.lt_irrefl 0)
  · rw [hrepairs] at hr
    obtain ⟨p, -, rfl⟩ := List.mem_map.mp hr
    exact fromRisk_eq_verified hverified

end VeraqisRecover.Recovery.Manifest
