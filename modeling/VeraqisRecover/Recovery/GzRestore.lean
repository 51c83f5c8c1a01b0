import VeraqisRecover.Gzip.Salvage
import VeraqisRecover.Recovery.GzTrailer
import VeraqisRecover.Support.Checked

/-!
# Other repairs of a GZIP file

The magic is put back (`GzMagicRestore`), what inflates is wrapped anew
(`GzPartialInflate`), and so is what the member salvage verifies
(`GzMemberSalvage`).  The salvage cuts the body of an unproven member out of
the file and can be stopped there, and its strategy with it.
-/

namespace VeraqisRecover.Recovery

open ByteString Gzip

/-- `flate2` with its encoder, which writes one member and may fail. -/
structure GzCodec extends GzDecoder where
  encode : Bytes → Except String Bytes

/-! ## The magic -/

namespace GzMagicRestore

def name : String := "gz-magic-restore"

def canApply (result : AnalysisResult) : Bool :=
  result.archiveFormat = some .gzip && result.corruptions.any (·.ruleId = "GZ_MAGIC_001")

def apply (source : Bytes) : Except RecoveryError (Bytes × RecoveryReport) :=
  let report := { RecoveryReport.empty "" with strategiesApplied := [name] }
  if source.length < 2 then
    .ok ([], { report with
      success := false
      warnings := ["file too short to contain GZIP magic"] })
  else
    .ok ((source.set 0 0x1F).set 1 0x8B, { report with
      bytesRecovered := source.length
      success := true
      warnings := ["restored GZIP magic bytes 1F 8B at offset 0"] })

end GzMagicRestore

/-- Restore the two-byte GZIP magic `1F 8B` when corrupted. -/
def gzMagicRestore : RecoveryStrategy where
  name := GzMagicRestore.name
  technique := "GzMagicRestore"
  risk := .safe
  priority := 85
  handles := (·.ruleId = "GZ_MAGIC_001")
  canApply := GzMagicRestore.canApply
  predictedOutcome := fun _ ↦ "overwrite bytes 0–1 with the GZIP magic 1F 8B"
  apply := GzMagicRestore.apply

theorem gzMagicRestore_reportsItself : gzMagicRestore.ReportsItself := by
  intro source staged report hrun
  simp only [gzMagicRestore, GzMagicRestore.apply] at hrun
  split at hrun
  · obtain ⟨-, rfl⟩ := Prod.mk.inj (Except.ok.inj hrun)
    exact ⟨rfl, rfl⟩
  · obtain ⟨-, rfl⟩ := Prod.mk.inj (Except.ok.inj hrun)
    exact ⟨rfl, rfl⟩

/-! ## Partial inflation -/

namespace GzPartialInflate

def name : String := "gz-partial-inflate"

def handles (c : Corruption) : Bool := c.ruleId = "GZ_TRUNC_001" || c.ruleId = "GZ_TRUNC_002"

def canApply (result : AnalysisResult) : Bool :=
  result.archiveFormat = some .gzip &&
    result.corruptions.any fun c ↦ c.category = .truncation || handles c

/-- The body, without the last eight bytes if there are that many behind its start. -/
def deflateBody (data : Bytes) : Bytes :=
  let start := GzTrailerRecompute.gzBodyStart data
  if data.length ≤ start then []
  else
    let bodyEnd := if start + 8 < data.length then data.length - 8 else data.length
    (data.take bodyEnd).drop start

def apply (codec : GzCodec) (source : Bytes) : Except RecoveryError (Bytes × RecoveryReport) :=
  let report := { RecoveryReport.empty "" with strategiesApplied := [name] }
  let outcome := GzTrailerRecompute.readToEnd codec.toGzDecoder (deflateBody source)
  let recovered := outcome.plain.length
  if recovered = 0 then
    .ok ([], { report with
      success := false
      warnings := ["no bytes could be decompressed; stream may be fully corrupted"] })
  else
    match codec.encode outcome.plain with
    | .error reason => .error (.strategy name reason)
    | .ok wrapped =>
        let tailNote := if outcome.ok then s!"; {recovered} bytes recovered"
          else s!"; {recovered} bytes recovered, tail lost at corruption boundary"
        .ok (wrapped, { report with
          bytesRecovered := recovered
          bytesLost := source.length - recovered
          success := true
          warnings := ["partial inflate" ++ tailNote] })

end GzPartialInflate

/-- Salvage what inflates of a truncated or corrupted GZIP stream. -/
def gzPartialInflate (codec : GzCodec) : RecoveryStrategy where
  name := GzPartialInflate.name
  technique := "GzPartialInflate"
  risk := .lossy
  priority := 40
  handles := GzPartialInflate.handles
  canApply := GzPartialInflate.canApply
  predictedOutcome := fun _ ↦ "decompress readable bytes and wrap in a fresh GZIP stream; " ++
    "tail past corruption is lost"
  apply := GzPartialInflate.apply codec

theorem gzPartialInflate_reportsItself (codec : GzCodec) :
    (gzPartialInflate codec).ReportsItself := by
  intro source staged report hrun
  simp only [gzPartialInflate, GzPartialInflate.apply] at hrun
  split at hrun
  · obtain ⟨-, rfl⟩ := Prod.mk.inj (Except.ok.inj hrun)
    exact ⟨rfl, rfl⟩
  · split at hrun
    · cases hrun
    · obtain ⟨-, rfl⟩ := Prod.mk.inj (Except.ok.inj hrun)
      exact ⟨rfl, rfl⟩

/-! ## Member salvage -/

namespace GzMemberSalvage

def name : String := "gz-member-salvage"

def handles (c : Corruption) : Bool :=
  c.ruleId = "GZ_TRUNC_001" || c.ruleId = "GZ_TRUNC_002" || c.ruleId = "GZ_ICRC_001" ||
    c.ruleId = "GZ_ISIZE_001"

def canApply (result : AnalysisResult) : Bool :=
  result.archiveFormat = some .gzip && !result.corruptions.isEmpty

/-- The verified content of a salvage, wrapped as one member. -/
def emit (codec : GzCodec) (salvage : Tar.SalvageResult) : Bytes × RecoveryReport :=
  let report := { RecoveryReport.empty "" with strategiesApplied := [name] }
  if salvage.membersVerified = 0 then
    ([], { report with
      success := false
      warnings := ["no GZIP member could be CRC-verified; nothing salvaged (falling through)"] })
  else if salvage.verifiedPayload = [] then ([], { report with success := false })
  else
    match codec.encode salvage.verifiedPayload with
    | .error _ => ([], { report with
        success := false
        warnings := ["re-encoding salvaged GZIP content failed"] })
    | .ok wrapped => (wrapped, { report with
        bytesRecovered := salvage.verifiedPayload.length
        bytesLost := salvage.unverifiedBytes
        success := true
        warnings := [s!"salvaged {salvage.membersVerified} CRC-verified GZIP member(s) " ++
          s!"({salvage.verifiedPayload.length} B exact content); " ++
          "dropped the corrupt member, re-wrapped as one clean member"] })

/-- The salvage is stopped where it slices past the next member. -/
def apply (codec : GzCodec) (source : Bytes) :
    Checked (Except RecoveryError (Bytes × RecoveryReport)) :=
  match salvageGzip codec.toGzDecoder source with
  | none => .error .outOfRange
  | some salvage => .ok (.ok (emit codec salvage))

theorem emit_reportsItself (codec : GzCodec) (salvage : Tar.SalvageResult) :
    (emit codec salvage).2.strategiesApplied = [name] ∧ (emit codec salvage).2.rolledBack = [] := by
  unfold emit
  split
  · exact ⟨rfl, rfl⟩
  · split
    · exact ⟨rfl, rfl⟩
    · split
      · exact ⟨rfl, rfl⟩
      · exact ⟨rfl, rfl⟩

end GzMemberSalvage

end VeraqisRecover.Recovery
