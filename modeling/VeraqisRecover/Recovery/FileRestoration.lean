import VeraqisRecover.Recovery.Files
import VeraqisRecover.Recovery.SevenzRestoration

/-!
# Restored files

The rule about the first strategy asked, for recoveries that write files: the file without defects
is what is committed.
-/

namespace VeraqisRecover.Recovery

open ByteString Checked LossyUtf8

variable {σ κ : Type} {host : Host σ κ} {sourcePath outputPath path : Text}
  {result : Analyze.AnalysisResult} {options : FileOptions} {s s₁ s' : σ} {source out : Bytes}
  {tools : Toolbox} {st : PassState}

theorem recover_of_passes (hread : host.fs.read s sourcePath = .ok source)
    (hdiffer : pathsEqual host s sourcePath (outputPathFor sourcePath options) = false)
    (hst : runPassesChecked (host.tools s) (streamRun (host.tools s) source result
      (String.ofList (outputPathFor sourcePath options)) options.toRecoveryOptions)
        ((streamRun (host.tools s) source result
          (String.ofList (outputPathFor sourcePath options)) options.toRecoveryOptions).startReport
            (String.ofList (outputPathFor sourcePath options))) = .ok (.ok st)) :
    recover host sourcePath result options s = .ok (finish host (host.tools s) sourcePath
      (outputPathFor sourcePath options) options st s) := by
  rw [recover, if_neg (Bool.eq_false_iff.mp hdiffer), hread]
  exact bind_eq_ok.mpr ⟨_, hst, rfl⟩

/-- A recovery whose first strategy makes a file without defects of the source keeps that file. -/
theorem recover_of_first {original : Analyze.DataSource} {format : Analyze.ArchiveFormat}
    {applied : RecoveryReport} {strategy : RecoveryStrategy} {rest : List RecoveryStrategy}
    (hread : host.fs.read s sourcePath = .ok source)
    (hdiffer : pathsEqual host s sourcePath (outputPathFor sourcePath options) = false)
    (hbare : Unlisted (host.tools s).env (String.ofList (outputPathFor sourcePath options)))
    (hagg : options.aggressive = false) (horiginal : Pristine (host.tools s).env original format)
    (hne : original.bytes ≠ []) (hhealth : result.healthScore.overall < 100)
    (hselect : (streamRun (host.tools s) source result
      (String.ofList (outputPathFor sourcePath options)) options.toRecoveryOptions).select =
        .ok (strategy :: rest))
    (hfault : strategyFault (host.tools s) strategy.name source = none)
    (hrisk : strategy.risk ≠ .inferred)
    (happly : strategy.apply source = .ok (original.bytes, applied)) :
    ∃ st, recover host sourcePath result options s = .ok (finish host (host.tools s) sourcePath
        (outputPathFor sourcePath options) options st s) ∧
      st.outcome.bytes = some original.bytes ∧ st.aggregate.success = true := by
  obtain ⟨integ, hsuccess, hchecked⟩ := runPassesChecked_of_first hbare hagg horiginal hne hhealth
    hselect hfault hrisk happly ((streamRun (host.tools s) source result
      (String.ofList (outputPathFor sourcePath options)) options.toRecoveryOptions).startReport
        (String.ofList (outputPathFor sourcePath options)))
  exact ⟨_, recover_of_passes hread hdiffer hchecked, rfl, hsuccess⟩

/-- What was committed is reported, whether or not the manifest could be written. -/
theorem finish_of_manifest (hbytes : st.outcome.bytes = some out) (hwet : options.dryRun = false)
    (hcommit : commit host out outputPath s = (s₁, .ok ())) (hsigned : options.writeManifest = true)
    (hmanifest : writeManifest host tools sourcePath outputPath out st options s₁ =
      (s', .ok path)) :
    ∃ report, finish host tools sourcePath outputPath options st s = (s', .ok report) ∧
      report.success = st.aggregate.success ∧
      report.manifestPath = some (String.ofList path) := by
  rw [finish, hbytes]
  dsimp only
  rw [if_neg (Bool.eq_false_iff.mp hwet), hcommit]
  dsimp only
  rw [if_pos hsigned, hmanifest]
  exact ⟨_, rfl, rfl, rfl⟩

/-! ## An archive behind a link -/

/-- A notary whose only key and signature are zeros. -/
def zeroNotary : Manifest.Notary Unit where
  publicKey := fun _ ↦ List.replicate 32 0
  sign := fun _ _ ↦ List.replicate 64 0
  verifyingKey := fun key ↦ if key = List.replicate 32 0 then some () else none
  verifies := fun _ _ signature ↦ signature = List.replicate 64 0
  signingBytes := fun body ↦ asBytes (body.sourceSha256 ++ body.outputSha256)
  toJson := fun manifest ↦ asBytes manifest.signature

theorem zeroNotary_sound : zeroNotary.Sound where
  length_publicKey := fun _ ↦ List.length_replicate
  length_sign := fun _ _ ↦ List.length_replicate
  accepts := fun _ ↦ ⟨(), rfl, fun _ ↦ rfl⟩

/-- The steps of a path, from the root: the program runs there. -/
def diskSteps (path : Text) : List (FileSystem.Step Text) :=
  (Analyze.pathComponents path).2.2.map fun name ↦
    if name = "..".toList then .up else .into name

theorem diskSteps_of_same (p q : Text) (h : Paths.SameComponents p q) :
    diskSteps p = diskSteps q := by
  have hsame : Analyze.pathComponents p = Analyze.pathComponents q := h
  rw [diskSteps, diskSteps, hsame]

def diskHost : Host (FileSystem.Disk Text Bytes) Unit where
  fs := FileSystem.Disk.fileSystem 64 diskSteps fun place ↦
    '/' :: List.intercalate ['/'] place.reverse
  tools := fun _ ↦ bareToolbox
  flate2 := Zip.storedFlate
  notary := zeroNotary
  ephemeral := List.replicate 32 0

theorem diskHost_lawful : diskHost.fs.Lawful Paths.SameComponents :=
  FileSystem.Disk.fileSystem_lawful diskSteps_of_same

/-- The damaged archive and the directory for the output, both behind links.  A third link takes
the manifest to a file of its own. -/
def overwrittenDisk : FileSystem.Disk Text Bytes := fun place ↦ List.lookup place
  [(["archives".toList], .dir),
    (["damaged.7z".toList, "archives".toList], .file overwrittenArchive.bytes),
    (["a.7z".toList], .link [.into "archives".toList, .into "damaged.7z".toList]),
    (["manifests".toList], .dir),
    (["latest.json".toList, "manifests".toList], .file []),
    (["volume".toList], .dir),
    (["a.7z.recovered.phxr.json".toList, "volume".toList],
      .link [.up, .into "manifests".toList, .into "latest.json".toList]),
    (["out".toList], .link [.into "volume".toList])]

def outOptions (hashType : HashType) (toolName : String) : FileOptions where
  outputDir := "out".toList
  hashType
  toolName

theorem outputPathFor_overwrittenDisk (hashType : HashType) (toolName : String) :
    outputPathFor "a.7z".toList (outOptions hashType toolName) = "out/a.7z.recovered".toList := by
  change outputPathFor "a.7z".toList (outOptions .sha256 "") = _
  decide

/-- The passes over the damaged archive keep the archive as it was, and it is written down. -/
theorem recover_overwrittenDisk (toolName : String) : ∃ result,
    Analyze.Engine.analyzeSource bareToolbox.env overwrittenArchive "a.7z".toList "a.7z".toList {} =
      .ok (.ok result) ∧ ∀ hashType, ∃ s' report,
        recover diskHost "a.7z".toList result (outOptions hashType toolName) overwrittenDisk =
          .ok (s', .ok report) ∧ report.success = true ∧
        report.manifestPath = some "out/a.7z.recovered.phxr.json" := by
  have hfirst : FirstAsked bareToolbox overwrittenArchive "a.7z" {} sevenZSignatureRestore :=
    firstAsked_signature rfl rfl (by decide) detect_overwrittenArchive
  have hclean : Analyze.ReportsNoDefect bareToolbox.env.inflate emptyArchive .sevenZ :=
    Analyze.reportsNoDefect_of_nil fun _ _ ↦ emptyArchive_clean
  have hintact := intact_of_clean hclean (by decide)
  have hrepair := Sevenz.repairSignature_complete hintact
    (show Sevenz.DiffersInSignature overwrittenArchive.bytes _ from ⟨rfl, rfl, by decide⟩)
  obtain ⟨applied, happly⟩ := apply_of_repairSignature hrepair
  obtain ⟨result, hresult, hhealth, rest, hselect⟩ := hfirst.analyzed
  refine ⟨result, hresult, fun hashType ↦ ?_⟩
  have hpath := outputPathFor_overwrittenDisk hashType toolName
  have hdiffer : pathsEqual diskHost overwrittenDisk "a.7z".toList
      (outputPathFor "a.7z".toList (outOptions hashType toolName)) = false := by
    rw [hpath]
    decide
  have hkept : ∃ st, recover diskHost "a.7z".toList result (outOptions hashType toolName)
      overwrittenDisk = .ok (finish diskHost bareToolbox "a.7z".toList
        (outputPathFor "a.7z".toList (outOptions hashType toolName)) (outOptions hashType toolName)
          st overwrittenDisk) ∧ st.outcome.bytes = some emptyArchive.bytes ∧
        st.aggregate.success = true :=
    recover_of_first rfl hdiffer rfl rfl (pristine_of_intact hclean hintact)
      (by decide) hhealth hselect hfirst.untroubled hfirst.not_inferred happly
  obtain ⟨st, hrecover, hbytes, hsuccess⟩ := hkept
  rw [hpath] at hrecover
  obtain ⟨s₁, s₂, hcommit, hmanifest⟩ : ∃ s₁ s₂,
      commit diskHost emptyArchive.bytes "out/a.7z.recovered".toList overwrittenDisk =
        (s₁, .ok ()) ∧
      writeManifest diskHost bareToolbox "a.7z".toList "out/a.7z.recovered".toList
        emptyArchive.bytes st (outOptions hashType toolName) s₁ =
          (s₂, .ok (sidecarOf "out/a.7z.recovered".toList)) := ⟨_, _, rfl, rfl⟩
  obtain ⟨report, hfinish, hreported, hmanifestPath⟩ :=
    finish_of_manifest hbytes rfl hcommit rfl hmanifest
  exact ⟨s₂, report, hrecover.trans (congrArg _ hfinish), hreported.trans hsuccess, hmanifestPath⟩

end VeraqisRecover.Recovery
