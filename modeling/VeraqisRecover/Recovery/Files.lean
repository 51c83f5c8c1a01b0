import VeraqisRecover.Recovery.Paths
import VeraqisRecover.Recovery.SignedManifest
import VeraqisRecover.Recovery.Stream
import VeraqisRecover.Support.FileSystem

/-!
# Recovery from file to file

`recover` of `engine.rs`: the passes run over an open source, and what they keep is committed to
a path of its own, with a manifest beside it.  The source is read once more for the manifest, after
the commit.
-/

namespace VeraqisRecover.Recovery

open ByteString Checked

/-! ## What a recovery of files works with -/

/-- Options of a recovery that writes files. -/
structure FileOptions extends RecoveryOptions where
  outputDir : Text := ['.']
  dryRun : Bool := false
  writeManifest : Bool := true
  /-- The seed to sign with. -/
  signKey : Option Bytes := none
  toolName : String := "phx"

structure Host (σ κ : Type) where
  fs : FileSystem σ Text Bytes
  tools : σ → Toolbox
  flate2 : Zip.Flate2
  notary : Manifest.Notary κ
  /-- The seed of a run without a key. -/
  ephemeral : Bytes

def errorMessage : RecoveryError → String
  | .io path source => s!"I/O error on {path}: {source}"
  | .outputEqualsSource => "recovery output path must differ from the source path"
  | .noApplicableStrategy => "no applicable recovery strategy for this damage"
  | .strategy strategy reason => s!"strategy '{strategy}' failed: {reason}"

def outputPathFor (sourcePath : Text) (options : FileOptions) : Text :=
  let name := (Analyze.fileName sourcePath).getD "output".toList
  Paths.join options.outputDir (name ++ ".recovered".toList)

/-- Where the manifest of an output goes. -/
def sidecarOf (outputPath : Text) : Text := outputPath ++ ".phxr.json".toList

variable {σ κ : Type} (host : Host σ κ)

/-- Compare canonical paths if there are two, else the paths as they are. -/
def pathsEqual (s : σ) (a b : Text) : Bool :=
  match host.fs.canonicalize s a, host.fs.canonicalize s b with
  | some ca, some cb => Analyze.pathComponents ca = Analyze.pathComponents cb
  | _, _ => Analyze.pathComponents a = Analyze.pathComponents b

/-- Write the recovered bytes to the output path. -/
def commit (bytes : Bytes) (outputPath : Text) (s : σ) : σ × Except RecoveryError Unit :=
  let dir := (Paths.parent outputPath).getD []
  match if dir = [] then (s, .ok ()) else host.fs.createDirAll s dir with
  | (s, .error e) => (s, .error (.io (String.ofList dir) e))
  | (s, .ok ()) =>
      match host.fs.write s outputPath bytes with
      | (s, .error e) => (s, .error (.io (String.ofList outputPath) e))
      | (s, .ok ()) => (s, .ok ())

/-- The manifest of an output, about the source as it now reads. -/
def manifestOf (tools : Toolbox) (sourcePath outputPath : Text) (source : Bytes) (output : Bytes)
    (st : PassState) (options : FileOptions) : Manifest.SignedManifest :=
  Manifest.build host.notary (tools.env.digest .sha256) sourcePath outputPath source output
    st.outcome.keptPlans (entryEvidenceRecords host.flate2 source output st.outcome.keptPlans)
    st.aggregate.bytesRecovered st.aggregate.bytesLost st.outcome.outputVerified
    (options.signKey.getD host.ephemeral) options.toolName

/-- Build, sign, and write the manifest sidecar. -/
def writeManifest (tools : Toolbox) (sourcePath outputPath : Text) (output : Bytes)
    (st : PassState) (options : FileOptions) (s : σ) : σ × Except RecoveryError Text :=
  match host.fs.read s sourcePath with
  | .error e => (s, .error (.io (String.ofList sourcePath) e))
  | .ok source =>
      let path := sidecarOf outputPath
      let manifest := manifestOf host tools sourcePath outputPath source output st options
      match host.fs.write s path (host.notary.toJson manifest) with
      | (s, .error e) => (s, .error (.io (String.ofList path) e))
      | (s, .ok ()) => (s, .ok path)

/-- The report as it is returned. -/
def closing (options : FileOptions) (outputPath : Text) (kept : Bool) (aggregate : RecoveryReport) :
    RecoveryReport :=
  { aggregate with
    outputPath := String.ofList outputPath
    warnings := aggregate.warnings ++
      if options.dryRun then ["dry-run: no output written"]
      else if kept then []
      else ["no repair improved health; source left unchanged"] }

/-- The aggregate, with what became of the manifest. -/
def noteManifest (aggregate : RecoveryReport) : Except RecoveryError Text → RecoveryReport
  | .ok path => { aggregate with manifestPath := some (String.ofList path) }
  | .error e => { aggregate with
      warnings := aggregate.warnings ++ [s!"repair manifest not written: {errorMessage e}"] }

/-- What follows the passes. -/
def finish (tools : Toolbox) (sourcePath outputPath : Text) (options : FileOptions)
    (st : PassState) (s : σ) : σ × Except RecoveryError RecoveryReport :=
  match st.outcome.bytes with
  | none => (s, .ok (closing options outputPath false st.aggregate))
  | some bytes =>
      if options.dryRun then (s, .ok (closing options outputPath true st.aggregate))
      else
        match commit host bytes outputPath s with
        | (s, .error e) => (s, .error e)
        | (s, .ok ()) =>
            if options.writeManifest then
              let (s, written) := writeManifest host tools sourcePath outputPath bytes st options s
              (s, .ok (closing options outputPath true (noteManifest st.aggregate written)))
            else (s, .ok (closing options outputPath true st.aggregate))

/-- An aggregate without a repair. -/
def abstained (aggregate : RecoveryReport) : PassState where
  aggregate := { aggregate with
    warnings := aggregate.warnings ++
      ["no repairable defects detected; nothing to recover (abstain)"] }

/-- Run recovery for a previously analyzed file. -/
def recover (sourcePath : Text) (result : Analyze.AnalysisResult) (options : FileOptions) (s : σ) :
    Checked (σ × Except RecoveryError RecoveryReport) :=
  let outputPath := outputPathFor sourcePath options
  if pathsEqual host s sourcePath outputPath then return (s, .error .outputEqualsSource)
  else
    match host.fs.read s sourcePath with
    | .error e => return (s, .error (.io (String.ofList sourcePath) e))
    | .ok source => do
        let tools := host.tools s
        let label := String.ofList outputPath
        let run := streamRun tools source result label options.toRecoveryOptions
        let aggregate := run.startReport label
        match ← runPassesChecked tools run aggregate with
        | .error .noApplicableStrategy =>
            return finish host tools sourcePath outputPath options (abstained aggregate) s
        | .error e => return (s, .error e)
        | .ok st => return finish host tools sourcePath outputPath options st s

end VeraqisRecover.Recovery
