import VeraqisRecover.Recovery.FileRestoration

/-!
# What a recovery does to files

The source reads afterwards as it did before, whatever the outcome.  A report of success stands for
an output file that holds what the gate let pass; any other report stands for no file at all.
And the manifest is about these two files.
-/

namespace VeraqisRecover.Recovery

open ByteString Checked

variable {σ κ : Type} {host : Host σ κ} {sourcePath outputPath path : Text}
  {result : Analyze.AnalysisResult} {options : FileOptions} {s s' : σ} {source out : Bytes}
  {tools : Toolbox} {st : PassState}

/-! ## Success -/

theorem Run.success_of_justified {run : Run} {p : Pass} (h : run.Justified p) :
    (run.report p).success = true := by
  change (p.verified || run.improved p || reportIsTerminal p.strategy) = true
  rcases h.gain with hverified | himproved | ⟨-, hterminal⟩
  · rw [hverified, Bool.true_or, Bool.true_or]
  · rw [(run.improved_iff p).mpr himproved, Bool.or_true, Bool.true_or]
  · rw [show reportIsTerminal p.strategy = true from decide_eq_true hterminal, Bool.or_true]

/-- A run reports success where it kept an output, and nowhere else. -/
theorem foldl_settle_success (run : Run) {aggregate : RecoveryReport}
    (hfresh : aggregate.success = false) (ps : List Pass) :
    (ps.foldl run.settle { aggregate }).aggregate.success =
      (ps.foldl run.settle { aggregate }).outcome.bytes.isSome := by
  induction ps using List.reverseRecOn with
  | nil => exact hfresh
  | append_singleton ps p ih =>
      rw [List.foldl_append, List.foldl_cons, List.foldl_nil]
      cases hk : run.keeps p with
      | true =>
          rw [run.settle_of_keeps hk]
          have hsuccess := Run.success_of_justified ((run.keeps_iff_justified p).mp hk)
          change ((ps.foldl run.settle { aggregate }).aggregate.success ||
            (run.report p).success) = true
          rw [hsuccess, Bool.or_true]
      | false =>
          rw [run.settle_of_not_keeps hk]
          exact ih

theorem foldl_settle_manifestPath (run : Run) (ps : List Pass) (st : PassState) :
    (ps.foldl run.settle st).aggregate.manifestPath = st.aggregate.manifestPath := by
  rw [@Run.foldl_settle_figure run _ (·.manifestPath) (fun path _ ↦ path) (fun _ _ ↦ rfl)
    (fun _ _ ↦ rfl) ps st]
  exact List.foldl_fixed _

/-! ## What is written -/

/-- Once an output is written, no link leads from the place of the manifest to it or to the
source. -/
def ManifestApart (host : Host σ κ) (s : σ) (sourcePath outputPath : Text) : Prop :=
  ∀ out s', host.fs.write s outputPath out = (s', .ok ()) →
    ¬ host.fs.SameFile s' (sidecarOf outputPath) sourcePath ∧
      ¬ host.fs.SameFile s' (sidecarOf outputPath) outputPath

/-- In the state that a recovery starts from, the directory of the output is there, and what it
writes lands on files of their own. -/
structure Separate (host : Host σ κ) (s : σ) (sourcePath outputPath : Text) : Prop where
  lawful : host.fs.Lawful Paths.SameComponents
  directory : ∀ dir, Paths.parent outputPath = some dir → dir ≠ [] →
    host.fs.createDirAll s dir = (s, .ok ())
  manifest : ManifestApart host s sourcePath outputPath

theorem not_sameFile (hdiffer : pathsEqual host s sourcePath outputPath = false) :
    ¬ host.fs.SameFile s outputPath sourcePath := by
  rintro ⟨c, houtput, hsource⟩
  rw [pathsEqual, hsource, houtput] at hdiffer
  exact absurd rfl (of_decide_eq_false hdiffer)

/-- Where the directory is there, committing is a single write. -/
theorem commit_of_directory (hsep : Separate host s sourcePath outputPath) :
    (commit host out outputPath s).1 = (host.fs.write s outputPath out).1 ∧
      ((commit host out outputPath s).2 = .ok () →
        (host.fs.write s outputPath out).2 = .ok ()) := by
  have hmade : (if (Paths.parent outputPath).getD [] = [] then (s, Except.ok ())
      else host.fs.createDirAll s ((Paths.parent outputPath).getD [])) = (s, .ok ()) := by
    split
    · rfl
    · rename_i hdir
      cases hparent : Paths.parent outputPath with
      | none =>
          rw [hparent] at hdir
          exact absurd rfl hdir
      | some dir =>
          rw [hparent] at hdir
          exact hsep.directory dir hparent hdir
  rw [commit, hmade]
  dsimp only
  cases host.fs.write s outputPath out with
  | mk s₁ written =>
      cases written with
      | error e => exact ⟨rfl, nofun⟩
      | ok u => exact ⟨rfl, fun _ ↦ rfl⟩

theorem commit_read_source (hsep : Separate host s sourcePath outputPath)
    (hread : host.fs.read s sourcePath = .ok source)
    (hdiffer : pathsEqual host s sourcePath outputPath = false) :
    host.fs.read (commit host out outputPath s).1 sourcePath = .ok source := by
  rw [(commit_of_directory hsep).1]
  exact hsep.lawful.read_write out hread (not_sameFile hdiffer)

theorem write_of_commit (hsep : Separate host s sourcePath outputPath)
    (hcommit : commit host out outputPath s = (s', .ok ())) :
    host.fs.write s outputPath out = (s', .ok ()) := by
  obtain ⟨hstate, hok⟩ := commit_of_directory hsep
  rw [hcommit] at hstate hok
  exact Prod.ext hstate.symm (hok rfl)

theorem commit_read_output (hsep : Separate host s sourcePath outputPath)
    (hcommit : commit host out outputPath s = (s', .ok ())) :
    host.fs.read s' outputPath = .ok out :=
  hsep.lawful.read_write_self (write_of_commit hsep hcommit)

theorem writeManifest_read (hlawful : host.fs.Lawful Paths.SameComponents)
    (hapart : ¬ host.fs.SameFile s (sidecarOf outputPath) path)
    (hread : host.fs.read s path = .ok source) :
    host.fs.read (writeManifest host tools sourcePath outputPath out st options s).1 path =
      .ok source := by
  unfold writeManifest
  split
  · exact hread
  · rename_i current _
    have hkept := hlawful.read_write (host.notary.toJson
      (manifestOf host tools sourcePath outputPath current out st options)) hread hapart
    dsimp only
    split
    · rename_i hwrite
      rwa [hwrite] at hkept
    · rename_i hwrite
      rwa [hwrite] at hkept

/-- What follows the passes leaves the source as it is. -/
theorem finish_read_source (hsep : Separate host s sourcePath outputPath)
    (hread : host.fs.read s sourcePath = .ok source)
    (hdiffer : pathsEqual host s sourcePath outputPath = false) :
    host.fs.read (finish host tools sourcePath outputPath options st s).1 sourcePath =
      .ok source := by
  unfold finish
  split
  · exact hread
  · rename_i bytes _
    split
    · exact hread
    · have hkept : host.fs.read (commit host bytes outputPath s).1 sourcePath = .ok source :=
        commit_read_source hsep hread hdiffer
      split
      · rename_i hcommit
        rwa [hcommit] at hkept
      · rename_i s₁ hcommit
        rw [hcommit] at hkept
        split
        · have hapart := hsep.manifest _ _ (write_of_commit hsep hcommit)
          exact writeManifest_read hsep.lawful hapart.1 hkept
        · exact hkept

/-- Nothing is written where nothing was kept, or nothing should be. -/
theorem finish_untouched (h : st.outcome.bytes = none ∨ options.dryRun = true) :
    (finish host tools sourcePath outputPath options st s).1 = s := by
  unfold finish
  split
  · rfl
  · rename_i hbytes
    rcases h with hnone | hdry
    · rw [hnone] at hbytes
      cases hbytes
    · rw [if_pos hdry]

/-- A commit that went well is there to be read, whatever becomes of the manifest. -/
theorem finish_read_output (hsep : Separate host s sourcePath outputPath) {report : RecoveryReport}
    (hbytes : st.outcome.bytes = some out) (hwet : options.dryRun = false)
    (h : finish host tools sourcePath outputPath options st s = (s', .ok report)) :
    host.fs.read s' outputPath = .ok out := by
  rw [finish, hbytes] at h
  dsimp only at h
  rw [if_neg (Bool.eq_false_iff.mp hwet)] at h
  split at h
  · cases (Prod.mk.inj h).2
  · rename_i s₁ hcommit
    have hwritten := commit_read_output hsep hcommit
    split at h
    · obtain ⟨rfl, -⟩ := Prod.mk.inj h
      have hapart := hsep.manifest _ _ (write_of_commit hsep hcommit)
      exact writeManifest_read hsep.lawful hapart.2 hwritten
    · obtain ⟨rfl, -⟩ := Prod.mk.inj h
      exact hwritten

/-- The report is the aggregate's, but for the path, the manifest and the warnings. -/
theorem finish_report {report : RecoveryReport}
    (h : (finish host tools sourcePath outputPath options st s).2 = .ok report) :
    report.success = st.aggregate.success ∧
      report.strategiesApplied = st.aggregate.strategiesApplied := by
  unfold finish at h
  split at h
  · obtain rfl := Except.ok.inj h
    exact ⟨rfl, rfl⟩
  · split at h
    · obtain rfl := Except.ok.inj h
      exact ⟨rfl, rfl⟩
    · split at h
      · cases h
      · split at h
        · obtain rfl := Except.ok.inj h
          generalize (writeManifest host tools sourcePath outputPath _ st options _).2 = written
          cases written with
          | ok path => exact ⟨rfl, rfl⟩
          | error e => exact ⟨rfl, rfl⟩
        · obtain rfl := Except.ok.inj h
          exact ⟨rfl, rfl⟩

/-! ## A recovery, taken apart -/

/-- A recovery stops before it writes, or comes to what follows the passes. -/
theorem recover_cases {r : Except RecoveryError RecoveryReport}
    (h : recover host sourcePath result options s = .ok (s', r)) :
    (s' = s ∧ ∃ e, r = .error e) ∨
      ∃ source run st, host.fs.read s sourcePath = .ok source ∧
        pathsEqual host s sourcePath (outputPathFor sourcePath options) = false ∧
        run = streamRun (host.tools s) source result
          (String.ofList (outputPathFor sourcePath options)) options.toRecoveryOptions ∧
        (s', r) = finish host (host.tools s) sourcePath (outputPathFor sourcePath options) options
          st s ∧
        (run.runPasses (run.startReport (String.ofList (outputPathFor sourcePath options))) =
            .ok st ∨
          st = abstained (run.startReport (String.ofList (outputPathFor sourcePath options)))) := by
  unfold recover at h
  dsimp only at h
  split at h
  · obtain ⟨rfl, rfl⟩ := Prod.mk.inj (Except.ok.inj h)
    exact .inl ⟨rfl, _, rfl⟩
  · rename_i hdiffer
    split at h
    · obtain ⟨rfl, rfl⟩ := Prod.mk.inj (Except.ok.inj h)
      exact .inl ⟨rfl, _, rfl⟩
    · rename_i source hread
      obtain ⟨x, hx, h⟩ := bind_eq_ok.mp h
      have hdiffer := Bool.eq_false_iff.mpr hdiffer
      cases x with
      | ok st =>
          exact .inr ⟨source, _, st, hread, hdiffer, rfl, (Except.ok.inj h).symm,
            .inl (runPassesChecked_eq_ok hx).symm⟩
      | error e =>
          cases e with
          | noApplicableStrategy =>
              exact .inr ⟨source, _, _, hread, hdiffer, rfl, (Except.ok.inj h).symm, .inr rfl⟩
          | io path source =>
              obtain ⟨rfl, rfl⟩ := Prod.mk.inj (Except.ok.inj h)
              exact .inl ⟨rfl, _, rfl⟩
          | outputEqualsSource =>
              obtain ⟨rfl, rfl⟩ := Prod.mk.inj (Except.ok.inj h)
              exact .inl ⟨rfl, _, rfl⟩
          | strategy name reason =>
              obtain ⟨rfl, rfl⟩ := Prod.mk.inj (Except.ok.inj h)
              exact .inl ⟨rfl, _, rfl⟩

/-- The output that a recovery keeps, and the pass that made it. -/
structure Kept (tools : Toolbox) (source : Bytes) (label : FilePath) (options : RecoveryOptions)
    (result : Analyze.AnalysisResult) (st : PassState) (strategy : RecoveryStrategy)
    (out : Bytes) : Prop where
  known : strategy ∈ allStrategies tools
  credited : strategy.name ∈ st.aggregate.strategiesApplied
  gated : Gated tools source label options result strategy out
  plans : st.outcome.keptPlans = strategy.plan (.ofAnalyze result)
  verified : st.outcome.outputVerified = true ↔ MatchesManifest tools result options out

/-- What the passes of a recovery come to: nothing at all, or a kept output and success. -/
theorem kept_of_passes {label : FilePath} {options : RecoveryOptions} {run : Run}
    (hrun : run = streamRun tools source result label options)
    (hst : run.runPasses (run.startReport label) = .ok st ∨
      st = abstained (run.startReport label)) :
    st.aggregate.manifestPath = none ∧
      (st.outcome.bytes = none ∧ st.aggregate.success = false ∧
          st.aggregate.strategiesApplied = [] ∨
        st.aggregate.success = true ∧ ∃ strategy out, st.outcome.bytes = some out ∧
          Kept tools source label options result st strategy out) := by
  rcases hst with hst | rfl
  · obtain ⟨ps, hps, rfl⟩ := run.runPasses_ok hst
    have hfresh : (run.startReport label).success = false := rfl
    have hsuccess := foldl_settle_success run hfresh ps
    refine ⟨foldl_settle_manifestPath run ps _, ?_⟩
    rcases returned_of_passes hps with ⟨hnone, hclaims, -⟩ |
      ⟨p, hbytes, hp, hjust, hknown, hcredited, hplans, hverified, -⟩
    · rw [hnone] at hsuccess
      exact .inl ⟨hnone, hsuccess, hclaims⟩
    · rw [hbytes] at hsuccess
      refine .inr ⟨hsuccess, p.strategy, p.staged, hbytes, ?_⟩
      subst hrun
      refine ⟨hknown, hcredited, gated_of_justified rfl hp hjust, hplans, ?_⟩
      rw [hverified]
      exact isMatch_iff (Run.stage_measures hp).2.2.1
  · exact ⟨rfl, .inl ⟨rfl, rfl, rfl⟩⟩

/-! ## The source and the output -/

/-- Whatever comes of a recovery, the source reads as before. -/
theorem recover_read_source {r : Except RecoveryError RecoveryReport}
    (hsep : Separate host s sourcePath (outputPathFor sourcePath options))
    (hread : host.fs.read s sourcePath = .ok source)
    (h : recover host sourcePath result options s = .ok (s', r)) :
    host.fs.read s' sourcePath = .ok source := by
  rcases recover_cases h with ⟨rfl, -⟩ | ⟨-, -, st, -, hdiffer, -, hfinish, -⟩
  · exact hread
  · have hkept : host.fs.read (finish host (host.tools s) sourcePath
        (outputPathFor sourcePath options) options st s).1 sourcePath = .ok source :=
      finish_read_source hsep hread hdiffer
    rwa [← hfinish] at hkept

/-- What a recovery that returns a report has kept, and what follows from it. -/
theorem recover_kept {report : RecoveryReport}
    (h : recover host sourcePath result options s = .ok (s', .ok report)) :
    ∃ source st, host.fs.read s sourcePath = .ok source ∧
      pathsEqual host s sourcePath (outputPathFor sourcePath options) = false ∧
      finish host (host.tools s) sourcePath (outputPathFor sourcePath options) options st s =
        (s', .ok report) ∧ st.aggregate.manifestPath = none ∧
      (st.outcome.bytes = none ∧ st.aggregate.success = false ∧
          st.aggregate.strategiesApplied = [] ∨
        st.aggregate.success = true ∧ ∃ strategy out, st.outcome.bytes = some out ∧
          Kept (host.tools s) source (String.ofList (outputPathFor sourcePath options))
            options.toRecoveryOptions result st strategy out) := by
  rcases recover_cases h with ⟨-, e, hr⟩ | ⟨source, run, st, hread, hdiffer, hrun, hfinish, hst⟩
  · cases hr
  · exact ⟨source, st, hread, hdiffer, hfinish.symm, kept_of_passes hrun hst⟩

/-- A report of success stands for an output that the gate let pass, and that is there to be read
unless the run was a dry one; any other report stands for no file and no strategy. -/
theorem recover_gated {report : RecoveryReport}
    (hsep : Separate host s sourcePath (outputPathFor sourcePath options))
    (h : recover host sourcePath result options s = .ok (s', .ok report)) :
    ∃ source, host.fs.read s sourcePath = .ok source ∧
      (report.success = false ∧ report.strategiesApplied = [] ∧ s' = s ∨
        report.success = true ∧ ∃ strategy ∈ allStrategies (host.tools s), ∃ out,
          strategy.name ∈ report.strategiesApplied ∧
          Gated (host.tools s) source (String.ofList (outputPathFor sourcePath options))
            options.toRecoveryOptions result strategy out ∧
          (options.dryRun = true ∧ s' = s ∨ options.dryRun = false ∧
            host.fs.read s' (outputPathFor sourcePath options) = .ok out)) := by
  obtain ⟨source, st, hread, -, hfinish, -, hkept⟩ := recover_kept h
  obtain ⟨hsuccess, hclaims⟩ := finish_report (congrArg Prod.snd hfinish)
  refine ⟨source, hread, ?_⟩
  rw [hsuccess, hclaims]
  rcases hkept with ⟨hnone, hfailed, hnothing⟩ | ⟨hkept, strategy, out, hbytes, hall⟩
  · exact .inl ⟨hfailed, hnothing,
      (congrArg Prod.fst hfinish).symm.trans (finish_untouched (.inl hnone))⟩
  · refine .inr ⟨hkept, strategy, hall.known, out, hall.credited, hall.gated, ?_⟩
    cases hdry : options.dryRun with
    | true =>
        exact .inl ⟨rfl, (congrArg Prod.fst hfinish).symm.trans (finish_untouched (.inr hdry))⟩
    | false => exact .inr ⟨rfl, finish_read_output hsep hbytes hdry hfinish⟩

/-- An archive without findings is left alone. -/
theorem recover_of_clean {report : RecoveryReport} (hclean : result.corruptions = [])
    (hauto : options.forcedStrategy = none)
    (h : recover host sourcePath result options s = .ok (s', .ok report)) :
    s' = s ∧ report.success = false := by
  rcases recover_cases h with ⟨-, e, hr⟩ | ⟨source, run, st, -, -, hrun, hfinish, hst⟩
  · cases hr
  · have habstained := hst.resolve_left fun hruns ↦ by
      rw [hrun, (runPasses_of_no_finding hclean hauto _).2] at hruns
      cases hruns
    subst habstained
    have hstate : (finish host (host.tools s) sourcePath (outputPathFor sourcePath options) options
        (abstained (run.startReport (String.ofList (outputPathFor sourcePath options)))) s).1 = s :=
      finish_untouched (.inl rfl)
    rw [← hfinish] at hstate
    exact ⟨hstate, (finish_report (congrArg Prod.snd hfinish.symm)).1⟩

/-! ## The manifest -/

/-- A manifest that a report names was written last, about the output that was committed. -/
theorem finish_manifest {report : RecoveryReport} {file : FilePath}
    (hfresh : st.aggregate.manifestPath = none)
    (h : finish host tools sourcePath outputPath options st s = (s', .ok report))
    (hfile : report.manifestPath = some file) :
    ∃ out s₁, st.outcome.bytes = some out ∧ commit host out outputPath s = (s₁, .ok ()) ∧
      writeManifest host tools sourcePath outputPath out st options s₁ = (s', .ok file.toList) := by
  unfold finish at h
  split at h
  · obtain ⟨-, hr⟩ := Prod.mk.inj h
    obtain rfl := Except.ok.inj hr
    cases hfresh.symm.trans hfile
  · rename_i out hbytes
    split at h
    · obtain ⟨-, hr⟩ := Prod.mk.inj h
      obtain rfl := Except.ok.inj hr
      cases hfresh.symm.trans hfile
    · split at h
      · cases (Prod.mk.inj h).2
      · rename_i s₁ hcommit
        refine ⟨out, s₁, hbytes, hcommit, ?_⟩
        split at h
        · cases hwritten : writeManifest host tools sourcePath outputPath out st options s₁ with
          | mk s₂ written =>
              rw [hwritten] at h
              obtain ⟨rfl, hr⟩ := Prod.mk.inj h
              obtain rfl := Except.ok.inj hr
              cases written with
              | error e => cases hfresh.symm.trans hfile
              | ok path => rw [← Option.some.inj hfile, String.toList_ofList]
        · obtain ⟨-, hr⟩ := Prod.mk.inj h
          obtain rfl := Except.ok.inj hr
          cases hfresh.symm.trans hfile

theorem writeManifest_eq_ok {out : Bytes}
    (h : writeManifest host tools sourcePath outputPath out st options s = (s', .ok path)) :
    ∃ source, host.fs.read s sourcePath = .ok source ∧ path = sidecarOf outputPath ∧
      host.fs.write s path (host.notary.toJson
        (manifestOf host tools sourcePath outputPath source out st options)) = (s', .ok ()) := by
  unfold writeManifest at h
  split at h
  · cases (Prod.mk.inj h).2
  · rename_i source hread
    dsimp only at h
    split at h
    · cases (Prod.mk.inj h).2
    · rename_i hwrite
      obtain ⟨rfl, hpath⟩ := Prod.mk.inj h
      obtain rfl := Except.ok.inj hpath
      exact ⟨source, hread, rfl, hwrite⟩

/-- The manifest that a report names is there to be read and passes its own check.  It is about the
source and the output as they now stand, every repair in it answers a finding, and it calls
something verified only if the output has the hash that the analysis expects. -/
theorem recover_attests {report : RecoveryReport} {file : FilePath} (hsound : host.notary.Sound)
    (hsep : Separate host s sourcePath (outputPathFor sourcePath options))
    (h : recover host sourcePath result options s = .ok (s', .ok report))
    (hfile : report.manifestPath = some file) :
    ∃ source out manifest, host.fs.read s' sourcePath = .ok source ∧
      host.fs.read s' (outputPathFor sourcePath options) = .ok out ∧
      host.fs.read s' file.toList = .ok (host.notary.toJson manifest) ∧
      manifest.verify host.notary.signingBytes host.notary.verifyingKey host.notary.verifies =
        .ok true ∧
      manifest.body.sourceSha256 = Manifest.hex ((host.tools s).env.digest .sha256 source) ∧
      manifest.body.outputSha256 = Manifest.hex ((host.tools s).env.digest .sha256 out) ∧
      (∀ r ∈ manifest.body.repairs, ∃ c ∈ result.corruptions,
        r.ruleId = c.chain.primary.ruleId) ∧
      (manifest.body.ClaimsVerified →
        MatchesManifest (host.tools s) result options.toRecoveryOptions out) := by
  obtain ⟨source, st, hread, hdiffer, hfinish, hfresh, hkept⟩ := recover_kept h
  obtain ⟨out, s₁, hbytes, hcommit, hwritten⟩ := finish_manifest hfresh hfinish hfile
  obtain ⟨current, hcurrent, hpath, hwrite⟩ := writeManifest_eq_ok hwritten
  -- The source is read again after the commit, which has left it alone.
  have hsource : host.fs.read (commit host out (outputPathFor sourcePath options) s).1 sourcePath =
      .ok source := commit_read_source hsep hread hdiffer
  rw [hcommit, hcurrent] at hsource
  obtain rfl := Except.ok.inj hsource
  have hout := commit_read_output hsep hcommit
  obtain ⟨strategy, hall⟩ : ∃ strategy, Kept (host.tools s) current
      (String.ofList (outputPathFor sourcePath options)) options.toRecoveryOptions result st
      strategy out := by
    rcases hkept with ⟨hnone, -⟩ | ⟨-, strategy, out', hbytes', hall⟩
    · rw [hnone] at hbytes
      cases hbytes
    · obtain rfl := Option.some.inj (hbytes'.symm.trans hbytes)
      exact ⟨strategy, hall⟩
  have hleft : ∀ {path d},
      ¬ host.fs.SameFile s₁ (sidecarOf (outputPathFor sourcePath options)) path →
        host.fs.read s₁ path = .ok d → host.fs.read s' path = .ok d := by
    intro path d hapart hread
    have hkept := hsep.lawful.read_write (host.notary.toJson (manifestOf host (host.tools s)
      sourcePath (outputPathFor sourcePath options) current out st options)) hread hapart
    rwa [← hpath, hwrite] at hkept
  obtain ⟨hsource, houtput⟩ := hsep.manifest _ _ (write_of_commit hsep hcommit)
  refine ⟨current, out, _, hleft hsource hcurrent, hleft houtput hout,
    hsep.lawful.read_write_self hwrite, Manifest.verify_of_signed hsound rfl rfl, rfl, rfl,
    fun r hr ↦ ?_, fun hclaims ↦ hall.verified.mp (Manifest.verified_of_claims rfl rfl hclaims)⟩
  obtain ⟨p, hp, rfl⟩ := List.mem_map.mp hr
  rw [hall.plans] at hp
  obtain ⟨_, hc, rfl⟩ := List.mem_map.mp hp
  obtain ⟨c, hmem, rfl⟩ := List.mem_map.mp (List.mem_of_mem_filter hc)
  exact ⟨c, hmem, rfl⟩

theorem parent_overwrittenDisk :
    Paths.parent "out/a.7z.recovered".toList = some "out".toList := by decide

/-- The manifest goes where the third link leads. -/
theorem manifestApart_overwrittenDisk :
    ManifestApart diskHost overwrittenDisk "a.7z".toList "out/a.7z.recovered".toList := by
  intro out s' h
  obtain rfl := (Prod.mk.inj h).1
  have hmanifest : diskHost.fs.canonicalize (diskHost.fs.write overwrittenDisk
      "out/a.7z.recovered".toList out).1 (sidecarOf "out/a.7z.recovered".toList) =
        some "/manifests/latest.json".toList := rfl
  constructor
  · rintro ⟨c, hc, hsource⟩
    obtain rfl := Option.some.inj (hmanifest.symm.trans hc)
    exact absurd (show some "/archives/damaged.7z".toList = _ from hsource) (by decide)
  · rintro ⟨c, hc, houtput⟩
    obtain rfl := Option.some.inj (hmanifest.symm.trans hc)
    exact absurd (show some "/volume/a.7z.recovered".toList = _ from houtput) (by decide)

theorem recover_attests_overwrittenDisk : ∃ result s' report file,
    recover diskHost "a.7z".toList result (outOptions .sha256 "phx") overwrittenDisk =
      .ok (s', .ok report) ∧ report.manifestPath = some file ∧
      ∃ source out manifest, diskHost.fs.read s' "a.7z".toList = .ok source ∧
        diskHost.fs.read s' (outputPathFor "a.7z".toList (outOptions .sha256 "phx")) = .ok out ∧
        diskHost.fs.read s' file.toList = .ok (zeroNotary.toJson manifest) ∧
        manifest.verify zeroNotary.signingBytes zeroNotary.verifyingKey zeroNotary.verifies =
          .ok true ∧
        manifest.body.sourceSha256 = Manifest.hex (bareToolbox.env.digest .sha256 source) ∧
        manifest.body.outputSha256 = Manifest.hex (bareToolbox.env.digest .sha256 out) ∧
        (∀ r ∈ manifest.body.repairs, ∃ c ∈ result.corruptions,
          r.ruleId = c.chain.primary.ruleId) ∧
        (manifest.body.ClaimsVerified → MatchesManifest bareToolbox result {} out) := by
  obtain ⟨result, -, hall⟩ := recover_overwrittenDisk "phx"
  obtain ⟨s', report, hrecover, -, hfile⟩ := hall .sha256
  have hsep : Separate diskHost overwrittenDisk "a.7z".toList
      (outputPathFor "a.7z".toList (outOptions .sha256 "phx")) := by
    rw [outputPathFor_overwrittenDisk]
    refine ⟨diskHost_lawful, fun dir hparent _ ↦ ?_, manifestApart_overwrittenDisk⟩
    obtain rfl := Option.some.inj (hparent.symm.trans parent_overwrittenDisk)
    rfl
  exact ⟨result, s', report, _, hrecover, hfile,
    recover_attests zeroNotary_sound hsep hrecover hfile⟩

end VeraqisRecover.Recovery
