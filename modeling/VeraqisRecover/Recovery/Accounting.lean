import VeraqisRecover.Recovery.RollbackGate

/-!
# What the aggregate says about the returned bytes

`merge` folds each field by a rule of its own: the byte count is a maximum,
the loss is the last value, health the last known value, and the integrity
result is not folded at all.
-/

namespace VeraqisRecover.Recovery

namespace Run

variable (run : Run)

theorem foldl_settle_bytesRecovered (ps : List Pass) (st : PassState) :
    (ps.foldl run.settle st).aggregate.bytesRecovered =
      (ps.filter run.keeps).foldl (fun n p ↦ max n p.applied.bytesRecovered)
        st.aggregate.bytesRecovered :=
  run.foldl_settle_figure (fun _ _ ↦ rfl) (fun _ _ ↦ rfl) ps st

theorem foldl_settle_bytesLost (ps : List Pass) (st : PassState) :
    (ps.foldl run.settle st).aggregate.bytesLost =
      ((ps.filter run.keeps).getLast?.map (·.applied.bytesLost)).getD st.aggregate.bytesLost := by
  induction ps using List.reverseRecOn with
  | nil => rfl
  | append_singleton ps p ih =>
      rw [List.foldl_append, List.foldl_cons, List.foldl_nil, settle_aggregate,
        List.filter_append]
      cases hk : run.keeps p with
      | true => simp [hk, RecoveryReport.merge, report]
      | false => simp [hk, rollBack, ih]

theorem foldl_settle_healthAfter (ps : List Pass) (st : PassState) :
    (ps.foldl run.settle st).aggregate.healthAfter =
      (ps.filter run.keeps).foldl (fun h p ↦ p.after.or h) st.aggregate.healthAfter :=
  run.foldl_settle_figure (fun _ _ ↦ rfl) (fun _ _ ↦ rfl) ps st

/-- No pass, kept or not, touches the aggregate's integrity result. -/
theorem foldl_settle_postRecoveryIntegrity (ps : List Pass) (st : PassState) :
    (ps.foldl run.settle st).aggregate.postRecoveryIntegrity =
      st.aggregate.postRecoveryIntegrity :=
  calc (ps.foldl run.settle st).aggregate.postRecoveryIntegrity
      = (ps.filter run.keeps).foldl (fun r _ ↦ r) st.aggregate.postRecoveryIntegrity :=
        run.foldl_settle_figure (fun _ _ ↦ rfl) (fun _ _ ↦ rfl) ps st
    _ = st.aggregate.postRecoveryIntegrity := List.foldl_fixed' (fun _ ↦ rfl) _

variable {run}

/-- Of the four figures, the loss always is the returned pass's; the byte count is one only an
earlier pass can exceed, and health is known whenever the returned pass's is. -/
theorem returned_figures {outputPath : FilePath} {st : PassState} {b : Bytes}
    (h : run.runPasses (run.startReport outputPath) = .ok st) (hb : st.outcome.bytes = some b) :
    ∃ p, run.kept.getLast? = some p ∧ p.staged = b ∧
      st.aggregate.bytesLost = (run.report p).bytesLost ∧
      st.aggregate.bytesRecovered =
        run.kept.foldl (fun n q ↦ max n q.applied.bytesRecovered) 0 ∧
      (∀ v, (run.report p).healthAfter = some v → st.aggregate.healthAfter = some v) := by
  obtain ⟨ps, hps, rfl⟩ := run.runPasses_ok h
  rw [foldl_settle_bytes, Option.map_eq_some_iff] at hb
  obtain ⟨p, hlast, rfl⟩ := hb
  rw [kept_eq hps]
  refine ⟨p, hlast, rfl, ?_, run.foldl_settle_bytesRecovered ps _, fun v hv ↦ ?_⟩
  · rw [foldl_settle_bytesLost, hlast]
    rfl
  · rw [foldl_settle_healthAfter]
    obtain ⟨init, hinit⟩ := List.getLast?_eq_some_iff.mp hlast
    rw [hinit, List.foldl_append, List.foldl_cons, List.foldl_nil, show p.after = some v from hv]
    rfl

/-- In no run that keeps output do all four figures describe the returned bytes: the integrity
result is measured for every pass and reported for none. -/
theorem aggregate_never_describes_returned {outputPath : FilePath} {st : PassState} {b : Bytes}
    (h : run.runPasses (run.startReport outputPath) = .ok st) (hb : st.outcome.bytes = some b) :
    ¬ ∃ p ∈ run.kept, p.staged = b ∧
      st.aggregate.bytesRecovered = (run.report p).bytesRecovered ∧
      st.aggregate.bytesLost = (run.report p).bytesLost ∧
      st.aggregate.healthAfter = (run.report p).healthAfter ∧
      st.aggregate.postRecoveryIntegrity = (run.report p).postRecoveryIntegrity := by
  rintro ⟨p, -, -, -, -, -, hinteg⟩
  obtain ⟨ps, -, rfl⟩ := run.runPasses_ok h
  rw [foldl_settle_postRecoveryIntegrity] at hinteg
  exact Option.some_ne_none p.integ hinteg.symm

theorem aggregate_never_describes_returned_steady : ∃ st,
    (twoRepairsRun false).runPasses ((twoRepairsRun false).startReport "out") = .ok st ∧
      ¬ ∃ p ∈ (twoRepairsRun false).kept, p.staged = [1, 2] ∧
        st.aggregate.bytesRecovered = ((twoRepairsRun false).report p).bytesRecovered ∧
        st.aggregate.bytesLost = ((twoRepairsRun false).report p).bytesLost ∧
        st.aggregate.healthAfter = ((twoRepairsRun false).report p).healthAfter ∧
        st.aggregate.postRecoveryIntegrity =
          ((twoRepairsRun false).report p).postRecoveryIntegrity :=
  ⟨_, rfl, aggregate_never_describes_returned rfl rfl⟩

/-- After both repairs the one returned byte is reported as two, without an integrity result. -/
theorem aggregate_not_describes_twoRepairs : ∃ st,
    (twoRepairsRun true).runPasses ((twoRepairsRun true).startReport "out") = .ok st ∧
      st.outcome.bytes = some [3] ∧ st.aggregate.bytesRecovered = 2 ∧
      ¬ ∃ p ∈ (twoRepairsRun true).kept, p.staged = [3] ∧
        st.aggregate.bytesRecovered = ((twoRepairsRun true).report p).bytesRecovered ∧
        st.aggregate.bytesLost = ((twoRepairsRun true).report p).bytesLost ∧
        st.aggregate.healthAfter = ((twoRepairsRun true).report p).healthAfter ∧
        st.aggregate.postRecoveryIntegrity =
          ((twoRepairsRun true).report p).postRecoveryIntegrity := by
  refine ⟨_, rfl, rfl, rfl, ?_⟩
  rintro ⟨p, -, -, -, -, -, hinteg⟩
  exact Option.some_ne_none p.integ hinteg.symm

end Run

end VeraqisRecover.Recovery
