import VeraqisRecover.Recovery.Passes

/-!
# The rollback gate over whole runs

A kept pass is merged into the aggregate and replaces the outcome; a pass that
is rolled back leaves a name and a warning.  Folding this over the passes of a
run tells where every strategy's name ends up and what a run without kept
passes leaves alone.
-/

namespace VeraqisRecover.Recovery

namespace Run

variable (run : Run)

theorem settle_of_keeps {st : PassState} {p : Pass} (h : run.keeps p = true) :
    run.settle st p = run.keep st p := if_pos h

theorem settle_of_not_keeps {st : PassState} {p : Pass} (h : run.keeps p = false) :
    run.settle st p = run.rollBack st p := if_neg (by simp [h])

/-- The outcome is the last kept pass's. -/
theorem foldl_settle_outcome (ps : List Pass) (st : PassState) :
    (ps.foldl run.settle st).outcome = match (ps.filter run.keeps).getLast? with
      | some p => ⟨some p.staged, p.strategy.plan run.analysis, p.verified⟩
      | none => st.outcome := by
  induction ps using List.reverseRecOn with
  | nil => rfl
  | append_singleton ps p ih =>
      rw [List.foldl_append, List.foldl_cons, List.foldl_nil, List.filter_append]
      cases hk : run.keeps p with
      | true => simp [run.settle_of_keeps hk, keep, hk]
      | false => simp [run.settle_of_not_keeps hk, rollBack, hk, ih]

theorem foldl_settle_bytes (ps : List Pass) (aggregate : RecoveryReport) :
    (ps.foldl run.settle { aggregate }).outcome.bytes =
      (ps.filter run.keeps).getLast?.map (·.staged) := by
  rw [foldl_settle_outcome]
  cases (ps.filter run.keeps).getLast? <;> rfl

/-- The aggregate merges the kept passes' reports; rolled-back passes only leave their names and
warnings. -/
theorem settle_aggregate (st : PassState) (p : Pass) :
    (run.settle st p).aggregate =
      if run.keeps p then st.aggregate.merge (run.report p)
      else (run.rollBack st p).aggregate := by
  unfold settle
  split <;> rfl

/-- A figure that a rollback leaves alone is that of the kept passes, merged one by one. -/
theorem foldl_settle_figure {β : Type*} {figure : RecoveryReport → β} {merge : β → Pass → β}
    (hkeep : ∀ r p, figure (r.merge (run.report p)) = merge (figure r) p)
    (hroll : ∀ st p, figure (run.rollBack st p).aggregate = figure st.aggregate)
    (ps : List Pass) (st : PassState) :
    figure (ps.foldl run.settle st).aggregate =
      (ps.filter run.keeps).foldl merge (figure st.aggregate) := by
  induction ps generalizing st with
  | nil => rfl
  | cons p ps ih =>
      rw [List.foldl_cons, ih, settle_aggregate]
      cases hk : run.keeps p with
      | true => rw [if_pos rfl, hkeep, List.filter_cons_of_pos hk, List.foldl_cons]
      | false => rw [if_neg Bool.false_ne_true, hroll, List.filter_cons_of_neg (by simp [hk])]

theorem foldl_settle_strategiesApplied (ps : List Pass) (st : PassState) :
    (ps.foldl run.settle st).aggregate.strategiesApplied = st.aggregate.strategiesApplied ++
      (ps.filter run.keeps).flatMap (·.applied.strategiesApplied) := by
  rw [List.flatMap_def, ← List.foldl_append_eq_append]
  exact run.foldl_settle_figure (fun _ _ ↦ rfl) (fun _ _ ↦ rfl) ps st

theorem foldl_settle_rolledBack (ps : List Pass) (st : PassState) :
    (ps.foldl run.settle st).aggregate.rolledBack = st.aggregate.rolledBack ++
      ps.flatMap fun p ↦ if run.keeps p then p.applied.rolledBack else [p.strategy.name] := by
  induction ps generalizing st with
  | nil => simp
  | cons p ps ih =>
      rw [List.foldl_cons, ih, settle_aggregate]
      cases hk : run.keeps p with
      | true => simp [hk, RecoveryReport.merge, report]
      | false => simp [hk, rollBack]

/-- Rolling passes back leaves everything but names and warnings alone. -/
theorem foldl_settle_of_none_kept {ps : List Pass} (h : ps.filter run.keeps = [])
    (st : PassState) :
    (ps.foldl run.settle st).outcome = st.outcome ∧
      ∃ rolledBack warnings, (ps.foldl run.settle st).aggregate =
        { st.aggregate with rolledBack, warnings } := by
  induction ps generalizing st with
  | nil => exact ⟨rfl, _, _, rfl⟩
  | cons p ps ih =>
      have hp : run.keeps p = false := by
        by_contra hk
        simp [hk] at h
      rw [List.filter_cons_of_neg (by simp [hp])] at h
      obtain ⟨hout, rolledBack, warnings, hagg⟩ := ih h (run.settle st p)
      rw [List.foldl_cons, hout, hagg, run.settle_of_not_keeps hp]
      exact ⟨rfl, rolledBack, warnings, rfl⟩

/-! ## Names -/

variable {run}

theorem flatMap_rolledBack {ps : List Pass} (h : ∀ p ∈ ps, p.applied.rolledBack = []) :
    (ps.flatMap fun p ↦ if run.keeps p then p.applied.rolledBack else [p.strategy.name]) =
      (ps.filter (!run.keeps ·)).map (·.strategy.name) := by
  induction ps with
  | nil => rfl
  | cons p ps ih =>
      rw [List.flatMap_cons, ih fun q hq ↦ h q (List.mem_cons_of_mem p hq)]
      cases hk : run.keeps p with
      | true => simp [hk, h p List.mem_cons_self]
      | false => simp [hk]

theorem select_sublist_names {selected : List RecoveryStrategy} (h : run.select = .ok selected) :
    (selected.map (·.name)).Nodup ∧ ∀ s ∈ selected, s ∈ run.engine.allStrategies := by
  unfold select at h
  cases hf : run.options.forcedStrategy with
  | some name =>
      cases hs : run.engine.strategyByName name with
      | none => simp [hf, hs] at h
      | some s =>
          simp only [hf, hs, Except.ok.injEq] at h
          subst h
          have hmem := List.mem_of_find?_eq_some hs
          simpa using hmem
  | none =>
      simp only [hf] at h
      split at h
      · simp at h
      · split at h
        · simp at h
        · obtain rfl := Except.ok.inj h
          have hperm := List.perm_insertionSort (fun a b : RecoveryStrategy ↦
            b.priority ≤ a.priority) (run.engine.allStrategies.filter (·.canApply run.analysis))
          refine ⟨(hperm.map _).nodup_iff.mpr ?_, fun s hs ↦ ?_⟩
          · exact run.engine.names_nodup.sublist (List.filter_sublist.map _)
          · exact List.mem_of_mem_filter (hperm.mem_iff.mp hs)

/-- The passes of a run: at most three, of distinct strategies, each reporting itself. -/
theorem passList_names {ps : List Pass} (h : run.passList = .ok ps) :
    ps.length ≤ maxPasses ∧ (ps.map (·.strategy.name)).Nodup ∧
      ∀ p ∈ ps, run.stage p.strategy = .ok p ∧ p.applied.strategiesApplied = [p.strategy.name] ∧
        p.applied.rolledBack = [] := by
  obtain ⟨hall, -, selected, rest, hsel, htake, -⟩ := passList_spec h
  obtain ⟨hnd, hmem⟩ := select_sublist_names hsel
  have hsub : (ps.map (·.strategy)).Sublist selected :=
    (htake ▸ List.sublist_append_left _ rest).trans (List.take_sublist _ _)
  refine ⟨?_, ?_, fun p hp ↦ ?_⟩
  · have hlen := congrArg List.length htake
    simp only [List.length_take, List.length_append, List.length_map] at hlen
    omega
  · have := hnd.sublist (hsub.map (·.name))
    rwa [List.map_map] at this
  · have happly := (stage_measures (hall p hp)).2.1
    have hreg := hmem _ (hsub.subset (List.mem_map_of_mem hp))
    exact ⟨hall p hp, run.engine.reportsItself _ hreg _ _ _ happly⟩

/-- The rollback gate: what is kept is justified, at most three strategies are applied, each ends
under exactly one heading, and a run that keeps nothing has nothing to show. -/
theorem runPasses_gate {outputPath : FilePath} {st : PassState}
    (h : run.runPasses (run.startReport outputPath) = .ok st) :
    ∃ ps, run.passList = .ok ps ∧ ps.length ≤ maxPasses ∧
      (∀ p ∈ ps, run.stage p.strategy = .ok p) ∧
      (∀ p ∈ run.kept, p ∈ ps ∧ run.Justified p) ∧
      (∀ b, st.outcome.bytes = some b → ∃ p ∈ run.kept, p.staged = b) ∧
      (∀ p ∈ ps, (p.strategy.name ∈ st.aggregate.strategiesApplied ↔ p ∈ run.kept) ∧
        (p.strategy.name ∈ st.aggregate.rolledBack ↔ p ∉ run.kept)) ∧
      (∀ n, n ∈ st.aggregate.strategiesApplied ∨ n ∈ st.aggregate.rolledBack →
        ∃ p ∈ ps, p.strategy.name = n) ∧
      (run.kept = [] → st.outcome.bytes = none ∧
        st.aggregate.success = (run.startReport outputPath).success ∧
        st.aggregate.filesRecovered = (run.startReport outputPath).filesRecovered ∧
        st.aggregate.bytesRecovered = (run.startReport outputPath).bytesRecovered ∧
        st.aggregate.bytesLost = (run.startReport outputPath).bytesLost) := by
  obtain ⟨ps, hps, rfl⟩ := run.runPasses_ok h
  obtain ⟨hlen, hnodup, hpass⟩ := passList_names hps
  have hkept := kept_eq hps
  have happ : (ps.foldl run.settle { aggregate := run.startReport outputPath }
      ).aggregate.strategiesApplied = run.kept.map (·.strategy.name) := by
    rw [foldl_settle_strategiesApplied, ← hkept, List.map_eq_flatMap]
    exact List.flatMap_congr fun p hp ↦ (hpass p (List.mem_of_mem_filter (hkept ▸ hp))).2.1
  have hroll : (ps.foldl run.settle { aggregate := run.startReport outputPath }
      ).aggregate.rolledBack = (ps.filter (!run.keeps ·)).map (·.strategy.name) := by
    rw [foldl_settle_rolledBack, show (run.startReport outputPath).rolledBack = [] from rfl,
      List.nil_append]
    exact flatMap_rolledBack fun p hp ↦ (hpass p hp).2.2
  have hinj : ∀ p ∈ ps, ∀ q ∈ ps, p.strategy.name = q.strategy.name → p = q := by
    intro p hp q hq hpq
    exact List.inj_on_of_nodup_map hnodup hp hq hpq
  refine ⟨ps, hps, hlen, fun p hp ↦ (hpass p hp).1, ?_, ?_, ?_, ?_, ?_⟩
  · intro p hp
    rw [hkept, List.mem_filter] at hp
    exact ⟨hp.1, (run.keeps_iff_justified p).mp hp.2⟩
  · intro b hb
    rw [foldl_settle_bytes, ← hkept, Option.map_eq_some_iff] at hb
    obtain ⟨p, hp, rfl⟩ := hb
    exact ⟨p, List.mem_of_getLast? hp, rfl⟩
  · intro p hp
    rw [happ, hroll, hkept]
    simp only [List.mem_map, List.mem_filter]
    constructor
    · constructor
      · rintro ⟨q, ⟨hq, hk⟩, hname⟩
        exact hinj q hq p hp hname ▸ ⟨hq, hk⟩
      · exact fun hk ↦ ⟨p, hk, rfl⟩
    · constructor
      · rintro ⟨q, ⟨hq, hk⟩, hname⟩
        obtain rfl := hinj q hq p hp hname
        simpa [hq] using hk
      · exact fun hk ↦ ⟨p, ⟨hp, by simpa [hp] using hk⟩, rfl⟩
  · intro n hn
    rw [happ, hroll, hkept] at hn
    rcases hn with hn | hn
    all_goals
      obtain ⟨p, hp, rfl⟩ := List.mem_map.mp hn
      exact ⟨p, List.mem_of_mem_filter hp, rfl⟩
  · intro hnone
    obtain ⟨hout, _, _, hagg⟩ := run.foldl_settle_of_none_kept (hkept ▸ hnone)
      { aggregate := run.startReport outputPath }
    rw [hout, hagg]
    exact ⟨rfl, rfl, rfl, rfl, rfl⟩

theorem runPasses_gate_twoRepairs : ∃ st ps,
    (twoRepairsRun true).runPasses ((twoRepairsRun true).startReport "out") = .ok st ∧
      (twoRepairsRun true).passList = .ok ps ∧ ps.length ≤ maxPasses :=
  have hrun : ∃ st, (twoRepairsRun true).runPasses
      ((twoRepairsRun true).startReport "out") = .ok st := ⟨_, rfl⟩
  have ⟨ps, hps, hlen, _⟩ := runPasses_gate hrun.choose_spec
  ⟨hrun.choose, ps, hrun.choose_spec, hps, hlen⟩

end Run

end VeraqisRecover.Recovery
