import VeraqisRecover.Recovery.Engine

/-!
# Runs of the repair passes

The loop is a fold: it makes a list of passes, cut after the first one it stops
at, and settles them one by one.  Every fact about a run is a fact about that
list, and `keeps` is the only decision taken along it.
-/

namespace VeraqisRecover.Recovery

/-- The staged output is non-empty, does not regress health, is byte-verified where the strict
bar applies, and is otherwise verified, better, or a steady terminal salvage. -/
structure Run.Justified (run : Run) (p : Pass) : Prop where
  staged : p.staged ≠ []
  no_regression : ∀ h, p.after = some h → run.baseHealth ≤ h
  strict : p.strategy.risk = .inferred ∨ p.after = none → p.verified = true
  gain : p.verified = true ∨ (∃ h, p.after = some h ∧ run.baseHealth < h) ∨
    p.after = some run.baseHealth ∧ p.strategy.name ∈ terminalStrategies

namespace Run

variable (run : Run)

theorem regressed_iff (p : Pass) :
    run.regressed p = true ↔ ∃ h, p.after = some h ∧ h < run.baseHealth := by
  simp [regressed, Option.any_eq_true]

theorem improved_iff (p : Pass) :
    run.improved p = true ↔ ∃ h, p.after = some h ∧ run.baseHealth < h := by
  simp [improved, Option.any_eq_true]

theorem held_iff (p : Pass) : run.held p = true ↔ p.after = some run.baseHealth := by
  simp [held, Option.any_eq_true]

/-- The rollback gate keeps exactly the justified passes. -/
theorem keeps_iff_justified (p : Pass) : run.keeps p = true ↔ run.Justified p := by
  have hreg : run.regressed p = false ↔ ∀ h, p.after = some h → run.baseHealth ≤ h := by
    rw [← Bool.not_eq_true, regressed_iff]
    push Not
    rfl
  have hunfold : run.keeps p = true ↔ p.staged ≠ [] ∧ run.regressed p = false ∧
      (p.strategy.risk = .inferred ∧ p.verified = true ∨ p.strategy.risk ≠ .inferred ∧
        (p.verified = true ∨ run.improved p = true ∨
          run.held p = true ∧ reportIsTerminal p.strategy = true)) := by
    by_cases hr : p.strategy.risk = .inferred <;>
      simp [keeps, hr, and_assoc, or_assoc]
  rw [hunfold, hreg, improved_iff, held_iff, reportIsTerminal, decide_eq_true_iff]
  constructor
  · rintro ⟨hs, hh, ⟨-, hv⟩ | ⟨hr, hv | ⟨h, ha, hlt⟩ | ⟨ha, ht⟩⟩⟩
    · exact ⟨hs, hh, fun _ ↦ hv, .inl hv⟩
    · exact ⟨hs, hh, fun _ ↦ hv, .inl hv⟩
    · exact ⟨hs, hh, by simp [hr, ha], .inr (.inl ⟨h, ha, hlt⟩)⟩
    · exact ⟨hs, hh, by simp [hr, ha], .inr (.inr ⟨ha, ht⟩)⟩
  · rintro ⟨hs, hh, hstrict, hgain⟩
    refine ⟨hs, hh, ?_⟩
    by_cases hr : p.strategy.risk = .inferred
    · exact .inl ⟨hr, hstrict (.inl hr)⟩
    · exact .inr ⟨hr, hgain⟩

/-! ## The passes of a run -/

/-- The passes made over a list of strategies, up to and including the one the loop stops at. -/
def made : List RecoveryStrategy → Except RecoveryError (List Pass)
  | [] => .ok []
  | s :: rest => do
      let p ← run.stage s
      if run.stops p then .ok [p] else (p :: ·) <$> made rest

/-- The passes of a run. -/
def passList : Except RecoveryError (List Pass) := do
  let selected ← run.select
  run.made (selected.take maxPasses)

/-- The passes of a run whose output was kept, in order. -/
def kept : List Pass := (run.passList.toOption.getD []).filter run.keeps

theorem passes_eq (l : List RecoveryStrategy) (st : PassState) :
    run.passes st l = (run.made l).map (·.foldl run.settle st) := by
  induction l generalizing st with
  | nil => rfl
  | cons s rest ih =>
      rw [passes, made]
      cases run.stage s with
      | error e => rfl
      | ok p =>
          simp only [Except.bind, bind]
          split
          · rfl
          · rw [ih]
            cases run.made rest <;> rfl

/-- The loop settles the passes of the run in order. -/
theorem runPasses_eq (aggregate : RecoveryReport) :
    run.runPasses aggregate = run.passList.map (·.foldl run.settle { aggregate }) := by
  unfold runPasses passList
  cases run.select with
  | error e => rfl
  | ok selected => exact run.passes_eq (selected.take maxPasses) { aggregate }

theorem runPasses_ok {aggregate : RecoveryReport} {st : PassState}
    (h : run.runPasses aggregate = .ok st) :
    ∃ ps, run.passList = .ok ps ∧ st = ps.foldl run.settle { aggregate } := by
  rw [runPasses_eq] at h
  cases hps : run.passList with
  | error e => simp [hps, Except.map] at h
  | ok ps =>
      rw [hps] at h
      exact ⟨ps, rfl, (Except.ok.inj h).symm⟩

variable {run}

theorem kept_eq {ps : List Pass} (h : run.passList = .ok ps) : run.kept = ps.filter run.keeps := by
  simp [kept, h, Except.toOption]

/-- What was measured on a staged output depends on the staged bytes alone. -/
theorem stage_measures {s : RecoveryStrategy} {p : Pass} (h : run.stage s = .ok p) :
    p.strategy = s ∧ s.apply run.source = .ok (p.staged, p.applied) ∧
      run.verify p.staged = .ok p.integ ∧ p.after = run.reanalyzeHealth p.staged := by
  unfold stage at h
  cases ha : s.apply run.source with
  | error e => simp [ha, bind, Except.bind] at h
  | ok sr =>
      cases hv : run.verify sr.1 with
      | error e => simp [ha, hv, bind, Except.bind] at h
      | ok integ =>
          simp only [ha, hv, bind, Except.bind, Except.ok.injEq] at h
          subst h
          exact ⟨rfl, rfl, hv, rfl⟩

/-- The passes made are those of an initial segment of the strategies; the loop stopped at no
pass but possibly the last, and did so if it left strategies unused. -/
theorem made_spec {l : List RecoveryStrategy} {ps : List Pass} (h : run.made l = .ok ps) :
    (∀ p ∈ ps, run.stage p.strategy = .ok p) ∧ (∀ q ∈ ps.dropLast, run.stops q = false) ∧
      ∃ rest, l = ps.map (·.strategy) ++ rest ∧ (rest = [] ∨ ∃ p ∈ ps, run.stops p = true) := by
  induction l generalizing ps with
  | nil =>
      obtain rfl : [] = ps := Except.ok.inj h
      exact ⟨by simp, by simp, [], rfl, .inl rfl⟩
  | cons s l ih =>
      rw [made] at h
      cases hs : run.stage s with
      | error e => simp [hs, bind, Except.bind] at h
      | ok p =>
          obtain rfl := (stage_measures hs).1
          simp only [hs, bind, Except.bind] at h
          split at h
          · rename_i hstop
            obtain rfl : [p] = ps := Except.ok.inj h
            exact ⟨by simpa using hs, by simp, l, rfl, .inr ⟨p, by simp, hstop⟩⟩
          · rename_i hstop
            cases hm : run.made l with
            | error e => simp [hm, Except.map, Functor.map] at h
            | ok qs =>
                simp only [hm, Except.map, Functor.map, Except.ok.injEq] at h
                subst h
                obtain ⟨hall, hinit, rest, rfl, hrest⟩ := ih hm
                refine ⟨?_, ?_, rest, rfl, ?_⟩
                · simpa using ⟨hs, hall⟩
                · intro q hq
                  cases qs with
                  | nil => simp at hq
                  | cons q' qs' =>
                      rw [List.dropLast_cons_of_ne_nil (by simp)] at hq
                      rcases List.mem_cons.mp hq with rfl | hq
                      · exact Bool.eq_false_iff.mpr hstop
                      · exact hinit q hq
                · rcases hrest with h | ⟨r, hr, hst⟩
                  · exact .inl h
                  · exact .inr ⟨r, List.mem_cons_of_mem p hr, hst⟩

/-- The passes of a run apply the first strategies selected, at most three of them. -/
theorem passList_spec {ps : List Pass} (h : run.passList = .ok ps) :
    (∀ p ∈ ps, run.stage p.strategy = .ok p) ∧ (∀ q ∈ ps.dropLast, run.stops q = false) ∧
      ∃ selected rest, run.select = .ok selected ∧
        selected.take maxPasses = ps.map (·.strategy) ++ rest ∧
        (rest = [] ∨ ∃ p ∈ ps, run.stops p = true) := by
  unfold passList at h
  cases hsel : run.select with
  | error e => simp [hsel, bind, Except.bind] at h
  | ok selected =>
      simp only [hsel, bind, Except.bind] at h
      obtain ⟨hall, hinit, rest, htake, hrest⟩ := made_spec h
      exact ⟨hall, hinit, selected, rest, rfl, htake, hrest⟩

end Run

/-! ## A concrete engine -/

/-- A strategy that stages the same bytes for every source. -/
def stagingStrategy (name technique : String) (priority : ℕ) (staged : Bytes) :
    RecoveryStrategy where
  name
  technique
  risk := .safe
  priority
  canApply := fun _ ↦ true
  apply := fun _ ↦ .ok (staged, { RecoveryReport.empty "" with
    strategiesApplied := [name], bytesRecovered := staged.length, success := true })

theorem stagingStrategy_reportsItself (name technique : String) (priority : ℕ) (staged : Bytes) :
    (stagingStrategy name technique priority staged).ReportsItself := by
  intro source out report h
  obtain ⟨-, rfl⟩ := Prod.mk.inj (Except.ok.inj h)
  exact ⟨rfl, rfl⟩

/-- Two repairs: the first stages two bytes of health 90, the second one byte of health 75. -/
def twoRepairs : RecoveryEngine where
  allStrategies := [stagingStrategy "zip-rebuild" "CentralDirRebuild" 80 [1, 2],
    stagingStrategy "zip-crc-fix" "CrcAnnotate" 75 [3]]
  names_nodup := by decide
  reportsItself := by
    intro s hs
    simp only [List.mem_cons, List.not_mem_nil, or_false] at hs
    rcases hs with rfl | rfl <;> exact stagingStrategy_reportsItself _ _ _ _
  hashSource := fun _ staged ↦ .ok (if staged = [1, 2] then "c0ffee" else "decade")
  analyzeHealth := fun _ staged ↦ some (if staged = [1, 2] then 90 else 75)

/-- Both repairs on a structurally damaged ZIP of health 50. -/
def twoRepairsRun (aggressive : Bool) : Run where
  engine := twoRepairs
  source := [0]
  analysis := ⟨some .zip, .withoutManifest .sha256 "f00d",
    [⟨.structuralCorruption, .major, none, "ZIP_EOCD_001"⟩], 50⟩
  options := { aggressive }
  label := "in.zip"

end VeraqisRecover.Recovery
