import VeraqisRecover.Recovery.Model

/-!
# The recovery engine

Strategy selection and the bounded, rollback-guarded repair passes
(`engine.rs`, `strategies/mod.rs`).  A pass applies one strategy to the
source, verifies what it staged and re-analyses it; the loop keeps the pass or
rolls it back.
-/

namespace VeraqisRecover.Recovery

/-- A repair technique as the engine sees it. -/
structure RecoveryStrategy where
  name : String
  technique : String
  risk : RepairRisk
  priority : ℕ
  handles : Corruption → Bool := fun _ ↦ false
  canApply : AnalysisResult → Bool
  predictedOutcome : Corruption → String := fun c ↦ s!"apply {technique} to {c.ruleId}"
  /-- Staged output and report for a source. -/
  apply : Bytes → Except RecoveryError (Bytes × RecoveryReport)

namespace RecoveryStrategy

/-- One plan per corruption the strategy handles. -/
def plan (s : RecoveryStrategy) (result : AnalysisResult) : List RepairPlan :=
  (result.corruptions.filter s.handles).map fun c ↦
    ⟨c.ruleId, s.technique, c.byteRange, s.predictedOutcome c, s.risk⟩

/-- Every report the strategy returns lists the strategy itself as applied, and nothing else. -/
def ReportsItself (s : RecoveryStrategy) : Prop :=
  ∀ source staged report, s.apply source = .ok (staged, report) →
    report.strategiesApplied = [s.name] ∧ report.rolledBack = []

end RecoveryStrategy

/-- The strategy registry, the hash functions and the analysis engine that recovery calls. -/
structure RecoveryEngine where
  allStrategies : List RecoveryStrategy
  names_nodup : (allStrategies.map (·.name)).Nodup
  reportsItself : ∀ s ∈ allStrategies, s.ReportsItself
  hashSource : HashType → Bytes → Except RecoveryError String
  analyzeHealth : FilePath → Bytes → Option ℕ

namespace RecoveryEngine

def strategyByName (engine : RecoveryEngine) (name : String) : Option RecoveryStrategy :=
  engine.allStrategies.find? (·.name = name)

end RecoveryEngine

structure RecoveryOptions where
  forcedStrategy : Option String := none
  aggressive : Bool := false
  hashType : HashType := .sha256
  deriving DecidableEq, Repr

/-- Maximum number of repair passes per recovery. -/
def maxPasses : ℕ := 3

/-- The kept output of a recovery run, not yet committed. -/
structure PassOutcome where
  bytes : Option Bytes := none
  keptPlans : List RepairPlan := []
  outputVerified : Bool := false
  deriving DecidableEq, Repr

/-- What one recovery is about: the engine, the source, its analysis and the caller's options. -/
structure Run where
  engine : RecoveryEngine
  source : Bytes
  analysis : AnalysisResult
  options : RecoveryOptions
  label : FilePath

/-- One applied strategy: what it staged and reported, and what was measured on the staging. -/
structure Pass where
  strategy : RecoveryStrategy
  staged : Bytes
  applied : RecoveryReport
  integ : IntegrityResult
  after : Option ℕ

def Pass.verified (p : Pass) : Bool := p.integ.isMatch

/-- Strategies whose output is worth committing even without verification. -/
def terminalStrategies : List String :=
  ["partial-extract", "forensic-carve", "zip-rebuild", "gz-member-salvage",
    "tar-continuation-salvage"]

def reportIsTerminal (s : RecoveryStrategy) : Bool := s.name ∈ terminalStrategies

/-- The outcome under construction and the report it is folded into. -/
structure PassState where
  outcome : PassOutcome := {}
  aggregate : RecoveryReport
  deriving DecidableEq, Repr

namespace Run

def baseHealth (run : Run) : ℕ := run.analysis.overallHealth

/-- Choose strategies: the forced one, or all applicable by falling priority; without detected
defects there is nothing to repair. -/
def select (run : Run) : Except RecoveryError (List RecoveryStrategy) :=
  match run.options.forcedStrategy with
  | some name =>
      match run.engine.strategyByName name with
      | some s => .ok [s]
      | none => .error (.strategy name "unknown strategy name")
  | none =>
      if run.analysis.corruptions = [] then .error .noApplicableStrategy
      else
        let applicable := (run.engine.allStrategies.filter (·.canApply run.analysis)).insertionSort
          fun a b ↦ b.priority ≤ a.priority
        if applicable = [] then .error .noApplicableStrategy else .ok applicable

/-- Verify staged bytes against the source's reference hash, if any. -/
def verify (run : Run) (staged : Bytes) : Except RecoveryError IntegrityResult := do
  let actual ← run.engine.hashSource run.options.hashType staged
  let result := IntegrityResult.withoutManifest run.options.hashType actual
  match run.analysis.integrityResult.expectedHash with
  | some expected => .ok { result with
      manifestPresent := run.analysis.integrityResult.manifestPresent
      isMatch := expected = result.actualHash
      expectedHash := some expected }
  | none => .ok result

def reanalyzeHealth (run : Run) (staged : Bytes) : Option ℕ :=
  run.engine.analyzeHealth run.label staged

/-- Apply a strategy and measure what it staged. -/
def stage (run : Run) (s : RecoveryStrategy) : Except RecoveryError Pass := do
  let (staged, applied) ← s.apply run.source
  let integ ← run.verify staged
  .ok ⟨s, staged, applied, integ, run.reanalyzeHealth staged⟩

def regressed (run : Run) (p : Pass) : Bool := p.after.any (· < run.baseHealth)

def improved (run : Run) (p : Pass) : Bool := p.after.any (run.baseHealth < ·)

def held (run : Run) (p : Pass) : Bool := p.after.any (· = run.baseHealth)

/-- The rollback gate; an inferred repair is held to the strict bar. -/
def keeps (run : Run) (p : Pass) : Bool :=
  p.staged ≠ [] && !run.regressed p &&
    if p.strategy.risk = .inferred then p.verified
    else p.verified || run.improved p || run.held p && reportIsTerminal p.strategy

/-- Why a pass was rolled back. -/
def rollbackReason (run : Run) (p : Pass) : String :=
  if p.staged = [] then "staged no output (nothing salvageable)"
  else if p.strategy.risk = .inferred then
    "inferred repair not byte-verified (a fitted verifier cannot justify keeping)"
  else
    let after := (p.after.map toString).getD "?"
    s!"health {run.baseHealth} -> {after} (no improvement)"

def rollBack (run : Run) (st : PassState) (p : Pass) : PassState :=
  { st with
    aggregate := { st.aggregate with
      rolledBack := st.aggregate.rolledBack ++ [p.strategy.name]
      warnings := st.aggregate.warnings ++
        [s!"rolled back {p.strategy.name}: {run.rollbackReason p}"] } }

/-- A kept pass's report, as it is merged. -/
def report (run : Run) (p : Pass) : RecoveryReport :=
  { p.applied with
    outputPath := run.label
    healthBefore := some run.baseHealth
    postRecoveryIntegrity := some p.integ
    healthAfter := p.after
    success := p.verified || run.improved p || reportIsTerminal p.strategy }

def keep (run : Run) (st : PassState) (p : Pass) : PassState where
  outcome := ⟨some p.staged, p.strategy.plan run.analysis, p.verified⟩
  aggregate := st.aggregate.merge (run.report p)

def settle (run : Run) (st : PassState) (p : Pass) : PassState :=
  if run.keeps p then run.keep st p else run.rollBack st p

/-- Stop at a verified or health-improving result, unless asked to try everything. -/
def stops (run : Run) (p : Pass) : Bool :=
  run.keeps p && (p.verified || run.improved p) && !run.options.aggressive

def passes (run : Run) (st : PassState) : List RecoveryStrategy → Except RecoveryError PassState
  | [] => .ok st
  | s :: rest => do
      let p ← run.stage s
      if run.stops p then .ok (run.settle st p) else run.passes (run.settle st p) rest

/-- Run the bounded repair passes, folding their reports into `aggregate`. -/
def runPasses (run : Run) (aggregate : RecoveryReport) : Except RecoveryError PassState := do
  let selected ← run.select
  run.passes { aggregate } (selected.take maxPasses)

/-- The aggregate a recovery starts from. -/
def startReport (run : Run) (outputPath : FilePath) : RecoveryReport :=
  { RecoveryReport.empty outputPath with healthBefore := some run.baseHealth }

end Run

end VeraqisRecover.Recovery
