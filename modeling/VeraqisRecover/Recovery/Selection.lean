import VeraqisRecover.Recovery.RollbackGate

/-!
# Which kept output a run returns

The outcome is overwritten on every kept pass, so a run returns its latest
kept output.  Without `aggressive` the loop stops at the first verified or
improving pass and the latest is the best; with it, a later and lower-ranked
pass displaces an earlier one.
-/

namespace VeraqisRecover.Recovery

/-- `q` ranks above `p`: byte-verified where `p` is not, or of a higher known health for equal
verification. -/
def Pass.Beats (q p : Pass) : Prop :=
  q.verified = true ∧ p.verified = false ∨
    q.verified = p.verified ∧ ∃ h h', p.after = some h ∧ q.after = some h' ∧ h < h'

namespace Run

/-- Among the first three selected strategies, the last one that stages a justified output is not
ranked below an earlier one that does. -/
def LatestUnbeaten (run : Run) : Prop :=
  ∀ selected pre s post p, run.select = .ok selected →
    selected.take maxPasses = pre ++ s :: post → run.stage s = .ok p → run.Justified p →
      (∀ t ∈ post, ∀ q, run.stage t = .ok q → ¬ run.Justified q) →
        ∀ t ∈ pre, ∀ q, run.stage t = .ok q → run.Justified q → ¬ q.Beats p

variable {run : Run}

/-- Passes with the same staged bytes rank the same. -/
theorem beats_congr {s t : RecoveryStrategy} {p p' q : Pass} (h : run.stage s = .ok p)
    (h' : run.stage t = .ok p') (hstaged : p.staged = p'.staged) : q.Beats p ↔ q.Beats p' := by
  obtain ⟨-, -, hv, ha⟩ := stage_measures h
  obtain ⟨-, -, hv', ha'⟩ := stage_measures h'
  rw [hstaged, hv', Except.ok.injEq] at hv
  rw [hstaged, ← ha'] at ha
  unfold Pass.Beats Pass.verified
  rw [ha, hv]

/-- A kept pass the loop goes on from is unverified and steady. -/
theorem steady_of_not_stops {p : Pass} (hagg : run.options.aggressive = false)
    (hk : run.keeps p = true) (hs : run.stops p = false) :
    p.verified = false ∧ p.after = some run.baseHealth := by
  have hno : p.verified = false ∧ run.improved p = false := by
    simpa [stops, hk, hagg] using hs
  refine ⟨hno.1, ?_⟩
  rcases ((run.keeps_iff_justified p).mp hk).gain with hv | himp | ⟨ha, -⟩
  · simp [hno.1] at hv
  · rw [← improved_iff, hno.2] at himp
    simp at himp
  · exact ha

/-- Without `aggressive`, no kept pass of a run beats the last one. -/
theorem not_beats_of_not_aggressive (hagg : run.options.aggressive = false) (init : List Pass)
    {p q : Pass} (hinit : ∀ r ∈ init, run.stops r = false) (hk : run.keeps p = true)
    (hq : q ∈ init) (hqk : run.keeps q = true) : ¬ q.Beats p := by
  obtain ⟨hv, ha⟩ := steady_of_not_stops hagg hqk (hinit q hq)
  rintro (⟨hv', -⟩ | ⟨-, h, h', hp, hq', hlt⟩)
  · simp [hv] at hv'
  · have hle := ((run.keeps_iff_justified p).mp hk).no_regression h hp
    rw [ha, Option.some.injEq] at hq'
    omega

theorem not_beats_self (p : Pass) : ¬ p.Beats p := by
  rintro (⟨h, h'⟩ | ⟨-, h, h', hp, hp', hlt⟩)
  · simp [h] at h'
  · rw [hp, Option.some.injEq] at hp'
    omega

theorem exists_split_of_mem_getLast? {ps : List Pass} {p : Pass}
    (h : (ps.filter run.keeps).getLast? = some p) :
    run.keeps p = true ∧ ∃ before after, ps = before ++ p :: after ∧
      (∀ q ∈ after, run.keeps q = false) := by
  induction ps using List.reverseRecOn with
  | nil => simp at h
  | append_singleton ps q ih =>
      rw [List.filter_append] at h
      cases hq : run.keeps q with
      | true =>
          obtain rfl : q = p := by simpa [hq] using h
          exact ⟨hq, ps, [], rfl, by simp⟩
      | false =>
          obtain ⟨hk, before, after, rfl, hafter⟩ := ih (by simpa [hq] using h)
          refine ⟨hk, before, after ++ [q], by simp, fun r hr ↦ ?_⟩
          rcases List.mem_append.mp hr with hr | hr
          · exact hafter r hr
          · exact List.mem_singleton.mp hr ▸ hq

theorem getLast?_of_split (before : List Pass) {after : List Pass} {p : Pass}
    (hk : run.keeps p = true) (hafter : ∀ q ∈ after, run.keeps q = false) :
    ((before ++ p :: after).filter run.keeps).getLast? = some p := by
  have hnil : after.filter run.keeps = [] := List.filter_eq_nil_iff.mpr (by simpa using hafter)
  simp [List.filter_append, hk, hnil]

/-- With `aggressive`, every one of the first three strategies is applied. -/
theorem passList_of_aggressive (hagg : run.options.aggressive = true) {ps : List Pass}
    (h : run.passList = .ok ps) :
    ∃ selected, run.select = .ok selected ∧ selected.take maxPasses = ps.map (·.strategy) := by
  obtain ⟨-, -, selected, rest, hsel, htake, hrest | ⟨p, -, hp⟩⟩ := passList_spec h
  · exact ⟨selected, hsel, by rw [htake, hrest, List.append_nil]⟩
  · simp [stops, hagg] at hp

/-- In an aggressive run, no kept pass beats the last one exactly when the latest justified
staging is unbeaten. -/
theorem latestUnbeaten_iff (hagg : run.options.aggressive = true) {ps : List Pass} {p : Pass}
    (h : run.passList = .ok ps) (hlast : (ps.filter run.keeps).getLast? = some p) :
    (∀ q ∈ ps.filter run.keeps, ¬ q.Beats p) ↔ run.LatestUnbeaten := by
  obtain ⟨selected, hsel, htake⟩ := passList_of_aggressive hagg h
  have hall := (passList_spec h).1
  constructor
  · intro hbest selected' pre s post p' hsel' hsplit hs hjust hpost t ht q hq hqjust
    obtain rfl : selected = selected' := Except.ok.inj (hsel.symm.trans hsel')
    rw [htake, List.map_eq_append_iff] at hsplit
    obtain ⟨ps₁, ps₂, rfl, rfl, hps₂⟩ := hsplit
    obtain ⟨r, ps₃, rfl, rfl, rfl⟩ := List.map_eq_cons_iff.mp hps₂
    obtain rfl : r = p' := Except.ok.inj ((hall r (by simp)).symm.trans hs)
    have hlast' := getLast?_of_split ps₁ ((run.keeps_iff_justified r).mpr hjust)
      fun q' hq' ↦ by
        have := hpost _ (List.mem_map_of_mem hq') q' (hall q' (by simp [hq']))
        rwa [← keeps_iff_justified, Bool.not_eq_true] at this
    obtain rfl : r = p := Option.some.inj (hlast'.symm.trans hlast)
    obtain ⟨q', hq', rfl⟩ := List.mem_map.mp ht
    obtain rfl : q' = q := Except.ok.inj ((hall q' (by simp [hq'])).symm.trans hq)
    exact hbest q' (List.mem_filter.mpr ⟨by simp [hq'], (run.keeps_iff_justified q').mpr hqjust⟩)
  · intro hun q hq
    obtain ⟨hk, before, after, rfl, hafter⟩ := exists_split_of_mem_getLast? hlast
    obtain ⟨hmem, hqk⟩ := List.mem_filter.mp hq
    rcases List.mem_append.mp hmem with hmem | hmem
    · refine hun selected (before.map (·.strategy)) p.strategy (after.map (·.strategy)) p hsel
        (by simp [htake]) (hall p (by simp)) ((run.keeps_iff_justified p).mp hk) ?_ q.strategy
        (List.mem_map_of_mem hmem) q (hall q (by simp [hmem]))
        ((run.keeps_iff_justified q).mp hqk)
      intro t ht r hr hjust
      obtain ⟨r', hr', rfl⟩ := List.mem_map.mp ht
      obtain rfl : r' = r := Except.ok.inj ((hall r' (by simp [hr'])).symm.trans hr)
      exact absurd ((run.keeps_iff_justified r').mpr hjust) (by simp [hafter r' hr'])
    · rcases List.mem_cons.mp hmem with rfl | hmem
      · exact not_beats_self q
      · exact absurd hqk (by simp [hafter q hmem])

/-- The bytes a run returns are a best kept output exactly when the run is not aggressive or the
latest justified staging is unbeaten. -/
theorem returned_best_iff {aggregate : RecoveryReport} {st : PassState} {b : Bytes}
    (h : run.runPasses aggregate = .ok st) (hb : st.outcome.bytes = some b) :
    (∃ p ∈ run.kept, p.staged = b ∧ ∀ q ∈ run.kept, ¬ q.Beats p) ↔
      run.options.aggressive = false ∨ run.LatestUnbeaten := by
  obtain ⟨ps, hps, rfl⟩ := run.runPasses_ok h
  obtain ⟨hall, hinit, -⟩ := passList_spec hps
  rw [foldl_settle_bytes, Option.map_eq_some_iff] at hb
  obtain ⟨p, hlast, rfl⟩ := hb
  rw [kept_eq hps]
  have hp := List.mem_of_getLast? hlast
  have hbest : (∃ p' ∈ ps.filter run.keeps, p'.staged = p.staged ∧
      ∀ q ∈ ps.filter run.keeps, ¬ q.Beats p') ↔ ∀ q ∈ ps.filter run.keeps, ¬ q.Beats p := by
    constructor
    · rintro ⟨p', hp', hstaged, hbest⟩ q hq
      rw [beats_congr (hall p (List.mem_of_mem_filter hp)) (hall p' (List.mem_of_mem_filter hp'))
        hstaged.symm]
      exact hbest q hq
    · exact fun hbest ↦ ⟨p, hp, rfl, hbest⟩
  rw [hbest]
  cases hagg : run.options.aggressive with
  | true => simpa using latestUnbeaten_iff hagg hps hlast
  | false =>
      simp only [true_or, iff_true]
      obtain ⟨hk, before, after, rfl, hafter⟩ := exists_split_of_mem_getLast? hlast
      intro q hq
      obtain ⟨hmem, hqk⟩ := List.mem_filter.mp hq
      rcases List.mem_append.mp hmem with hmem | hmem
      · refine not_beats_of_not_aggressive hagg before ?_ hk hmem hqk
        intro r hr
        refine hinit r ?_
        rw [List.dropLast_append_of_ne_nil (by simp)]
        exact List.mem_append_left _ hr
      · rcases List.mem_cons.mp hmem with rfl | hmem
        · exact not_beats_self q
        · exact absurd hqk (by simp [hafter q hmem])

theorem returned_best_iff_steady :
    (∃ p ∈ (twoRepairsRun false).kept, p.staged = [1, 2] ∧
      ∀ q ∈ (twoRepairsRun false).kept, ¬ q.Beats p) ↔
      (twoRepairsRun false).options.aggressive = false ∨ (twoRepairsRun false).LatestUnbeaten :=
  have hrun : ∃ st, (twoRepairsRun false).runPasses
      ((twoRepairsRun false).startReport "out") = .ok st ∧ st.outcome.bytes = some [1, 2] :=
    ⟨_, rfl, rfl⟩
  returned_best_iff hrun.choose_spec.1 hrun.choose_spec.2

/-- Run aggressively, the second repair displaces the healthier first one. -/
theorem returned_not_best_twoRepairs : ∃ st,
    (twoRepairsRun true).runPasses ((twoRepairsRun true).startReport "out") = .ok st ∧
      st.outcome.bytes = some [3] ∧
      ¬ ∃ p ∈ (twoRepairsRun true).kept, p.staged = [3] ∧
        ∀ q ∈ (twoRepairsRun true).kept, ¬ q.Beats p := by
  refine ⟨_, rfl, rfl, ?_⟩
  rintro ⟨p, hp, hstaged, hbest⟩
  have hsecond : p.verified = false ∧ p.after = some 75 := by
    rcases List.mem_cons.mp hp with rfl | hp
    · exact absurd hstaged (by decide)
    · obtain rfl := List.mem_singleton.mp hp
      exact ⟨rfl, rfl⟩
  refine hbest _ (List.mem_cons_self ..) (.inr ⟨?_, 75, 90, hsecond.2, rfl, by decide⟩)
  rw [hsecond.1]
  rfl

end Run

end VeraqisRecover.Recovery
