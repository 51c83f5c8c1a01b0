import VeraqisRecover.Support.RunLength
import VeraqisRecover.Zip.OffsetMonotone

/-!
# What supports an interior segment

The segments are the runs of equal delta among the observations that count, with
the lengths of the runs for their support.  One observation that has moved unlike
both its neighbours is a segment of its own, anywhere in the list.
-/

namespace VeraqisRecover.Zip

open FirstOfKey RunLength

namespace OffsetMap

/-- The observations that count, in stored order: of those that come first for their stored
offset, the ones that lie physically behind every one stored before them. -/
def counted (obs : List OffsetObservation) : List OffsetObservation :=
  (select OffsetObservation.stored obs).filter fun o ↦
    ∀ x ∈ select OffsetObservation.stored obs, x.stored < o.stored → x.physical < o.physical

/-- How far each of them has moved. -/
def deltas (obs : List OffsetObservation) : List ℤ := (counted obs).map deltaOf

/-- One of them has moved unlike the one before it and the one behind it. -/
def HasStray (obs : List OffsetObservation) : Prop :=
  ∃ x y z, [x, y, z] <:+: deltas obs ∧ x ≠ y ∧ y ≠ z

variable {obs : List OffsetObservation} {cap : ℕ}

theorem counted_eq_kept (obs : List OffsetObservation) : counted obs = kept obs := by
  refine eq_of_mem_iff ((select_pairwise obs).filter _) (kept_pairwise obs) fun o ↦ ?_
  rw [counted, List.mem_filter, decide_eq_true_eq]
  exact mem_kept_iff.symm

/-! ## Segments are runs -/

/-- The shift of a segment and how often it was observed. -/
def figures (s : OffsetSegment) : ℤ × ℕ := (s.delta, s.support)

theorem extendSegments_concat (segs : List OffsetSegment) (s : OffsetSegment)
    (o : OffsetObservation) :
    extendSegments (segs ++ [s]) o =
      if s.delta = deltaOf o then
        segs ++ [{ s with originalEnd := o.stored, support := s.support + 1 }]
      else segs ++ [s] ++ [⟨o.stored, o.stored, deltaOf o, 1⟩] := by
  simp only [extendSegments, List.getLast?_concat, List.dropLast_concat]

theorem figures_foldl (l : List OffsetObservation) (segs : List OffsetSegment)
    (s : OffsetSegment) :
    (l.foldl extendSegments (segs ++ [s])).map figures =
      segs.map figures ++ runsFrom s.delta s.support (l.map deltaOf) := by
  induction l generalizing segs s with
  | nil => simp [runsFrom, figures]
  | cons o l ih =>
      rw [List.foldl_cons, extendSegments_concat, List.map_cons, runsFrom]
      by_cases hd : s.delta = deltaOf o
      · rw [if_pos hd, if_pos hd, ih]
      · rw [if_neg hd, if_neg hd, ih]
        simp [figures]

/-- The segments are the runs of the deltas. -/
theorem figures_runs (obs : List OffsetObservation) :
    (runs obs).map figures = encode (deltas obs) := by
  rw [runs, deltas, counted_eq_kept]
  cases kept obs with
  | nil => rfl
  | cons o l =>
      have hfirst : extendSegments [] o = [] ++ [⟨o.stored, o.stored, deltaOf o, 1⟩] := rfl
      rw [List.foldl_cons, hfirst, figures_foldl, List.map_nil, List.nil_append, List.map_cons,
        encode]

theorem length_runs (obs : List OffsetObservation) :
    (runs obs).length = ((deltas obs).destutter (· ≠ ·)).length := by
  rw [← length_encode, ← figures_runs, List.length_map]

theorem figures_widen (segs : List OffsetSegment) :
    (widen segs).map figures = segs.map figures := by
  cases segs with
  | nil => rfl
  | cons a rest =>
      cases rest using List.reverseRecOn with
      | nil => rfl
      | append_singleton mid z => simp [widen_cons_concat, figures]

/-! ## Support -/

/-- An interior segment of one observation is a stray. -/
theorem exists_unsupported_iff :
    (∃ s ∈ (widen (runs obs)).tail.dropLast, s.support < 2) ↔ HasStray obs := by
  have hfigures : ((widen (runs obs)).tail.dropLast).map figures =
      (encode (deltas obs)).tail.dropLast := by
    rw [List.map_dropLast, List.map_tail, figures_widen, figures_runs]
  rw [HasStray, ← exists_short_iff, ← hfigures]
  simp only [List.mem_map, exists_exists_and_eq_and, figures]

/-- The interior segments of a usable map are supported twice, unless the map is within its cap
and one of the observations that count has moved unlike both its neighbours. -/
theorem interior_supported_iff (obs : List OffsetObservation) (cap : ℕ) :
    ((infer obs cap).isUsable = true →
      ∀ s ∈ (infer obs cap).segments.tail.dropLast, 2 ≤ s.support) ↔
      cap < ((deltas obs).destutter (· ≠ ·)).length ∨ ¬ HasStray obs := by
  rw [← length_runs, ← exists_unsupported_iff]
  push Not
  constructor
  · intro h
    by_cases hcap : cap < (runs obs).length
    · exact Or.inl hcap
    · refine Or.inr fun s hs ↦ ?_
      have hruns : runs obs ≠ [] := by
        intro hnil
        rw [hnil] at hs
        cases hs
      have hne : obs ≠ [] := by
        rintro rfl
        exact hruns rfl
      have hpos := List.length_pos_iff.mpr hruns
      have hzero : cap ≠ 0 := by omega
      have hu := infer_isUsable hne hzero (Nat.le_of_not_lt hcap)
      obtain ⟨-, -, hsegs, -⟩ := infer_usable hu
      exact h hu s (hsegs ▸ hs)
  · intro h hu s hs
    obtain ⟨-, hcap, hsegs, -⟩ := infer_usable hu
    rw [hsegs] at hs
    rcases h with hover | hsupported
    · exact absurd hcap (Nat.not_le.mpr hover)
    · exact hsupported s hs

/-- One observation that has moved by a byte, between two that have not moved. -/
theorem stray_is_segment :
    (infer [⟨0, 0⟩, ⟨10, 11⟩, ⟨20, 20⟩] 4).isUsable = true ∧
      ¬ ∀ s ∈ (infer [⟨0, 0⟩, ⟨10, 11⟩, ⟨20, 20⟩] 4).segments.tail.dropLast, 2 ≤ s.support := by
  refine ⟨by decide, ?_⟩
  decide

end OffsetMap

end VeraqisRecover.Zip
