import VeraqisRecover.Support.FirstOfKey
import VeraqisRecover.Zip.SingleDelta

/-!
# Kept observations and their runs

The observations that survive deduplication and the monotonicity filter are
those that come physically after every earlier one.  The segments are their runs
of equal delta, stretched at both ends of the list.
-/

namespace VeraqisRecover.Zip

open FirstOfKey

namespace OffsetMap

/-- One observation for each stored offset. -/
def representatives (obs : List OffsetObservation) : List OffsetObservation :=
  select OffsetObservation.stored obs

/-- The observations the inference keeps. -/
def kept (obs : List OffsetObservation) : List OffsetObservation :=
  ((representatives obs).foldl keepMonotone ([], 0)).1

/-- The observations the monotonicity filter drops. -/
def dropped (obs : List OffsetObservation) : List OffsetObservation :=
  (representatives obs).filter (· ∉ kept obs)

/-- The runs of equal delta among the kept observations. -/
def runs (obs : List OffsetObservation) : List OffsetSegment := (kept obs).foldl extendSegments []

/-- The first segment reaches down to offset zero and the last one up to the largest. -/
def widen (segments : List OffsetSegment) : List OffsetSegment :=
  (segments.modifyHead fun s ↦ { s with originalStart := 0 }).modifyLast
    fun s ↦ { s with originalEnd := offsetMax }

/-! ## The monotonicity filter -/

/-- What the filter has kept and counted after `l`. -/
structure Filtered (l : List OffsetObservation) (acc : List OffsetObservation × ℕ) : Prop where
  sublist : acc.1.Sublist l
  counted : acc.1.length + acc.2 = l.length
  mem_iff : ∀ o, o ∈ acc.1 ↔ o ∈ l ∧ ∀ x ∈ l, x.stored < o.stored → x.physical < o.physical
  nil : acc.1 = [] → l = []
  top : ∀ prev, acc.1.getLast? = some prev → ∀ x ∈ l, x.physical ≤ prev.physical

theorem Filtered.step {l : List OffsetObservation} {acc : List OffsetObservation × ℕ}
    (h : Filtered l acc) {o : OffsetObservation} (ho : ∀ x ∈ l, x.stored < o.stored) :
    Filtered (l ++ [o]) (keepMonotone acc o) := by
  have hold : ∀ y, y ∈ acc.1 ↔ y ∈ l ∧ ∀ x ∈ l ++ [o], x.stored < y.stored →
      x.physical < y.physical := by
    intro y
    rw [h.mem_iff]
    refine and_congr_right fun hy ↦ ⟨fun hall x hx ↦ ?_, fun hall x hx ↦ hall x (by simp [hx])⟩
    rcases List.mem_append.mp hx with hx | hx
    · exact hall x hx
    · rw [List.mem_singleton.mp hx]
      intro hlt
      exact absurd (ho y hy) hlt.asymm
  have hkeep : (∀ x ∈ l, x.physical < o.physical) →
      Filtered (l ++ [o]) (acc.1 ++ [o], acc.2) := by
    intro hlt
    refine ⟨h.sublist.append (List.Sublist.refl _), ?_, fun y ↦ ?_, by simp, fun prev hprev ↦ ?_⟩
    · have hc := h.counted
      simp only [List.length_append, List.length_singleton]
      omega
    · rw [List.mem_append, List.mem_append, hold, List.mem_singleton]
      constructor
      · rintro (⟨hy, hall⟩ | rfl)
        · exact ⟨.inl hy, hall⟩
        · refine ⟨.inr rfl, fun x hx hxo ↦ ?_⟩
          rcases List.mem_append.mp hx with hx | hx
          · exact hlt x hx
          · rw [List.mem_singleton.mp hx] at hxo
            exact absurd hxo (lt_irrefl _)
      · rintro ⟨hy | hy, hall⟩
        · exact .inl ⟨hy, hall⟩
        · exact .inr hy
    · rw [List.getLast?_append_cons, List.getLast?_singleton, Option.some.injEq] at hprev
      subst hprev
      intro x hx
      rcases List.mem_append.mp hx with hx | hx
      · exact (hlt x hx).le
      · rw [List.mem_singleton.mp hx]
  unfold keepMonotone
  cases hlast : acc.1.getLast? with
  | none =>
      have hl := h.nil (List.getLast?_eq_none_iff.mp hlast)
      exact hkeep (by simp [hl])
  | some prev =>
      have hmem := List.mem_of_getLast? hlast
      by_cases hle : o.physical ≤ prev.physical
      · simp only [if_pos hle]
        refine ⟨h.sublist.trans (List.sublist_append_left _ _), ?_, fun y ↦ ?_, ?_, ?_⟩
        · have hc := h.counted
          simp only [List.length_append, List.length_singleton]
          omega
        · rw [hold, List.mem_append, List.mem_singleton]
          constructor
          · rintro ⟨hy, hall⟩
            exact ⟨.inl hy, hall⟩
          · rintro ⟨hy | rfl, hall⟩
            · exact ⟨hy, hall⟩
            · have hprev := h.sublist.subset hmem
              have hlt := hall prev (by simp [hprev]) (ho prev hprev)
              omega
        · intro hnil
          rw [show acc.1 = [] from hnil] at hmem
          exact absurd hmem List.not_mem_nil
        · intro p hp x hx
          obtain rfl : prev = p := Option.some.inj (hlast.symm.trans hp)
          rcases List.mem_append.mp hx with hx | hx
          · exact h.top prev hlast x hx
          · rw [List.mem_singleton.mp hx]
            exact hle
      · simp only [if_neg hle]
        refine hkeep fun x hx ↦ ?_
        have hx' := h.top prev hlast x hx
        omega

theorem filtered_foldl {l : List OffsetObservation} (h : l.Pairwise (·.stored < ·.stored)) :
    Filtered l (l.foldl keepMonotone ([], 0)) := by
  induction l using List.reverseRecOn with
  | nil => exact ⟨List.Sublist.refl _, rfl, by simp, fun _ ↦ rfl, by simp⟩
  | append_singleton l o ih =>
      obtain ⟨hl, -, hlt⟩ := List.pairwise_append.mp h
      rw [List.foldl_append, List.foldl_cons, List.foldl_nil]
      exact (ih hl).step fun x hx ↦ hlt x hx o (List.mem_singleton.mpr rfl)

theorem representatives_filtered (obs : List OffsetObservation) :
    Filtered (representatives obs) ((representatives obs).foldl keepMonotone ([], 0)) :=
  filtered_foldl (select_pairwise obs)

variable {obs : List OffsetObservation} {o : OffsetObservation}

theorem mem_kept_iff : o ∈ kept obs ↔ o ∈ representatives obs ∧
    ∀ x ∈ representatives obs, x.stored < o.stored → x.physical < o.physical :=
  (representatives_filtered obs).mem_iff o

theorem kept_subset (h : o ∈ kept obs) : o ∈ obs :=
  mem_of_mem_select (mem_kept_iff.mp h).1

theorem kept_pairwise (obs : List OffsetObservation) : (kept obs).Pairwise (·.stored < ·.stored) :=
  (select_pairwise obs).sublist (representatives_filtered obs).sublist

/-- Kept observations come in one order, stored and physical. -/
theorem kept_lt {a b : OffsetObservation} (ha : a ∈ kept obs) (hb : b ∈ kept obs)
    (h : a.stored < b.stored) : a.physical < b.physical :=
  (mem_kept_iff.mp hb).2 a (mem_kept_iff.mp ha).1 h

theorem kept_eq_nil_iff : kept obs = [] ↔ obs = [] := by
  constructor
  · intro h
    have hrep := (representatives_filtered obs).nil h
    cases obs with
    | nil => rfl
    | cons o obs =>
        obtain ⟨y, hy, -⟩ := exists_mem_select OffsetObservation.stored
          (List.mem_cons_self (a := o) (l := obs))
        have hy' : y ∈ representatives (o :: obs) := hy
        simp [hrep] at hy'
  · rintro rfl
    rfl

/-! ## Runs -/

/-- Segments that are the runs of equal delta of `k`. -/
structure RunsOf (k : List OffsetObservation) (segs : List OffsetSegment) : Prop where
  nil : segs = [] → k = []
  ordered : segs.Pairwise (·.originalEnd < ·.originalStart)
  traced : ∀ s ∈ segs, ∃ lo ∈ k, ∃ hi ∈ k, lo.stored = s.originalStart ∧
    hi.stored = s.originalEnd ∧ lo.stored ≤ hi.stored ∧ deltaOf lo = s.delta ∧ deltaOf hi = s.delta
  covers : ∀ o ∈ k, ∃ s ∈ segs, s.originalStart ≤ o.stored ∧ o.stored ≤ s.originalEnd ∧
    s.delta = deltaOf o

theorem RunsOf.open {k : List OffsetObservation} {segs : List OffsetSegment} (h : RunsOf k segs)
    (ho : ∀ x ∈ k, x.stored < o.stored) :
    RunsOf (k ++ [o]) (segs ++ [⟨o.stored, o.stored, deltaOf o, 1⟩]) := by
  refine ⟨by simp, List.pairwise_append.mpr ⟨h.ordered, List.pairwise_singleton _ _, ?_⟩, ?_, ?_⟩
  · intro s hs t ht
    obtain ⟨-, -, hi, hhi, -, hend, -⟩ := h.traced s hs
    rw [List.mem_singleton.mp ht, ← hend]
    exact ho hi hhi
  · intro s hs
    rcases List.mem_append.mp hs with hs | hs
    · obtain ⟨lo, hlo, hi, hhi, hrest⟩ := h.traced s hs
      exact ⟨lo, by simp [hlo], hi, by simp [hhi], hrest⟩
    · rw [List.mem_singleton.mp hs]
      refine ⟨o, by simp, o, by simp, ?_⟩
      simp only [le_refl, and_self]
  · intro x hx
    rcases List.mem_append.mp hx with hx | hx
    · obtain ⟨s, hs, hrest⟩ := h.covers x hx
      exact ⟨s, by simp [hs], hrest⟩
    · rw [List.mem_singleton.mp hx]
      refine ⟨_, List.mem_append_right _ (List.mem_singleton.mpr rfl), ?_⟩
      simp only [le_refl, and_self]

theorem RunsOf.extend {k : List OffsetObservation} {segs : List OffsetSegment}
    {seg : OffsetSegment} (h : RunsOf k (segs ++ [seg])) (ho : ∀ x ∈ k, x.stored < o.stored)
    (hd : seg.delta = deltaOf o) :
    RunsOf (k ++ [o])
      (segs ++ [{ seg with originalEnd := o.stored, support := seg.support + 1 }]) := by
  obtain ⟨hsegs, -, hbefore⟩ := List.pairwise_append.mp h.ordered
  obtain ⟨lo, hlo, -, -, hstart, -, -, hdlo, -⟩ := h.traced seg (by simp)
  refine ⟨by simp, List.pairwise_append.mpr ⟨hsegs, List.pairwise_singleton _ _, ?_⟩, ?_, ?_⟩
  · intro s hs t ht
    rw [List.mem_singleton.mp ht]
    exact hbefore s hs seg (List.mem_singleton.mpr rfl)
  · intro s hs
    rcases List.mem_append.mp hs with hs | hs
    · obtain ⟨lo, hlo, hi, hhi, hrest⟩ := h.traced s (by simp [hs])
      exact ⟨lo, by simp [hlo], hi, by simp [hhi], hrest⟩
    · rw [List.mem_singleton.mp hs]
      exact ⟨lo, by simp [hlo], o, by simp, hstart, rfl, (ho lo hlo).le, hdlo, hd.symm⟩
  · intro x hx
    rcases List.mem_append.mp hx with hx | hx
    · obtain ⟨s, hs, hstart', hend', hdelta⟩ := h.covers x hx
      rcases List.mem_append.mp hs with hs | hs
      · exact ⟨s, by simp [hs], hstart', hend', hdelta⟩
      · obtain rfl := List.mem_singleton.mp hs
        exact ⟨_, List.mem_append_right _ (List.mem_singleton.mpr rfl), hstart', (ho x hx).le,
          hdelta⟩
    · rw [List.mem_singleton.mp hx]
      exact ⟨_, List.mem_append_right _ (List.mem_singleton.mpr rfl), hstart ▸ (ho lo hlo).le,
        le_rfl, hd⟩

theorem runsOf_foldl {k : List OffsetObservation} (h : k.Pairwise (·.stored < ·.stored)) :
    RunsOf k (k.foldl extendSegments []) := by
  induction k using List.reverseRecOn with
  | nil => exact ⟨fun _ ↦ rfl, List.Pairwise.nil, by simp, by simp⟩
  | append_singleton k o ih =>
      obtain ⟨hk, -, hlt⟩ := List.pairwise_append.mp h
      have hruns := ih hk
      have ho : ∀ x ∈ k, x.stored < o.stored := fun x hx ↦ hlt x hx o (List.mem_singleton.mpr rfl)
      rw [List.foldl_append, List.foldl_cons, List.foldl_nil]
      generalize k.foldl extendSegments [] = segs at hruns
      unfold extendSegments
      cases hlast : segs.getLast? with
      | none =>
          rw [List.getLast?_eq_none_iff.mp hlast] at hruns
          exact hruns.open ho
      | some seg =>
          obtain ⟨init, rfl⟩ := List.getLast?_eq_some_iff.mp hlast
          by_cases hd : seg.delta = deltaOf o
          · simp only [if_pos hd, List.dropLast_concat]
            exact hruns.extend ho hd
          · simp only [if_neg hd]
            exact hruns.open ho

theorem runsOf_kept (obs : List OffsetObservation) : RunsOf (kept obs) (runs obs) :=
  runsOf_foldl (kept_pairwise obs)

/-! ## The inferred map -/

theorem length_dropped (obs : List OffsetObservation) :
    ((representatives obs).foldl keepMonotone ([], 0)).2 = (dropped obs).length := by
  have hf := representatives_filtered obs
  have hnodup : (representatives obs).Nodup :=
    (select_pairwise obs).imp fun {a b} hlt ↦ fun hab ↦ hlt.ne (by rw [hab])
  have hsub : (kept obs).Sublist (representatives obs) := hf.sublist
  have hperm : ((representatives obs).filter (· ∈ kept obs)).Perm (kept obs) := by
    refine (List.perm_ext_iff_of_nodup (hnodup.filter _) (hnodup.sublist hsub)).mpr fun o ↦ ?_
    rw [List.mem_filter, decide_eq_true_eq, and_iff_right_iff_imp]
    exact fun ho ↦ hsub.subset ho
  have hsplit := (representatives obs).length_eq_length_filter_add (· ∈ kept obs)
  have hcount := hf.counted
  change (kept obs).length + _ = _ at hcount
  rw [hperm.length_eq] at hsplit
  simp only [← decide_not] at hsplit
  change _ = _ + (dropped obs).length at hsplit
  omega

/-- A map is inferred from the runs of the kept observations. -/
theorem infer_eq (hne : obs ≠ []) {cap : ℕ} (hcap : cap ≠ 0) :
    infer obs cap =
      if cap < (runs obs).length then ⟨.rejected, [], (dropped obs).length⟩
      else ⟨if (widen (runs obs)).length = 1 then .singleDelta else .piecewise,
        widen (runs obs), (dropped obs).length⟩ := by
  rw [← length_dropped]
  unfold infer
  rw [if_neg (not_or_intro hne hcap)]
  dsimp only
  refine (if_neg ?_).trans rfl
  exact fun h ↦ hne (kept_eq_nil_iff.mp h)

/-- What a usable map is made of. -/
theorem infer_usable {cap : ℕ} (h : (infer obs cap).isUsable = true) :
    obs ≠ [] ∧ (runs obs).length ≤ cap ∧ (infer obs cap).segments = widen (runs obs) ∧
      (infer obs cap).discarded = (dropped obs).length := by
  by_cases hempty : obs = [] ∨ cap = 0
  · rw [infer, if_pos hempty] at h
    exact absurd h (by decide)
  · obtain ⟨hne, hcap⟩ := not_or.mp hempty
    rw [infer_eq hne hcap] at h ⊢
    by_cases hlt : cap < (runs obs).length
    · rw [if_pos hlt] at h
      exact absurd h (by simp [isUsable])
    · rw [if_neg hlt]
      exact ⟨hne, Nat.le_of_not_lt hlt, rfl, rfl⟩

/-- Enough segments make every inference usable. -/
theorem infer_isUsable (hne : obs ≠ []) {cap : ℕ} (hcap : cap ≠ 0) (h : (runs obs).length ≤ cap) :
    (infer obs cap).isUsable = true := by
  rw [infer_eq hne hcap, if_neg (Nat.not_lt.mpr h)]
  unfold isUsable
  dsimp only
  split <;> rfl

end OffsetMap

end VeraqisRecover.Zip
