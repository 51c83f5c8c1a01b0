import VeraqisRecover.Zip.OffsetMap

/-!
# Offset maps of a file cut at the front

When every observed record moved towards the start by the same amount, the
inferred map is one segment over all offsets.  It takes an offset back by that
amount and has no answer for an offset below it.
-/

namespace VeraqisRecover.Zip

theorem wrapI64_of_small {x : ℤ} (h₁ : -2 ^ 63 ≤ x) (h₂ : x < 2 ^ 63) : wrapI64 x = x := by
  unfold wrapI64
  rw [Int.bmod_def]
  omega

namespace OffsetMap

/-- Observations that all moved back by `k`, at increasing stored offsets. -/
structure MovedBack (k : ℕ) (obs : List OffsetObservation) : Prop where
  stored_lt : ∀ o ∈ obs, o.stored < 2 ^ 63
  stored_eq : ∀ o ∈ obs, o.stored = o.physical + k
  increasing : obs.Pairwise (·.stored < ·.stored)

variable {k : ℕ} {obs : List OffsetObservation}

theorem MovedBack.deltaOf (h : MovedBack k obs) {o : OffsetObservation} (ho : o ∈ obs) :
    deltaOf o = -k := by
  have hlt := h.stored_lt o ho
  have heq := h.stored_eq o ho
  unfold OffsetMap.deltaOf
  rw [wrapI64_of_small (x := (o.physical : ℤ)) (by omega) (by omega),
    wrapI64_of_small (x := (o.stored : ℤ)) (by omega) (by omega),
    wrapI64_of_small (by omega) (by omega)]
  omega

theorem MovedBack.sorted (h : MovedBack k obs) :
    obs.insertionSort (·.stored ≤ ·.stored) = obs :=
  (h.increasing.imp fun hlt ↦ le_of_lt hlt).insertionSort_eq

theorem MovedBack.destutter (h : MovedBack k obs) :
    obs.destutter (·.stored ≠ ·.stored) = obs :=
  List.destutter_of_isChain _ _ ((h.increasing.imp fun hlt ↦ ne_of_lt hlt).isChain)

/-- Nothing is dropped where physical offsets increase with the stored ones. -/
theorem foldl_keepMonotone (acc : List OffsetObservation) {discarded : ℕ}
    (h : (acc ++ obs).Pairwise (·.physical < ·.physical)) :
    obs.foldl keepMonotone (acc, discarded) = (acc ++ obs, discarded) := by
  induction obs generalizing acc with
  | nil => simp
  | cons o obs ih =>
      have hstep : keepMonotone (acc, discarded) o = (acc ++ [o], discarded) := by
        unfold keepMonotone
        dsimp only
        split
        · rename_i prev hprev
          have hmem := List.mem_of_getLast? hprev
          have hlt := (List.pairwise_append.mp h).2.2 prev hmem o List.mem_cons_self
          rw [if_neg (by omega)]
        · rfl
      rw [List.foldl_cons, hstep, ih _ (by simpa using h)]
      simp

/-- Observations of one delta extend one segment. -/
theorem foldl_extendSegments (seg : OffsetSegment) (h : ∀ o ∈ obs, deltaOf o = seg.delta) :
    ∃ stop support, obs.foldl extendSegments [seg] =
      [{ seg with originalEnd := stop, support }] := by
  induction obs generalizing seg with
  | nil => exact ⟨seg.originalEnd, seg.support, rfl⟩
  | cons o obs ih =>
      have hstep : extendSegments [seg] o =
          [{ seg with originalEnd := o.stored, support := seg.support + 1 }] := by
        simp [extendSegments, h o List.mem_cons_self]
      rw [List.foldl_cons, hstep]
      exact ih _ fun o' ho' ↦ h o' (List.mem_cons_of_mem o ho')

/-- A common shift is inferred as one segment over every offset. -/
theorem infer_movedBack (h : MovedBack k obs) (hne : obs ≠ []) {maxSegments : ℕ}
    (hmax : 0 < maxSegments) :
    ∃ support, infer obs maxSegments = ⟨.singleDelta, [⟨0, offsetMax, -k, support⟩], 0⟩ := by
  obtain ⟨o, rest, rfl⟩ := List.exists_cons_of_ne_nil hne
  have hphys : (o :: rest).Pairwise (·.physical < ·.physical) :=
    h.increasing.imp_of_mem fun {a b} ha hb hlt ↦ by
      have hsa := h.stored_eq a ha
      have hsb := h.stored_eq b hb
      omega
  have hdelta := h.deltaOf List.mem_cons_self
  obtain ⟨stop, support, hruns⟩ := foldl_extendSegments
    ⟨o.stored, o.stored, -k, 1⟩ (fun o' (ho' : o' ∈ rest) ↦ h.deltaOf (List.mem_cons_of_mem o ho'))
  have hfresh : extendSegments [] o = [⟨o.stored, o.stored, -k, 1⟩] := by
    rw [← hdelta]
    rfl
  have hkeep : (o :: rest).foldl keepMonotone ([], 0) = (o :: rest, 0) :=
    foldl_keepMonotone [] hphys
  refine ⟨support, ?_⟩
  unfold infer
  rw [if_neg (by simp; omega)]
  dsimp only
  rw [h.sorted, h.destutter, hkeep]
  dsimp only
  rw [List.foldl_cons, hfresh, hruns, if_neg (List.cons_ne_nil _ _),
    if_neg (by rw [List.length_singleton]; omega)]
  simp [List.modifyHead, List.modifyLast, List.modifyLast.go]

/-- The segment over every offset subtracts the shift, where that is possible. -/
theorem map_single {support stored : ℕ} (hk : k < 2 ^ 63) (hs : stored < 2 ^ 63) :
    (OffsetMap.mk .singleDelta [⟨0, offsetMax, -k, support⟩] 0).map stored =
      if k ≤ stored then some (stored - k) else none := by
  have hcontains : (⟨0, offsetMax, -k, support⟩ : OffsetSegment).contains stored = true := by
    unfold OffsetSegment.contains offsetMax
    simp
    omega
  have hadd : checkedAddI64 (wrapI64 stored) (-k) = some ((stored : ℤ) - k) := by
    rw [wrapI64_of_small (by omega) (by omega), checkedAddI64, if_pos (by omega)]
    rfl
  have hfind : [(⟨0, offsetMax, -k, support⟩ : OffsetSegment)].find? (·.contains stored) =
      some ⟨0, offsetMax, -k, support⟩ := List.find?_cons_of_pos hcontains
  unfold map
  dsimp only
  rw [if_pos (by simp [isUsable]), hfind, Option.bind_some, OffsetSegment.apply, hadd]
  simp only [Option.bind_eq_bind, Option.bind_some]
  by_cases hle : k ≤ stored
  · rw [if_pos hle, if_neg (by omega), Option.some.injEq]
    omega
  · rw [if_neg hle, if_pos (by omega)]

end OffsetMap

end VeraqisRecover.Zip
