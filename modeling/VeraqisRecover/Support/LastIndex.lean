import Mathlib

/-!
# The last index with a property

A backward scan over a half-open range of indices, and how its answer changes
with the range.
-/

/-- The last index in `start..stop` with the property. -/
def lastIndex (p : ℕ → Bool) (start stop : ℕ) : Option ℕ :=
  (List.range' start (stop - start)).reverse.find? p

namespace LastIndex

variable {p : ℕ → Bool} {start stop i : ℕ}

theorem lastIndex_of_le (h : stop ≤ start) : lastIndex p start stop = none := by
  rw [lastIndex, Nat.sub_eq_zero_of_le h]
  rfl

theorem lastIndex_succ (h : start ≤ stop) :
    lastIndex p start (stop + 1) = if p stop then some stop else lastIndex p start stop := by
  rw [lastIndex, Nat.succ_sub h, List.range'_concat, List.reverse_append, List.reverse_singleton,
    List.singleton_append, Nat.one_mul, Nat.add_sub_cancel' h, List.find?_cons]
  cases p stop <;> rfl

theorem lastIndex_succ_of_pos (h : start ≤ stop) (hp : p stop = true) :
    lastIndex p start (stop + 1) = some stop := by
  rw [lastIndex_succ h, if_pos hp]

theorem lastIndex_succ_of_neg (hp : p stop = false) :
    lastIndex p start (stop + 1) = lastIndex p start stop := by
  rcases Nat.lt_or_ge stop start with h | h
  · rw [lastIndex_of_le h, lastIndex_of_le h.le]
  · rw [lastIndex_succ h, hp]
    rfl

/-- What is found is in the range and has the property. -/
theorem lastIndex_sound (h : lastIndex p start stop = some i) :
    start ≤ i ∧ i < stop ∧ p i = true := by
  have hmem := List.mem_of_find?_eq_some h
  obtain ⟨hstart, hstop⟩ := List.mem_range'_1.mp (List.mem_reverse.mp hmem)
  exact ⟨hstart, by omega, List.find?_some h⟩

/-- Nothing is lost by leaving out an end of the range without the property. -/
theorem lastIndex_extend {mid : ℕ} (hle : mid ≤ stop)
    (h : ∀ j, mid ≤ j → j < stop → p j = false) :
    lastIndex p start stop = lastIndex p start mid := by
  induction stop, hle using Nat.le_induction with
  | base => rfl
  | succ stop hmid ih =>
      rw [lastIndex_succ_of_neg (h stop hmid (Nat.lt_succ_self stop))]
      exact ih fun j hj hlt ↦ h j hj (hlt.trans (Nat.lt_succ_self stop))

/-- An index with the property is found, or one behind it. -/
theorem lastIndex_complete (hstart : start ≤ i) (hstop : i < stop) (hp : p i = true) :
    ∃ j, lastIndex p start stop = some j ∧ i ≤ j := by
  induction stop, hstop using Nat.le_induction with
  | base => exact ⟨i, lastIndex_succ_of_pos hstart hp, le_refl i⟩
  | succ stop hlt ih =>
      cases hlast : p stop with
      | true => exact ⟨stop, lastIndex_succ_of_pos (by omega) hlast, by omega⟩
      | false =>
          rw [lastIndex_succ_of_neg hlast]
          exact ih

/-- Two ranges with one start have the same answer just when the longer one adds nothing. -/
theorem lastIndex_eq_iff {mid : ℕ} (hstart : start ≤ mid) (hle : mid ≤ stop) :
    lastIndex p start stop = lastIndex p start mid ↔
      ∀ j, mid ≤ j → j < stop → p j = false := by
  refine ⟨fun heq j hj hlt ↦ ?_, lastIndex_extend hle⟩
  by_contra hp
  obtain ⟨k, hk, hjk⟩ := lastIndex_complete (hstart.trans hj) hlt (Bool.eq_true_of_not_eq_false hp)
  have hlast := (lastIndex_sound (heq ▸ hk)).2.1
  omega

theorem lastIndex_shift (p : ℕ → Bool) (start n : ℕ) :
    (lastIndex (fun i ↦ p (start + i)) 0 n).map (start + ·) = lastIndex p start (start + n) := by
  induction n with
  | zero => rw [lastIndex_of_le le_rfl, Nat.add_zero, lastIndex_of_le le_rfl, Option.map_none]
  | succ n ih =>
      rw [lastIndex_succ (Nat.zero_le n), ← Nat.add_assoc,
        lastIndex_succ (Nat.le_add_right start n)]
      split
      · rfl
      · exact ih

end LastIndex
