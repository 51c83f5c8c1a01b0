import Mathlib

/-!
# Half-open intervals of offsets

Two ranges meet when each begins before the other ends.  For ranges that are
not empty this is the same as having an offset in common.
-/

namespace Interval

/-- Each range begins before the other ends. -/
def Meets (r q : ℕ × ℕ) : Prop := r.1 < q.2 ∧ q.1 < r.2

instance : DecidableRel Meets := fun r q ↦ inferInstanceAs (Decidable (r.1 < q.2 ∧ q.1 < r.2))

theorem Meets.symm {r q : ℕ × ℕ} (h : Meets r q) : Meets q r := ⟨h.2, h.1⟩

theorem disjoint_of_not_meets {r q : ℕ × ℕ} (h : ¬ Meets r q) :
    Disjoint (Set.Ico r.1 r.2) (Set.Ico q.1 q.2) := by
  rw [Set.disjoint_left]
  intro x hr hq
  rw [Set.mem_Ico] at hr hq
  exact h ⟨by omega, by omega⟩

theorem Meets.mono {r q q' : ℕ × ℕ} (h : Meets r q) (hlo : q'.1 ≤ q.1) (hhi : q.2 ≤ q'.2) :
    Meets r q' :=
  ⟨lt_of_lt_of_le h.1 hhi, lt_of_le_of_lt hlo h.2⟩

end Interval
