import Mathlib

/-!
# Weights over a list

The whole weight of a list is reached by a sublist whose elements are pairwise
related exactly when the elements that weigh anything are pairwise related.
-/

namespace Weight

variable {α : Type*} (w : α → ℕ)

/-- The elements that weigh something. -/
def heavy (l : List α) : List α := l.filter fun a ↦ 0 < w a

def total (l : List α) : ℕ := (l.map w).sum

@[simp] theorem total_nil : total w [] = 0 := rfl

@[simp] theorem total_cons (a : α) (l : List α) : total w (a :: l) = w a + total w l :=
  List.sum_cons

theorem total_le_of_sublist {s l : List α} (h : s.Sublist l) : total w s ≤ total w l :=
  (h.map w).sum_le_sum fun _ _ ↦ Nat.zero_le _

theorem total_heavy (l : List α) : total w (heavy w l) = total w l := by
  induction l with
  | nil => rfl
  | cons a l ih =>
      rw [heavy, List.filter_cons]
      split
      · rw [total_cons, total_cons, ← heavy, ih]
      · rename_i hlight
        rw [decide_eq_true_eq, not_lt, Nat.le_zero] at hlight
        rw [total_cons, hlight, Nat.zero_add, ← heavy, ih]

/-- A sublist of the same weight leaves out nothing that weighs anything. -/
theorem heavy_eq_of_total_le {s l : List α} (h : s.Sublist l) (hw : total w l ≤ total w s) :
    heavy w l = heavy w s := by
  induction h with
  | slnil => rfl
  | cons a hs ih =>
      have hle := total_le_of_sublist w hs
      rw [total_cons] at hw
      have hlight : w a = 0 := by omega
      rw [← ih (by omega), heavy, List.filter_cons_of_neg (by simp [hlight]), heavy]
  | cons_cons a hs ih =>
      rw [total_cons, total_cons] at hw
      rw [heavy, heavy, List.filter_cons, List.filter_cons, ← heavy, ← heavy, ih (by omega)]

theorem exists_sublist_iff (r : α → α → Prop) (l : List α) :
    (∃ s : List α, s.Sublist l ∧ s.Pairwise r ∧ total w l ≤ total w s) ↔
      (heavy w l).Pairwise r := by
  constructor
  · rintro ⟨s, hs, hr, hw⟩
    rw [heavy_eq_of_total_le w hs hw]
    exact hr.filter _
  · intro h
    exact ⟨heavy w l, List.filter_sublist, h, (total_heavy w l).ge⟩

/-- A sum that saturates on the way saturates at the end. -/
theorem foldl_min (m : ℕ) (l : List α) (acc : ℕ) :
    l.foldl (fun a x ↦ min (a + w x) m) (min acc m) = min (acc + total w l) m := by
  induction l generalizing acc with
  | nil => rfl
  | cons a l ih =>
      have hstep : min (min acc m + w a) m = min (acc + w a) m := by omega
      rw [List.foldl_cons, hstep, ih, total_cons, Nat.add_assoc]

end Weight
