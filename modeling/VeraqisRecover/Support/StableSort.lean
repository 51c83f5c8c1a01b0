import Mathlib

/-!
# Sorting by a key, stably

The elements of one key keep their order, and a sorted list is determined by
its elements of each key.
-/

namespace StableSort

variable {α κ : Type*} [LinearOrder κ] (key : α → κ)

def sortByKey (l : List α) : List α := l.mergeSort fun a b ↦ decide (key a ≤ key b)

theorem perm_sortByKey (l : List α) : (sortByKey key l).Perm l := List.mergeSort_perm l _

@[simp] theorem mem_sortByKey {l : List α} {a : α} : a ∈ sortByKey key l ↔ a ∈ l :=
  (perm_sortByKey key l).mem_iff

variable {key}

theorem trans_le (a b c : α) (hab : decide (key a ≤ key b)) (hbc : decide (key b ≤ key c)) :
    decide (key a ≤ key c) :=
  decide_eq_true ((of_decide_eq_true hab).trans (of_decide_eq_true hbc))

theorem total_le (a b : α) : decide (key a ≤ key b) || decide (key b ≤ key a) := by
  rw [Bool.or_eq_true, decide_eq_true_iff, decide_eq_true_iff]
  exact le_total _ _

theorem pairwise_sortByKey (l : List α) : (sortByKey key l).Pairwise (key · ≤ key ·) :=
  (List.pairwise_mergeSort trans_le total_le l).imp of_decide_eq_true

theorem sortByKey_of_pairwise {l : List α} (h : l.Pairwise (key · ≤ key ·)) :
    sortByKey key l = l :=
  List.mergeSort_of_pairwise (h.imp decide_eq_true)

theorem filter_sortByKey (l : List α) (k : κ) :
    (sortByKey key l).filter (key · = k) = l.filter (key · = k) := by
  have hkey : (l.filter (key · = k)).Pairwise fun a b ↦ decide (key a ≤ key b) := by
    refine List.Pairwise.imp_of_mem (R := fun _ _ ↦ True) (fun ha hb _ ↦ ?_)
      (List.pairwise_of_forall fun _ _ ↦ trivial)
    have hak := of_decide_eq_true (List.mem_filter.mp ha).2
    have hbk := of_decide_eq_true (List.mem_filter.mp hb).2
    exact decide_eq_true (hak.trans hbk.symm).le
  have hsub := (List.sublist_mergeSort trans_le total_le hkey List.filter_sublist).filter
    (key · = k)
  simp only [List.filter_filter, Bool.and_self] at hsub
  exact (hsub.eq_of_length_le ((perm_sortByKey key l).filter _).length_eq.le).symm

theorem mem_iff_of_filter_eq {l l' : List α}
    (h : ∀ k, l.filter (key · = k) = l'.filter (key · = k)) (a : α) : a ∈ l ↔ a ∈ l' := by
  have hmem : a ∈ l.filter (key · = key a) ↔ a ∈ l'.filter (key · = key a) := by rw [h]
  simpa using hmem

theorem eq_of_filter_eq {l l' : List α} (hl : l.Pairwise (key · ≤ key ·))
    (hl' : l'.Pairwise (key · ≤ key ·))
    (h : ∀ k, l.filter (key · = k) = l'.filter (key · = k)) : l = l' := by
  have hmem := mem_iff_of_filter_eq h
  induction l generalizing l' with
  | nil =>
      cases l' with
      | nil => rfl
      | cons b l' => exact absurd ((hmem b).mpr List.mem_cons_self) List.not_mem_nil
  | cons a l ih =>
      cases l' with
      | nil => exact absurd ((hmem a).mp List.mem_cons_self) List.not_mem_nil
      | cons b l' =>
          obtain ⟨hfirst, htail⟩ := List.pairwise_cons.mp hl
          obtain ⟨hfirst', htail'⟩ := List.pairwise_cons.mp hl'
          have hle : key a ≤ key b := by
            rcases List.mem_cons.mp ((hmem b).mpr List.mem_cons_self) with rfl | hb
            · exact le_rfl
            · exact hfirst b hb
          have hge : key b ≤ key a := by
            rcases List.mem_cons.mp ((hmem a).mp List.mem_cons_self) with rfl | ha
            · exact le_rfl
            · exact hfirst' a ha
          have hkey := hle.antisymm hge
          have hhead := h (key b)
          simp only [List.filter_cons, hkey, decide_true, if_true] at hhead
          obtain ⟨rfl, -⟩ := List.cons.inj hhead
          have hrest : ∀ k, l.filter (key · = k) = l'.filter (key · = k) := by
            intro k
            have hk := h k
            rw [List.filter_cons, List.filter_cons] at hk
            split at hk
            · exact (List.cons.inj hk).2
            · exact hk
          rw [ih htail htail' hrest (mem_iff_of_filter_eq hrest)]

/-- Lists that agree on the elements of each key are sorted alike. -/
theorem sortByKey_eq {l l' : List α} (h : ∀ k, l.filter (key · = k) = l'.filter (key · = k)) :
    sortByKey key l = sortByKey key l' :=
  eq_of_filter_eq (pairwise_sortByKey l) (pairwise_sortByKey l') fun k ↦ by
    rw [filter_sortByKey, filter_sortByKey, h]

end StableSort
