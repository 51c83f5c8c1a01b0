import Mathlib

/-!
# The first of each run of equal keys

A list sorted by key and then by value, with all but the first of every run of
equal keys removed, keeps for each key the element of least value.
-/

namespace FirstOfRun

variable {α κ ν : Type*} [LinearOrder κ] [LinearOrder ν] (key : α → κ) (val : α → ν)

/-- By key, then by value. -/
def Before (a b : α) : Prop := key a < key b ∨ key a = key b ∧ val a ≤ val b

variable {key val}

theorem Before.key_le {a b : α} (h : Before key val a b) : key a ≤ key b := by
  rcases h with h | ⟨h, -⟩
  · exact h.le
  · exact h.le

theorem Before.val_le {a b : α} (h : Before key val a b) (hkey : key a = key b) :
    val a ≤ val b := by
  rcases h with h | ⟨-, h⟩
  · exact absurd hkey h.ne
  · exact h

theorem val_le_of_mem_destutter' {a : α} {l : List α} (h : (a :: l).Pairwise (Before key val))
    {x y : α} (hx : x ∈ l.destutter' (key · ≠ key ·) a) (hy : y ∈ a :: l)
    (hkey : key y = key x) :
    val x ≤ val y := by
  induction l generalizing a x y with
  | nil =>
      rw [List.destutter'_nil, List.mem_singleton] at hx
      rw [List.mem_singleton] at hy
      rw [hx, hy]
  | cons b l ih =>
      obtain ⟨hfirst, hrest⟩ := List.pairwise_cons.mp h
      have hab := hfirst b List.mem_cons_self
      by_cases hne : key a ≠ key b
      · rw [List.destutter'_cons, if_pos hne] at hx
        rcases List.mem_cons.mp hx with rfl | hx'
        · rcases List.mem_cons.mp hy with rfl | hy'
          · exact le_rfl
          · exact (hfirst y hy').val_le hkey.symm
        · rcases List.mem_cons.mp hy with rfl | hy'
          · -- the run of `a` ended before `b`, and `x` lies at or after `b`
            have hbx : key b ≤ key x := by
              have hsub := (List.destutter'_sublist l (key · ≠ key ·) b).subset hx'
              rcases List.mem_cons.mp hsub with rfl | hxl
              · exact le_rfl
              · exact ((List.pairwise_cons.mp hrest).1 x hxl).key_le
            exact absurd hkey ((lt_of_le_of_ne hab.key_le hne).trans_le hbx).ne
          · exact ih hrest hx' hy' hkey
      · have heq : key a = key b := not_not.mp hne
        have hdrop : (a :: l).Pairwise (Before key val) :=
          h.sublist ((List.sublist_cons_self b l).cons_cons a)
        rw [List.destutter'_cons, if_neg hne] at hx
        rcases List.mem_cons.mp hy with rfl | hy
        · exact ih hdrop hx List.mem_cons_self hkey
        · rcases List.mem_cons.mp hy with rfl | hy
          · have hxa := ih hdrop hx List.mem_cons_self (heq.trans hkey)
            exact hxa.trans (hab.val_le heq)
          · exact ih hdrop hx (List.mem_cons_of_mem a hy) hkey

theorem exists_mem_destutter' {a : α} {l : List α} {y : α} (hy : y ∈ a :: l) :
    ∃ x ∈ l.destutter' (key · ≠ key ·) a, key x = key y := by
  induction l generalizing a y with
  | nil => exact ⟨a, by simp, by rw [List.mem_singleton.mp hy]⟩
  | cons b l ih =>
      by_cases hne : key a ≠ key b
      · rw [List.destutter'_cons, if_pos hne]
        rcases List.mem_cons.mp hy with rfl | hy
        · exact ⟨y, List.mem_cons_self, rfl⟩
        · obtain ⟨x, hx, hkey⟩ := ih hy
          exact ⟨x, List.mem_cons_of_mem a hx, hkey⟩
      · rw [List.destutter'_cons, if_neg hne]
        rcases List.mem_cons.mp hy with rfl | hy
        · exact ih List.mem_cons_self
        · rcases List.mem_cons.mp hy with rfl | hy
          · obtain ⟨x, hx, hkey⟩ := ih (List.mem_cons_self (a := a))
            exact ⟨x, hx, hkey.trans (not_not.mp hne)⟩
          · exact ih (List.mem_cons_of_mem a hy)

/-- What is kept has the least value of its key. -/
theorem val_le_of_mem_destutter {l : List α} (h : l.Pairwise (Before key val)) {x y : α}
    (hx : x ∈ l.destutter (key · ≠ key ·)) (hy : y ∈ l) (hkey : key y = key x) :
    val x ≤ val y := by
  cases l with
  | nil => simp at hy
  | cons a l => exact val_le_of_mem_destutter' h hx hy hkey

/-- Every key keeps an element. -/
theorem exists_mem_destutter {l : List α} {y : α} (hy : y ∈ l) :
    ∃ x ∈ l.destutter (key · ≠ key ·), key x = key y := by
  cases l with
  | nil => simp at hy
  | cons a l => exact exists_mem_destutter' hy

end FirstOfRun
