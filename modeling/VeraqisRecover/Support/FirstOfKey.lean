import Mathlib

/-!
# One element for each key

Sorting by a key and dropping all but the first of every run of equal keys is a
selection: what is left at a key is the first element of the original list that
has it, and the keys that are left strictly increase.
-/

namespace FirstOfKey

variable {α κ : Type*} [LinearOrder κ] {key : α → κ}

theorem find?_orderedInsert (a : α) {l : List α} (h : l.Pairwise (key · ≤ key ·)) (k : κ) :
    (l.orderedInsert (key · ≤ key ·) a).find? (key · = k) = (a :: l).find? (key · = k) := by
  induction l with
  | nil => rfl
  | cons b l ih =>
      obtain ⟨-, hl⟩ := List.pairwise_cons.mp h
      by_cases hab : key a ≤ key b
      · rw [List.orderedInsert_cons_of_le _ l hab]
      · rw [List.orderedInsert_of_not_le _ l hab]
        by_cases hb : key b = k
        · have ha : key a ≠ k := fun ha ↦ hab (ha.trans hb.symm).le
          simp [hb, ha]
        · rw [List.find?_cons_of_neg (by simpa using hb), ih hl]
          by_cases ha : key a = k
          · simp [ha]
          · simp [ha, hb]

/-- The sort is stable. -/
theorem find?_insertionSort (l : List α) (k : κ) :
    (l.insertionSort (key · ≤ key ·)).find? (key · = k) = l.find? (key · = k) := by
  induction l with
  | nil => rfl
  | cons a l ih =>
      have hsorted : (l.insertionSort (key · ≤ key ·)).Pairwise (key · ≤ key ·) :=
        l.pairwise_insertionSort (key · ≤ key ·)
      rw [List.insertionSort_cons, find?_orderedInsert a hsorted]
      by_cases ha : key a = k
      · simp [ha]
      · rw [List.find?_cons_of_neg (by simpa using ha), ih,
          List.find?_cons_of_neg (by simpa using ha)]

/-- After a run is over, nothing has its key. -/
theorem find?_eq_none_of_lt {a b : α} {l : List α} (h : (b :: l).Pairwise (key · ≤ key ·))
    (hab : key a < key b) : (b :: l).find? (key · = key a) = none := by
  apply List.find?_eq_none.mpr
  intro y hy hya
  have hby : key b ≤ key y := by
    rcases List.mem_cons.mp hy with rfl | hy
    · exact le_rfl
    · exact (List.pairwise_cons.mp h).1 y hy
  exact absurd (of_decide_eq_true hya) (hab.trans_le hby).ne'

theorem mem_destutter'_iff {a : α} {l : List α} (h : (a :: l).Pairwise (key · ≤ key ·)) {x : α} :
    x ∈ l.destutter' (key · ≠ key ·) a ↔ (a :: l).find? (key · = key x) = some x := by
  induction l generalizing a with
  | nil =>
      rw [List.destutter'_nil, List.mem_singleton]
      by_cases hx : key a = key x
      · simp [hx, eq_comm]
      · have hne : x ≠ a := fun hxa ↦ hx (by rw [hxa])
        simp [hx, hne]
  | cons b l ih =>
      obtain ⟨hfirst, hrest⟩ := List.pairwise_cons.mp h
      by_cases hab : key a = key b
      · have hdrop : (a :: l).Pairwise (key · ≤ key ·) :=
          h.sublist ((List.sublist_cons_self b l).cons_cons a)
        rw [List.destutter'_cons_neg _ (not_not.mpr hab), ih hdrop]
        by_cases hx : key a = key x
        · simp [hx]
        · have hbx : key b ≠ key x := fun hbx ↦ hx (hab.trans hbx)
          simp [hx, hbx]
      · rw [List.destutter'_cons_pos _ hab, List.mem_cons, ih hrest]
        have hlt := lt_of_le_of_ne (hfirst b List.mem_cons_self) hab
        by_cases hx : key a = key x
        · have hnone := find?_eq_none_of_lt hrest hlt
          rw [hx] at hnone
          rw [hnone, List.find?_cons_of_pos (a := a) (by simpa using hx), Option.some.injEq]
          simp [eq_comm]
        · have hne : x ≠ a := fun hxa ↦ hx (by rw [hxa])
          rw [List.find?_cons_of_neg (a := a) (by simpa using hx)]
          simp [hne]

theorem destutter'_pairwise {a : α} {l : List α} (h : (a :: l).Pairwise (key · ≤ key ·)) :
    (l.destutter' (key · ≠ key ·) a).Pairwise (key · < key ·) := by
  induction l generalizing a with
  | nil => exact List.pairwise_singleton _ a
  | cons b l ih =>
      obtain ⟨hfirst, hrest⟩ := List.pairwise_cons.mp h
      by_cases hab : key a = key b
      · rw [List.destutter'_cons_neg _ (not_not.mpr hab)]
        exact ih (h.sublist ((List.sublist_cons_self b l).cons_cons a))
      · rw [List.destutter'_cons_pos _ hab]
        refine List.pairwise_cons.mpr ⟨fun y hy ↦ ?_, ih hrest⟩
        have hlt := lt_of_le_of_ne (hfirst b List.mem_cons_self) hab
        have hsub := (List.destutter'_sublist l (key · ≠ key ·) b).subset hy
        rcases List.mem_cons.mp hsub with rfl | hy
        · exact hlt
        · exact hlt.trans_le ((List.pairwise_cons.mp hrest).1 y hy)

/-- One element for each key: the first in the list. -/
def select (key : α → κ) (l : List α) : List α :=
  (l.insertionSort (key · ≤ key ·)).destutter (key · ≠ key ·)

theorem mem_select_iff {l : List α} {x : α} :
    x ∈ select key l ↔ l.find? (key · = key x) = some x := by
  rw [← find?_insertionSort l, select]
  have hsorted : (l.insertionSort (key · ≤ key ·)).Pairwise (key · ≤ key ·) :=
    l.pairwise_insertionSort (key · ≤ key ·)
  generalize l.insertionSort (key · ≤ key ·) = s at hsorted
  cases s with
  | nil => simp
  | cons a s => exact mem_destutter'_iff hsorted

theorem mem_of_mem_select {l : List α} {x : α} (h : x ∈ select key l) : x ∈ l :=
  List.mem_of_find?_eq_some (mem_select_iff.mp h)

variable (key) in
theorem exists_mem_select {l : List α} {x : α} (h : x ∈ l) :
    ∃ y ∈ select key l, key y = key x := by
  cases hfind : l.find? (key · = key x) with
  | none => exact absurd (decide_eq_true rfl) (List.find?_eq_none.mp hfind x h)
  | some y =>
      have hy : key y = key x := by simpa using List.find?_some hfind
      exact ⟨y, mem_select_iff.mpr (by rw [hy, hfind]), hy⟩

/-- The selected keys strictly increase. -/
theorem select_pairwise (l : List α) : (select key l).Pairwise (key · < key ·) := by
  have hsorted : (l.insertionSort (key · ≤ key ·)).Pairwise (key · ≤ key ·) :=
    l.pairwise_insertionSort (key · ≤ key ·)
  rw [select]
  cases hs : l.insertionSort (key · ≤ key ·) with
  | nil => exact List.Pairwise.nil
  | cons a s =>
      rw [hs] at hsorted
      exact destutter'_pairwise hsorted

/-- A list with increasing keys is determined by its elements. -/
theorem eq_of_mem_iff {l l' : List α} (hl : l.Pairwise (key · < key ·))
    (hl' : l'.Pairwise (key · < key ·)) (h : ∀ x, x ∈ l ↔ x ∈ l') : l = l' := by
  have hnodup : ∀ {l : List α}, l.Pairwise (key · < key ·) → l.Nodup := fun hl ↦
    hl.imp fun {a b} hlt ↦ fun hab ↦ hlt.ne (by rw [hab])
  have hperm := (List.perm_ext_iff_of_nodup (hnodup hl) (hnodup hl')).mpr h
  exact hperm.eq_of_pairwise (fun a b _ _ hab hba ↦ absurd hab hba.asymm) hl hl'

/-- A selection is determined by its elements. -/
theorem select_congr {l l' : List α} (h : ∀ x, x ∈ select key l ↔ x ∈ select key l') :
    select key l = select key l' :=
  eq_of_mem_iff (select_pairwise l) (select_pairwise l') h

end FirstOfKey
