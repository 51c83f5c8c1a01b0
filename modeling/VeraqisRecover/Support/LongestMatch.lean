import Mathlib

/-!
# The longest match in a table

Every row of a table offers keys.  A scan over all of them keeps the row of the longest key
that hits, the first of equally long ones.
-/

namespace LongestMatch

variable {α β : Type*} (hit : β → Bool) (len : β → ℕ)

/-- A key replaces the best one so far if it hits and is longer. -/
def step (best : Option (ℕ × α)) (a : α) (k : β) : Option (ℕ × α) :=
  if hit k && best.all (·.1 < len k) then some (len k, a) else best

def scan (table : List (α × List β)) : Option (ℕ × α) :=
  table.foldl (fun best row ↦ row.2.foldl (fun best k ↦ step hit len best row.1 k) best) none

/-- The keys of a table, each with its row. -/
def offers (table : List (α × List β)) : List (α × β) :=
  table.flatMap fun row ↦ row.2.map (Prod.mk row.1)

theorem mem_offers {table : List (α × List β)} {a : α} {k : β} :
    (a, k) ∈ offers table ↔ ∃ row ∈ table, row.1 = a ∧ k ∈ row.2 := by
  simp only [offers, List.mem_flatMap, List.mem_map, Prod.mk.injEq]
  constructor
  · rintro ⟨row, hrow, k', hk, rfl, rfl⟩
    exact ⟨row, hrow, rfl, hk⟩
  · rintro ⟨row, hrow, rfl, hk⟩
    exact ⟨row, hrow, k, hk, rfl, rfl⟩

theorem scan_eq (table : List (α × List β)) :
    scan hit len table = (offers table).foldl (fun best m ↦ step hit len best m.1 m.2) none := by
  rw [offers, List.foldl_flatMap, scan]
  congr 1
  funext best row
  rw [List.foldl_map]

/-- The scan does not look at the rows. -/
theorem scan_map {α' : Type*} (f : α → α') (table : List (α × List β)) :
    scan hit len (table.map (Prod.map f id)) = (scan hit len table).map (Prod.map id f) := by
  have hstep : ∀ (best : Option (ℕ × α)) (a : α) (k : β),
      step hit len (best.map (Prod.map id f)) (f a) k =
        (step hit len best a k).map (Prod.map id f) := by
    intro best a k
    unfold step
    rw [Option.all_map, apply_ite (Option.map (Prod.map id f))]
    rfl
  have hfold : ∀ (ms : List (α × β)) (best : Option (ℕ × α)),
      (ms.map (Prod.map f id)).foldl (fun best m ↦ step hit len best m.1 m.2)
          (best.map (Prod.map id f)) =
        (ms.foldl (fun best m ↦ step hit len best m.1 m.2) best).map (Prod.map id f) := by
    intro ms
    induction ms with
    | nil => exact fun _ ↦ rfl
    | cons m ms ih =>
        intro best
        rw [List.map_cons, List.foldl_cons, List.foldl_cons, ← ih, Prod.map_fst, Prod.map_snd,
          id, hstep]
  have hoffers : offers (table.map (Prod.map f id)) = (offers table).map (Prod.map f id) := by
    simp only [offers, List.flatMap_map, List.map_flatMap, List.map_map]
    rfl
  rw [scan_eq, scan_eq, hoffers]
  exact hfold (offers table) none

/-- What the best match stands for once these keys have been looked at. -/
structure Best (seen : List (α × β)) (best : Option (ℕ × α)) : Prop where
  none_hits : best = none → ∀ m ∈ seen, hit m.2 = false
  hits : ∀ n a, best = some (n, a) → ∃ k, (a, k) ∈ seen ∧ hit k = true
  longest : ∀ n a, best = some (n, a) → ∀ m ∈ seen, hit m.2 = true → len m.2 ≤ n

variable {hit len}

theorem Best.step {seen : List (α × β)} {best : Option (ℕ × α)} (h : Best hit len seen best)
    (a : α) (k : β) : Best hit len (seen ++ [(a, k)]) (step hit len best a k) := by
  unfold LongestMatch.step
  by_cases htake : (hit k && best.all (·.1 < len k)) = true
  · rw [if_pos htake]
    obtain ⟨hhit, hlonger⟩ := Bool.and_eq_true_iff.mp htake
    refine ⟨fun hnone ↦ absurd hnone (Option.some_ne_none _), ?_, ?_⟩
    · rintro n a' ⟨rfl, rfl⟩
      exact ⟨k, by simp, hhit⟩
    · rintro n a' ⟨rfl, rfl⟩ m hm hmhit
      rcases List.mem_append.mp hm with hm | hm
      · cases best with
        | none => exact absurd hmhit (by simp [h.none_hits rfl m hm])
        | some b =>
            have hle := h.longest b.1 b.2 rfl m hm hmhit
            have hlt : b.1 < len k := by simpa using hlonger
            omega
      · rw [List.mem_singleton.mp hm]
  · rw [if_neg htake]
    refine ⟨?_, ?_, ?_⟩
    · rintro rfl m hm
      rcases List.mem_append.mp hm with hm | hm
      · exact h.none_hits rfl m hm
      · rw [List.mem_singleton.mp hm]
        simpa using htake
    · intro n a' hbest
      obtain ⟨k', hk', hhit⟩ := h.hits n a' hbest
      exact ⟨k', List.mem_append_left _ hk', hhit⟩
    · rintro n a' rfl m hm hmhit
      rcases List.mem_append.mp hm with hm | hm
      · exact h.longest n a' rfl m hm hmhit
      · rw [List.mem_singleton.mp hm] at hmhit ⊢
        simpa [hmhit] using htake

theorem best_scan (table : List (α × List β)) :
    Best hit len (offers table) (scan hit len table) := by
  rw [scan_eq]
  induction offers table using List.reverseRecOn with
  | nil => exact ⟨fun _ m hm ↦ absurd hm List.not_mem_nil, by simp, by simp⟩
  | append_singleton seen m ih =>
      rw [List.foldl_append, List.foldl_cons, List.foldl_nil]
      exact ih.step m.1 m.2

/-- Where no two keys can hit at once, the scan finds the row whose key hits. -/
theorem scan_eq_some_iff {table : List (α × List β)}
    (hunique : ∀ m ∈ offers table, ∀ m' ∈ offers table, hit m.2 = true → hit m'.2 = true →
      m.1 = m'.1) (a : α) :
    (scan hit len table).map Prod.snd = some a ↔ ∃ k, (a, k) ∈ offers table ∧ hit k = true := by
  have hbest : Best hit len (offers table) (scan hit len table) := best_scan table
  constructor
  · intro hscan
    obtain ⟨⟨n, a'⟩, hsome, rfl⟩ := Option.map_eq_some_iff.mp hscan
    exact hbest.hits n a' hsome
  · rintro ⟨k, hk, hhit⟩
    cases hscan : scan hit len table with
    | none => exact absurd hhit (by simp [hbest.none_hits hscan _ hk])
    | some b =>
        obtain ⟨k', hk', hhit'⟩ := hbest.hits b.1 b.2 hscan
        exact congrArg some (hunique _ hk' _ hk hhit' hhit)

end LongestMatch
