import VeraqisRecover.Zip.Ownership

/-!
# Directories that account for everything

A directory whose records' ranges stand one directly after the other, from the
start of the file to the directory, leaves no gap; when its count is right and
every header is present, the parse returns it as it is.
-/

namespace VeraqisRecover.Zip

open ByteString

/-- Ranges one directly after the other, from `a` to `b`. -/
def Consecutive : ℕ → List (ℕ × ℕ) → ℕ → Prop
  | a, [], b => a = b
  | a, r :: rs, b => r.1 = a ∧ a < r.2 ∧ Consecutive r.2 rs b

namespace Consecutive

variable {a b : ℕ} {rs : List (ℕ × ℕ)}

theorem bounds (h : Consecutive a rs b) : a ≤ b ∧ ∀ r ∈ rs, a ≤ r.1 ∧ r.1 < r.2 ∧ r.2 ≤ b := by
  induction rs generalizing a with
  | nil => exact ⟨le_of_eq h, by simp⟩
  | cons r rs ih =>
      obtain ⟨rfl, hlt, hrest⟩ := h
      obtain ⟨hle, hall⟩ := ih hrest
      refine ⟨by omega, fun r' hr' ↦ ?_⟩
      rcases List.mem_cons.mp hr' with rfl | hr'
      · exact ⟨le_refl _, hlt, hle⟩
      · have hb := hall r' hr'
        omega

theorem sweepRanges (h : Consecutive a rs b) : sweepRanges a rs = (false, b) := by
  induction rs generalizing a with
  | nil =>
      obtain rfl : a = b := h
      rfl
  | cons r rs ih =>
      obtain ⟨rfl, hlt, hrest⟩ := h
      rw [Zip.sweepRanges, if_neg (by omega), max_eq_right (le_of_lt hlt)]
      exact ih hrest

theorem pairwise (h : Consecutive a rs b) : rs.Pairwise rangeLe := by
  induction rs generalizing a with
  | nil => exact List.Pairwise.nil
  | cons r rs ih =>
      obtain ⟨rfl, hlt, hrest⟩ := h
      refine List.pairwise_cons.mpr ⟨fun r' hr' ↦ ?_, ih hrest⟩
      have hb := hrest.bounds.2 r' hr'
      exact .inl (by omega)

/-- The last range ends last. -/
theorem foldl_max (h : Consecutive a rs b) : (rs.map Prod.snd).foldl max a = b := by
  induction rs generalizing a with
  | nil => exact h
  | cons r rs ih =>
      obtain ⟨rfl, hlt, hrest⟩ := h
      rw [List.map_cons, List.foldl_cons, max_eq_right (le_of_lt hlt)]
      exact ih hrest

end Consecutive

/-- A directory that was found, counted right and accounts for everything before it. -/
structure Accounts (data : Bytes) (st : ParseState) (ranges : List (ℕ × ℕ)) : Prop where
  cdFound : st.out.cdFound = true
  nonempty : st.out.entries ≠ []
  declaredCount : st.declaredCount = some st.out.entries.length
  present : ∀ e ∈ st.out.entries, localHeaderPresent data e.localHeaderOffset = true
  ranges_eq : st.out.entries.filterMap (payloadRange data) = ranges
  consecutive : Consecutive 0 ranges (st.cdRegionStart.getD data.length)

theorem Accounts.cdComplete {data : Bytes} {st : ParseState} {ranges : List (ℕ × ℕ)}
    (h : Accounts data st ranges) : cdComplete data st = true := by
  have hagree : countsAgree data st = true := by
    simp only [countsAgree, h.cdFound, h.declaredCount, Bool.true_and, Bool.and_eq_true,
      decide_eq_true_eq, List.all_eq_true]
    exact ⟨⟨h.nonempty, trivial⟩, h.present⟩
  have hgap : unaccountedGap data st = false := by
    unfold unaccountedGap
    rw [h.ranges_eq, h.consecutive.pairwise.insertionSort_eq]
    dsimp only
    rw [h.consecutive.sweepRanges]
    simp
  simp [Zip.cdComplete, hagree, hgap]

end VeraqisRecover.Zip
