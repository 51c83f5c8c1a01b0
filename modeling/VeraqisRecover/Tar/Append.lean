import VeraqisRecover.Tar.Walk

/-!
# Bytes after a position do not change what stands before it

What a step sees when a stream is followed by other bytes, and the walk over
trailing zeros.
-/

namespace VeraqisRecover.Tar

open ByteString

theorem field_append_left {data : Bytes} {pos k : ℕ} (rest : Bytes) (h : pos + k ≤ data.length) :
    field (data ++ rest) pos k = field data pos k := by
  rw [field, field, List.drop_append_of_le_length (by omega),
    List.take_append_of_le_length (by rw [List.length_drop]; omega)]

theorem field_field (data : Bytes) (pos : ℕ) {w a n : ℕ} (h : a + n ≤ w) :
    field (field data pos w) a n = field data (pos + a) n := by
  rw [field, field, field, List.drop_take, List.take_take, List.drop_drop, min_eq_left (by omega)]

theorem headerAt_append {data : Bytes} {pos : ℕ} (rest : Bytes) (h : pos + block ≤ data.length) :
    headerAt (data ++ rest) pos = headerAt data pos := by
  rw [headerAt, headerAt, field_append_left rest h]

theorem declaredEnd_append {data : Bytes} {pos : ℕ} (rest : Bytes)
    (h : pos + block ≤ data.length) : declaredEnd (data ++ rest) pos = declaredEnd data pos := by
  rw [declaredEnd, declaredEnd, field_append_left rest h]

/-! ## Trailing zeros -/

theorem field_of_zeros {data : Bytes} {pos n k : ℕ} (h : data.length ≤ pos) (hfield : pos + k ≤
    data.length + n) : field (data ++ List.replicate n 0) pos k = List.replicate k 0 := by
  rw [field, List.drop_append, List.drop_of_length_le h, List.nil_append, List.drop_replicate,
    List.take_replicate]
  congr 1
  omega

theorem headerAt_zeros {data : Bytes} {pos n : ℕ} (h : data.length ≤ pos)
    (hblock : pos + block ≤ data.length + n) :
    headerAt (data ++ List.replicate n 0) pos = false := by
  rw [headerAt, field_of_zeros h hblock]
  rfl

/-- Past the data there are only zeros, and no member. -/
theorem segmentsAt_zeros (data : Bytes) (n : ℕ) {pos : ℕ} (h : data.length ≤ pos) :
    segmentsAt (data ++ List.replicate n 0) pos = [] := by
  have hall : ∀ k pos, data.length + n - pos ≤ k → data.length ≤ pos →
      segmentsAt (data ++ List.replicate n 0) pos = [] := by
    intro k
    induction k with
    | zero =>
        intro pos hk _
        apply segmentsAt_end
        rw [List.length_append, List.length_replicate, block]
        omega
    | succ k ih =>
        intro pos hk hpos
        by_cases hblock : pos + block ≤ data.length + n
        · have hheader := headerAt_zeros hpos hblock
          have hlt : pos + block ≤ (data ++ List.replicate n (0 : UInt8)).length := by
            rw [List.length_append, List.length_replicate]
            exact hblock
          have hnext : nextPos (data ++ List.replicate n 0) pos = pos + block := by
            rw [nextPos, hheader]
            rfl
          rw [segmentsAt_step hlt, hnext, ih (pos + block) (by unfold block; omega) (by omega),
            memberAt, if_neg (by simp [hheader])]
          rfl
        · apply segmentsAt_end
          rw [List.length_append, List.length_replicate]
          exact hblock
  exact hall _ pos le_rfl h

end VeraqisRecover.Tar
