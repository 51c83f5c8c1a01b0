import VeraqisRecover.Tar.Salvage

/-!
# Where the walk goes and what it finds

The position a step goes on at and the member it returns depend on the bytes
alone, never on what was found before, so a walk is its first step followed by
the walk from there.
-/

namespace VeraqisRecover.Tar

open ByteString LossyUtf8

/-- The block at `pos` carries a header the salvager trusts. -/
def headerAt (data : Bytes) (pos : ℕ) : Bool :=
  hasMagic (field data pos block) && checksumHolds (field data pos block)

/-- Where the declared data of the member at `pos` ends. -/
def declaredEnd (data : Bytes) (pos : ℕ) : ℕ :=
  pos + block + declaredSize (field data pos block)

/-- The position after the block or member at `pos`. -/
def nextPos (data : Bytes) (pos : ℕ) : ℕ :=
  if headerAt data pos then
    if declaredEnd data pos ≤ data.length then
      pos + block + paddedSize (declaredSize (field data pos block))
    else data.length
  else pos + block

/-- The member at `pos`, when its header is trusted and its data present. -/
def memberAt (data : Bytes) (pos : ℕ) : List Segment :=
  if headerAt data pos ∧ declaredEnd data pos ≤ data.length then [memberSegment data pos] else []

/-- A zero block has no magic. -/
theorem isZero_of_hasMagic {b : Bytes} (h : hasMagic b = true) : isZero b = false := by
  rw [← Bool.not_eq_true]
  intro hzero
  have hmagic : field b 257 5 = ustar := of_decide_eq_true h
  have hmem : (0x75 : UInt8) ∈ field b 257 5 := by
    rw [hmagic]
    decide
  have hall := List.all_eq_true.mp hzero 0x75
    (List.mem_of_mem_drop (List.mem_of_mem_take hmem))
  exact absurd hall (by decide)

theorem salvageStep_spec (data : Bytes) (pos : ℕ) (s : SalvageState) :
    (salvageStep data pos s).1 = nextPos data pos ∧
      (salvageStep data pos s).2.res.segments = s.res.segments ++ memberAt data pos := by
  unfold nextPos memberAt headerAt
  cases hmagic : hasMagic (field data pos block) with
  | false =>
      unfold salvageStep
      dsimp only
      split
      · simp
      · simp [hmagic]
  | true =>
      unfold salvageStep
      dsimp only
      rw [isZero_of_hasMagic hmagic, hmagic]
      cases hsum : checksumHolds (field data pos block) with
      | false => simp [SalvageResult.warn]
      | true =>
          by_cases hend : declaredEnd data pos ≤ data.length
          · have hend' := hend
            unfold declaredEnd at hend'
            simp [hend, hend']
          · have hend' := hend
            unfold declaredEnd at hend'
            simp [hend, hend', SalvageResult.warn]

theorem lt_nextPos {data : Bytes} {pos : ℕ} (h : pos + block ≤ data.length) :
    pos < nextPos data pos := by
  have hlt := salvageStep_lt h { res := { format := "tar" } }
  rwa [(salvageStep_spec data pos _).1] at hlt

/-- The segments the walk finds from `pos` on. -/
def segmentsAt (data : Bytes) (pos : ℕ) : List Segment :=
  if h : pos + block ≤ data.length then
    have := lt_nextPos h
    memberAt data pos ++ segmentsAt data (nextPos data pos)
  else []
termination_by data.length - pos
decreasing_by unfold block at *; omega

theorem segmentsAt_step {data : Bytes} {pos : ℕ} (h : pos + block ≤ data.length) :
    segmentsAt data pos = memberAt data pos ++ segmentsAt data (nextPos data pos) := by
  rw [segmentsAt, dif_pos h]

theorem segmentsAt_end {data : Bytes} {pos : ℕ} (h : ¬ pos + block ≤ data.length) :
    segmentsAt data pos = [] := by
  rw [segmentsAt, dif_neg h]

theorem salvageFrom_segments (data : Bytes) (pos : ℕ) (s : SalvageState) :
    (salvageFrom data pos s).res.segments = s.res.segments ++ segmentsAt data pos := by
  fun_induction salvageFrom data pos s with
  | case1 pos s hpos _ ih =>
      obtain ⟨hnext, hsegments⟩ := salvageStep_spec data pos s
      rw [ih, hnext, hsegments, segmentsAt_step hpos, List.append_assoc]
  | case2 pos s hpos => rw [segmentsAt_end hpos, List.append_nil]

theorem salvageTar_segments (data : Bytes) : (salvageTar data).segments = segmentsAt data 0 := by
  unfold salvageTar
  dsimp only
  split
  · rw [segmentsAt_end (by omega)]
    rfl
  · exact salvageFrom_segments data 0 _

/-- Every segment the walk returns is a verified member. -/
theorem verified_of_mem_segmentsAt {data : Bytes} {pos : ℕ} :
    ∀ s ∈ segmentsAt data pos, s.verified = true := by
  fun_induction segmentsAt data pos with
  | case1 pos hpos _ ih =>
      intro s hs
      rcases List.mem_append.mp hs with hs | hs
      · unfold memberAt at hs
        split at hs
        · rw [List.mem_singleton.mp hs]
          rfl
        · simp at hs
      · exact ih s hs
  | case2 pos hpos => simp

/-- Every member the tallies count is among the segments. -/
theorem salvageStep_membersVerified {data : Bytes} {pos : ℕ} {s : SalvageState}
    (h : s.res.membersVerified = s.res.segments.length) :
    (salvageStep data pos s).2.res.membersVerified =
      (salvageStep data pos s).2.res.segments.length := by
  rw [salvageStep]
  dsimp only
  split
  · exact h
  · split
    · exact h
    · split
      · exact h
      · split
        · simp [SalvageResult.push, memberSegment, Segment.verified, SegmentKind.isVerified, h]
        · exact h

theorem salvageTar_membersVerified (data : Bytes) :
    (salvageTar data).membersVerified = (salvageTar data).segments.length := by
  have hfrom : ∀ (pos : ℕ) (s : SalvageState),
      s.res.membersVerified = s.res.segments.length →
        (salvageFrom data pos s).res.membersVerified =
          (salvageFrom data pos s).res.segments.length := by
    intro pos s
    fun_induction salvageFrom data pos s with
    | case1 pos s hpos _ ih =>
        intro h
        exact ih (salvageStep_membersVerified h)
    | case2 pos s hpos =>
        intro h
        exact h
  unfold salvageTar
  dsimp only
  split
  · rfl
  · exact hfrom 0 _ rfl

end VeraqisRecover.Tar
