import VeraqisRecover.Tar.Build

/-!
# What a TAR salvage proves

The walk stands on block boundaries only, and after a member it goes on behind
the member's span.  So every segment carries what its header states, except
that a size field nobody can read is taken as zero.
-/

namespace VeraqisRecover.Tar

open ByteString

/-- The positions the walk stands at. -/
inductive Reached (data : Bytes) : ℕ → Prop
  | start : Reached data 0
  | next {pos : ℕ} : Reached data pos → pos + block ≤ data.length →
      Reached data (nextPos data pos)

/-- The declared size, when the field reads. -/
def statedSize (b : Bytes) : Option ℕ := octal (field b 124 12)

/-- The segment is what the header at its offset states. -/
structure HeaderProven (data : Bytes) (s : Segment) : Prop where
  aligned : block ∣ s.sourceOffset
  magic : hasMagic (field data s.sourceOffset block) = true
  checksum : readChecksum (field data s.sourceOffset block) =
    some (computeChecksum (field data s.sourceOffset block))
  size : statedSize (field data s.sourceOffset block) = some s.bytes.length
  bytes : s.bytes = field data (s.sourceOffset + block) s.bytes.length
  span : s.sourceOffset + block + s.bytes.length ≤ s.sourceEnd ∧ s.sourceEnd ≤ data.length

/-- Every verified segment is proven by its header, and their spans follow one another. -/
structure SalvageProves (data : Bytes) : Prop where
  proven : ∀ s ∈ (salvageTar data).segments, s.kind = .verifiedTarMember → HeaderProven data s
  ordered : (salvageTar data).segments.Pairwise fun s t ↦ s.sourceEnd ≤ t.sourceOffset

/-! ## The cursor -/

theorem block_dvd_paddedSize (n : ℕ) : block ∣ paddedSize n := Dvd.intro_left _ rfl

/-- The walk stands on a block boundary, or it has given up at the end of the data. -/
theorem Reached.dvd_or_end {data : Bytes} {pos : ℕ} (h : Reached data pos) :
    block ∣ pos ∨ pos = data.length := by
  induction h with
  | start => exact .inl (dvd_zero block)
  | @next pos _ hroom ih =>
      have hpos : block ∣ pos := by
        rcases ih with hdvd | rfl
        · exact hdvd
        · exact absurd hroom (by unfold block; omega)
      unfold nextPos
      split
      · split
        · exact .inl ((hpos.add (dvd_refl block)).add (block_dvd_paddedSize _))
        · exact .inr rfl
      · exact .inl (hpos.add (dvd_refl block))

theorem Reached.dvd {data : Bytes} {pos : ℕ} (h : Reached data pos)
    (hroom : pos + block ≤ data.length) : block ∣ pos := by
  rcases h.dvd_or_end with hdvd | rfl
  · exact hdvd
  · exact absurd hroom (by unfold block; omega)

/-- From a reached position on, the walk finds a tail of what it finds. -/
theorem Reached.segments {data : Bytes} {pos : ℕ} (h : Reached data pos) :
    ∃ pre, segmentsAt data 0 = pre ++ segmentsAt data pos := by
  induction h with
  | start => exact ⟨[], rfl⟩
  | @next pos _ hroom ih =>
      obtain ⟨pre, hpre⟩ := ih
      refine ⟨pre ++ memberAt data pos, ?_⟩
      rw [hpre, segmentsAt_step hroom, List.append_assoc]

theorem exists_reached_of_mem {data : Bytes} {pos : ℕ} (h : Reached data pos) :
    ∀ s ∈ segmentsAt data pos, ∃ q, Reached data q ∧ pos ≤ q ∧ q + block ≤ data.length ∧
      s ∈ memberAt data q := by
  fun_induction segmentsAt data pos with
  | case1 pos hroom hlt ih =>
      intro s hs
      rcases List.mem_append.mp hs with hs | hs
      · exact ⟨pos, h, le_rfl, hroom, hs⟩
      · obtain ⟨q, hq, hle, hqroom, hmem⟩ := ih (h.next hroom) s hs
        exact ⟨q, hq, hlt.le.trans hle, hqroom, hmem⟩
  | case2 pos hroom => simp

theorem mem_memberAt {data : Bytes} {pos : ℕ} {s : Segment} :
    s ∈ memberAt data pos ↔
      (headerAt data pos = true ∧ declaredEnd data pos ≤ data.length) ∧
        s = memberSegment data pos := by
  unfold memberAt
  split
  · rename_i hmember
    simp [hmember]
  · rename_i hmember
    simp [hmember]

/-! ## One member -/

theorem length_memberSegment {data : Bytes} {pos : ℕ}
    (h : declaredEnd data pos ≤ data.length) :
    (memberSegment data pos).bytes.length = declaredSize (field data pos block) := by
  unfold declaredEnd at h
  exact length_field h

theorem headerProven_memberSegment {data : Bytes} {pos : ℕ} (hreached : Reached data pos)
    (hroom : pos + block ≤ data.length) (hheader : headerAt data pos = true)
    (hend : declaredEnd data pos ≤ data.length)
    (hsize : (statedSize (field data pos block)).isSome = true) :
    HeaderProven data (memberSegment data pos) := by
  have hlength := length_memberSegment hend
  obtain ⟨hmagic, hsum⟩ := (Bool.and_eq_true _ _).mp hheader
  obtain ⟨size, hstated⟩ := Option.isSome_iff_exists.mp hsize
  have hdeclared : declaredSize (field data pos block) = size := by
    rw [declaredSize, ← statedSize, hstated]
    rfl
  refine ⟨hreached.dvd hroom, hmagic, of_decide_eq_true hsum, ?_, ?_, ?_⟩
  · rw [hlength, hdeclared]
    exact hstated
  · rw [hlength]
    rfl
  · unfold declaredEnd at hend
    rw [hlength]
    change pos + block + _ ≤ min (pos + block + paddedSize _) _ ∧ min _ _ ≤ _
    refine ⟨le_min ?_ hend, min_le_right _ _⟩
    have hle : ∀ n, n ≤ paddedSize n := by
      intro n
      unfold paddedSize divCeil block
      omega
    exact Nat.add_le_add_left (hle _) _

theorem nextPos_eq_sourceEnd {data : Bytes} {pos : ℕ} (hheader : headerAt data pos = true)
    (hend : declaredEnd data pos ≤ data.length) :
    (memberSegment data pos).sourceEnd ≤ nextPos data pos := by
  rw [nextPos, if_pos hheader, if_pos hend]
  exact min_le_left _ _

/-- The spans follow one another, whatever the size fields say. -/
theorem segmentsAt_ordered {data : Bytes} {pos : ℕ} (h : Reached data pos) :
    (segmentsAt data pos).Pairwise fun s t ↦ s.sourceEnd ≤ t.sourceOffset := by
  fun_induction segmentsAt data pos with
  | case1 pos hroom _ ih =>
      rw [List.pairwise_append]
      refine ⟨?_, ih (h.next hroom), ?_⟩
      · unfold memberAt
        split
        · exact List.pairwise_singleton _ _
        · exact List.Pairwise.nil
      · intro s hs t ht
        obtain ⟨⟨hheader, hend⟩, rfl⟩ := mem_memberAt.mp hs
        obtain ⟨q, -, hle, -, hmem⟩ := exists_reached_of_mem (h.next hroom) t ht
        obtain ⟨-, rfl⟩ := mem_memberAt.mp hmem
        exact (nextPos_eq_sourceEnd hheader hend).trans hle
  | case2 pos hroom => exact List.Pairwise.nil

/-- A trusted header with its data present is returned, so its size field has to read. -/
theorem SalvageProves.size_reads {data : Bytes} (hproves : SalvageProves data) {pos : ℕ}
    (hreached : Reached data pos) (hroom : pos + block ≤ data.length)
    (hheader : headerAt data pos = true) :
    (statedSize (field data pos block)).isSome = true := by
  by_contra hnone
  rw [Bool.not_eq_true, Option.isSome_eq_false_iff, Option.isNone_iff_eq_none] at hnone
  have hzero : declaredSize (field data pos block) = 0 := by
    rw [declaredSize, ← statedSize, hnone]
    rfl
  have hend : declaredEnd data pos ≤ data.length := by
    rw [declaredEnd, hzero]
    exact hroom
  have hmem : memberSegment data pos ∈ (salvageTar data).segments := by
    obtain ⟨pre, hpre⟩ := hreached.segments
    rw [salvageTar_segments, hpre, segmentsAt_step hroom]
    apply List.mem_append_right
    apply List.mem_append_left
    exact mem_memberAt.mpr ⟨⟨hheader, hend⟩, rfl⟩
  have hsize := (hproves.proven _ hmem rfl).size
  change statedSize (field data pos block) = _ at hsize
  rw [hnone] at hsize
  cases hsize

/-- Every segment is what its header states exactly when the walk meets no trusted header
with a size field that does not read. -/
theorem salvageTar_proves_iff (data : Bytes) :
    SalvageProves data ↔ ∀ pos, Reached data pos → pos + block ≤ data.length →
      headerAt data pos = true → (statedSize (field data pos block)).isSome = true := by
  constructor
  · intro hproves pos hreached hroom hheader
    exact hproves.size_reads hreached hroom hheader
  · intro hreads
    refine ⟨?_, ?_⟩
    · intro s hs _
      rw [salvageTar_segments] at hs
      obtain ⟨q, hreached, -, hroom, hmem⟩ := exists_reached_of_mem .start s hs
      obtain ⟨⟨hheader, hend⟩, rfl⟩ := mem_memberAt.mp hmem
      exact headerProven_memberSegment hreached hroom hheader hend
        (hreads q hreached hroom hheader)
    · rw [salvageTar_segments]
      exact segmentsAt_ordered .start

/-- A member whose size, one block, is written in base 256, and its data. -/
def binarySized : Bytes :=
  List.replicate 124 0 ++ [0x80] ++ List.replicate 9 0 ++ [2, 0] ++ List.replicate 12 0 ++
    Octal.padded 6 0x3b1 ++ [0, 0x20] ++ List.replicate 101 0 ++ ustar ++
    List.replicate 250 0 ++ List.replicate 512 0x41

/-- The size counts as zero, and the member is returned without its data. -/
theorem binarySized_not_proven : ¬SalvageProves binarySized := by
  intro hproves
  have hreads := hproves.size_reads .start (by decide +kernel) (by decide +kernel)
  revert hreads
  decide +kernel

end VeraqisRecover.Tar
