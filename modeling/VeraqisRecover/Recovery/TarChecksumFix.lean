import VeraqisRecover.Recovery.Engine
import VeraqisRecover.Recovery.TarFields

/-!
# Repairing TAR header checksums

`TarChecksumFix` of `strategies/tar_repair.rs`.  The walk goes from header to
header by the size fields, and writes a checksum over the field of every header
whose own it does not read.
-/

namespace VeraqisRecover.Recovery

open ByteString VeraqisRecover.Tar

namespace TarChecksumFix

def ustarChecksumCompute (b : Bytes) : ℕ := computeChecksum b

/-- The stored checksum, as a `u32`; a field that does not read counts as `u64::MAX`. -/
def ustarChecksumRead (b : Bytes) : ℕ := (octalField (field b 148 8)).getD wordMax % 2 ^ 32

/-- The blocks of data the size field declares. -/
def dataBlocks (b : Bytes) : ℕ := divCeil ((octalField (field b 124 12)).getD 0) block

/-! ## The walk -/

structure State where
  data : Bytes
  fixed : ℕ
  deriving DecidableEq

/-- Correct the checksum of the header that stands at `off`. -/
def State.settle (s : State) (off : ℕ) : State :=
  let b := field s.data off block
  if ustarChecksumRead b = ustarChecksumCompute b then s
  else ⟨overwrite s.data (off + 148) (checksumBytes (ustarChecksumCompute b)), s.fixed + 1⟩

def walk (nblocks pos : ℕ) (s : State) : State :=
  if pos < nblocks then
    let off := pos * block
    let b := field s.data off block
    -- the end-of-archive terminator
    if isZero b then s
    else if !hasMagic b then walk nblocks (pos + 1) s
    else
      let s' := s.settle off
      walk nblocks (pos + 1 + dataBlocks (field s'.data off block)) s'
  else s
termination_by nblocks - pos

/-! ## The strategy -/

def name : String := "tar-checksum-fix"

def handles (c : Corruption) : Bool := c.ruleId = "TAR_UST_001"

def canApply (result : AnalysisResult) : Bool :=
  result.archiveFormat = some .tar && result.corruptions.any fun c ↦ c.ruleId = "TAR_UST_001"

def walked (source : Bytes) : State := walk (source.length / block) 0 ⟨source, 0⟩

def apply (source : Bytes) : Except RecoveryError (Bytes × RecoveryReport) :=
  let report := { RecoveryReport.empty "" with strategiesApplied := [name] }
  let s := walked source
  if s.fixed = 0 ∧ isZero s.data then
    .ok ([], { report with
      success := false
      warnings := ["no valid UStar headers found"] })
  else
    .ok (s.data, { report with
      bytesRecovered := s.data.length
      success := true
      warnings := [s!"fixed checksum in {s.fixed} TAR header block(s)"] })

end TarChecksumFix

/-- Recompute the checksum of every UStar header whose stored one does not match. -/
def tarChecksumFix : RecoveryStrategy where
  name := TarChecksumFix.name
  technique := "UstarChecksumFix"
  risk := .safe
  priority := 85
  handles := TarChecksumFix.handles
  canApply := TarChecksumFix.canApply
  predictedOutcome := fun _ ↦ "recompute and overwrite the UStar header checksum field"
  apply := TarChecksumFix.apply

theorem tarChecksumFix_reportsItself : tarChecksumFix.ReportsItself := by
  intro source staged report hrun
  simp only [tarChecksumFix, TarChecksumFix.apply] at hrun
  split at hrun
  · obtain ⟨-, rfl⟩ := Prod.mk.inj (Except.ok.inj hrun)
    exact ⟨rfl, rfl⟩
  · obtain ⟨-, rfl⟩ := Prod.mk.inj (Except.ok.inj hrun)
    exact ⟨rfl, rfl⟩

namespace TarChecksumFix

/-! ## One block -/

/-- What the repair makes of a header block. -/
def fixBlock (b : Bytes) : Bytes :=
  if ustarChecksumRead b = ustarChecksumCompute b then b
  else overwrite b 148 (checksumBytes (ustarChecksumCompute b))

section Block

variable {b : Bytes}

/-- Outside of the checksum field nothing changes. -/
theorem field_fixBlock (h : b.length = block) {a n : ℕ} (hapart : a + n ≤ 148 ∨ 156 ≤ a) :
    field (fixBlock b) a n = field b a n := by
  rw [fixBlock]
  split
  · rfl
  · exact field_summed h hapart

theorem hasMagic_fixBlock (h : b.length = block) : hasMagic (fixBlock b) = hasMagic b := by
  rw [hasMagic, hasMagic, field_fixBlock h (.inr (by decide))]

theorem dataBlocks_fixBlock (h : b.length = block) : dataBlocks (fixBlock b) = dataBlocks b := by
  rw [dataBlocks, dataBlocks, field_fixBlock h (.inl (by decide))]

/-- The repair reads back what it wrote. -/
theorem ustarChecksumRead_fixBlock (h : b.length = block) :
    ustarChecksumRead (fixBlock b) = ustarChecksumCompute (fixBlock b) := by
  by_cases hread : ustarChecksumRead b = ustarChecksumCompute b
  · rw [fixBlock, if_pos hread]
    exact hread
  · have hcomputed : ustarChecksumCompute (summed b) = computeChecksum b :=
      computeChecksum_summed h
    rw [fixBlock, if_neg hread]
    change ustarChecksumRead (summed b) = ustarChecksumCompute (summed b)
    rw [hcomputed, ustarChecksumRead, field_checksum_summed h,
      octalField_padded 6 (computeChecksum_le_wordMax h) rfl, Option.getD_some,
      mod_computeChecksum h]

/-- The salvager accepts what the repair wrote. -/
theorem checksumHolds_rewritten (h : b.length = block)
    (hread : ustarChecksumRead b ≠ ustarChecksumCompute b) :
    checksumHolds (fixBlock b) = true := by
  rw [fixBlock, if_neg hread]
  exact checksumHolds_summed h

/-- A header the salvager accepts is one the repair accepts, unless its checksum field begins
with a separator. -/
theorem ustarChecksumRead_eq_iff (h : b.length = block) (hholds : checksumHolds b = true) :
    ustarChecksumRead b = ustarChecksumCompute b ↔ beginsClosed (field b 148 8) = false := by
  constructor
  · intro hread
    by_contra hclosed
    rw [Bool.not_eq_false] at hclosed
    rw [ustarChecksumRead, octalField_of_beginsClosed hclosed] at hread
    have hlt := computeChecksum_lt h
    rw [← ustarChecksumCompute, ← hread] at hlt
    exact absurd hlt (by decide)
  · intro hclosed
    have hstored : (octal (field b 148 8)).map (· % 2 ^ 32) = some (computeChecksum b) :=
      of_decide_eq_true hholds
    obtain ⟨v, hv, hmod⟩ := Option.map_eq_some_iff.mp hstored
    rw [ustarChecksumRead, octalField_eq_octal hclosed, hv]
    exact hmod

theorem fixBlock_ne_of_read_ne (h : b.length = block)
    (hread : ustarChecksumRead b ≠ ustarChecksumCompute b) : fixBlock b ≠ b := by
  intro heq
  apply hread
  rw [← heq]
  exact ustarChecksumRead_fixBlock h

end Block

/-! ## The whole walk -/

/-- The blocks that the walk over `data` takes for headers. -/
def headers (data : Bytes) (pos : ℕ) : List ℕ :=
  if pos < data.length / block then
    if isZero (blockAt data pos) then []
    else if !hasMagic (blockAt data pos) then headers data (pos + 1)
    else pos :: headers data (pos + 1 + dataBlocks (blockAt data pos))
  else []
termination_by data.length / block - pos

section Headers

variable {data : Bytes} {pos : ℕ}

theorem headers_end (h : ¬pos < data.length / block) : headers data pos = [] := by
  rw [headers, if_neg h]

theorem headers_terminator (h : pos < data.length / block)
    (hzero : isZero (blockAt data pos) = true) : headers data pos = [] := by
  rw [headers, if_pos h, if_pos hzero]

theorem headers_skip (h : pos < data.length / block) (hzero : ¬isZero (blockAt data pos) = true)
    (hmagic : (!hasMagic (blockAt data pos)) = true) :
    headers data pos = headers data (pos + 1) := by
  conv_lhs => rw [headers, if_pos h, if_neg hzero, if_pos hmagic]

theorem headers_header (h : pos < data.length / block)
    (hzero : ¬isZero (blockAt data pos) = true)
    (hmagic : ¬(!hasMagic (blockAt data pos)) = true) :
    headers data pos = pos :: headers data (pos + 1 + dataBlocks (blockAt data pos)) := by
  conv_lhs => rw [headers, if_pos h, if_neg hzero, if_neg hmagic]

end Headers

theorem of_mem_headers {data : Bytes} {pos : ℕ} : ∀ p ∈ headers data pos,
    pos ≤ p ∧ p < data.length / block ∧ hasMagic (blockAt data p) = true := by
  fun_induction headers data pos with
  | case1 pos hlt hzero => simp
  | case2 pos hlt hzero hmagic ih =>
      intro p hp
      obtain ⟨hle, hrest⟩ := ih p hp
      exact ⟨(Nat.le_succ pos).trans hle, hrest⟩
  | case3 pos hlt hzero hmagic ih =>
      intro p hp
      rcases List.mem_cons.mp hp with rfl | hp
      · exact ⟨le_rfl, hlt, by simpa using hmagic⟩
      · obtain ⟨hle, hrest⟩ := ih p hp
        exact ⟨by omega, hrest⟩
  | case4 pos hlt => simp

/-- Two blocks that send the walk the same way. -/
def SameWay (b c : Bytes) : Prop :=
  isZero b = isZero c ∧ hasMagic b = hasMagic c ∧ dataBlocks b = dataBlocks c

theorem headers_congr {d e : Bytes} (hlen : d.length = e.length) {pos : ℕ}
    (h : ∀ q, pos ≤ q → q < d.length / block → SameWay (blockAt d q) (blockAt e q)) :
    headers d pos = headers e pos := by
  fun_induction headers d pos with
  | case1 pos hlt hzero =>
      obtain ⟨hz, -, -⟩ := h pos le_rfl hlt
      rw [hlen] at hlt
      rw [headers_terminator hlt (hz ▸ hzero)]
  | case2 pos hlt hzero hmagic ih =>
      obtain ⟨hz, hm, -⟩ := h pos le_rfl hlt
      rw [hlen] at hlt
      rw [headers_skip hlt (hz ▸ hzero) (hm ▸ hmagic)]
      exact ih fun q hq ↦ h q ((Nat.le_succ pos).trans hq)
  | case3 pos hlt hzero hmagic ih =>
      obtain ⟨hz, hm, hn⟩ := h pos le_rfl hlt
      have hrest := ih fun q hq ↦ h q (by omega)
      rw [hlen] at hlt
      rw [headers_header hlt (hz ▸ hzero) (hm ▸ hmagic), ← hn, hrest]
  | case4 pos hlt =>
      rw [hlen] at hlt
      rw [headers_end hlt]

section Settle

variable {s : State} {pos : ℕ}

theorem length_written (h : pos < s.data.length / block) :
    (checksumBytes (ustarChecksumCompute (blockAt s.data pos))).length = 8 :=
  length_checksumBytes (length_blockAt h)

theorem length_settle (h : pos < s.data.length / block) :
    (s.settle (pos * block)).data.length = s.data.length := by
  have hwritten := length_written h
  have hroom := block_le_of_lt h
  rw [State.settle, ← blockAt]
  split
  · rfl
  · apply length_overwrite
    rw [hwritten]
    have hinside : 148 + 8 ≤ block := by decide
    omega

theorem blockAt_settle (h : pos < s.data.length / block) :
    blockAt (s.settle (pos * block)).data pos = fixBlock (blockAt s.data pos) := by
  have hwritten := length_written h
  have hinside : 148 + (checksumBytes (ustarChecksumCompute (blockAt s.data pos))).length ≤
      block := by
    rw [hwritten]
    decide
  have hwrite := field_overwrite_inside (block_le_of_lt h) hinside
  rw [State.settle, fixBlock, ← blockAt]
  split
  · rfl
  · exact hwrite

theorem blockAt_settle_of_ne (h : pos < s.data.length / block) {q : ℕ} (hq : q ≠ pos) :
    blockAt (s.settle (pos * block)).data q = blockAt s.data q := by
  have hwritten := length_written h
  have hroom := block_le_of_lt h
  have hinside : 148 + 8 ≤ block := by decide
  have hstart : pos * block + 148 ≤ s.data.length := by omega
  have hapart : q * block + block ≤ pos * block + 148 ∨ pos * block + 148 +
      (checksumBytes (ustarChecksumCompute (blockAt s.data pos))).length ≤ q * block := by
    rw [hwritten]
    rcases Nat.lt_or_gt_of_ne hq with hlt | hlt
    · have hle := Nat.mul_le_mul_right block hlt
      rw [Nat.succ_mul] at hle
      exact .inl (hle.trans (Nat.le_add_right _ _))
    · have hle := Nat.mul_le_mul_right block hlt
      rw [Nat.succ_mul] at hle
      exact .inr (by omega)
  have hkept := field_overwrite_of_apart hstart hapart
  rw [State.settle, ← blockAt]
  split
  · rfl
  · exact hkept

end Settle

/-- The walk fixes the blocks it takes for headers, and no other. -/
theorem walk_spec (n pos : ℕ) (s : State) (hn : n = s.data.length / block) :
    (walk n pos s).data.length = s.data.length ∧
      ∀ q < n, blockAt (walk n pos s).data q =
        if q ∈ headers s.data pos then fixBlock (blockAt s.data q) else blockAt s.data q := by
  fun_induction walk n pos s with
  | case1 pos s hlt off b hzero =>
      rw [hn] at hlt
      rw [headers_terminator hlt hzero]
      simp
  | case2 pos s hlt off b hzero hmagic ih =>
      rw [hn] at hlt
      rw [headers_skip hlt hzero hmagic]
      exact ih hn
  | case3 pos s hlt off b hzero hmagic s' ih =>
      rw [hn] at hlt
      have hsame : dataBlocks (field s'.data off block) = dataBlocks (blockAt s.data pos) := by
        rw [← dataBlocks_fixBlock (length_blockAt hlt), ← blockAt_settle hlt]
        rfl
      have hlater : headers s'.data (pos + 1 + dataBlocks (field s'.data off block)) =
          headers s.data (pos + 1 + dataBlocks (blockAt s.data pos)) := by
        rw [hsame]
        apply headers_congr (length_settle hlt)
        intro q hq _
        rw [blockAt_settle_of_ne hlt (by omega)]
        exact ⟨rfl, rfl, rfl⟩
      obtain ⟨hlen, hblocks⟩ := ih (by rw [hn, length_settle hlt])
      refine ⟨hlen.trans (length_settle hlt), ?_⟩
      intro q hq
      rw [hblocks q hq, hlater, headers_header hlt hzero hmagic]
      by_cases hpos : q = pos
      · subst hpos
        have hnot : q ∉ headers s.data (q + 1 + dataBlocks (blockAt s.data q)) := by
          intro hmem
          have hle := (of_mem_headers q hmem).1
          omega
        rw [if_neg hnot, if_pos List.mem_cons_self]
        exact blockAt_settle hlt
      · rw [blockAt_settle_of_ne hlt hpos]
        simp [hpos]
  | case4 pos s hlt =>
      rw [hn] at hlt
      rw [headers_end hlt]
      simp

/-- A walk that meets sound headers only changes nothing. -/
theorem walk_eq_self (n pos : ℕ) (s : State) (hn : n = s.data.length / block)
    (hsound : ∀ q ∈ headers s.data pos,
      ustarChecksumRead (blockAt s.data q) = ustarChecksumCompute (blockAt s.data q)) :
    walk n pos s = s := by
  fun_induction walk n pos s with
  | case1 pos s hlt off b hzero => rfl
  | case2 pos s hlt off b hzero hmagic ih =>
      rw [hn] at hlt
      rw [headers_skip hlt hzero hmagic] at hsound
      exact ih hn hsound
  | case3 pos s hlt off b hzero hmagic s' ih =>
      rw [hn] at hlt
      rw [headers_header hlt hzero hmagic] at hsound
      have hsettle : s' = s := if_pos (hsound pos List.mem_cons_self)
      rw [hsettle] at ih ⊢
      exact ih hn fun q hq ↦ hsound q (List.mem_cons_of_mem _ hq)
  | case4 pos s hlt => rfl

end TarChecksumFix

end VeraqisRecover.Recovery
