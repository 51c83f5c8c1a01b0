import VeraqisRecover.Tar.Append

/-!
# Whole members

A trusted header with its data area, filled up to whole blocks.  Whole members
one after another, with zeros behind them, are walked member by member.
-/

namespace VeraqisRecover.Tar

open ByteString

structure WholeMember where
  bytes : Bytes
  trusted : headerAt bytes 0 = true
  length_eq : bytes.length = block + paddedSize (declaredSize (field bytes 0 block))

namespace WholeMember

def header (m : WholeMember) : Bytes := field m.bytes 0 block

def size (m : WholeMember) : ℕ := declaredSize m.header

def data (m : WholeMember) : Bytes := field m.bytes block m.size

/-- The segment of a whole member that stands at `o`. -/
def segment (m : WholeMember) (o : ℕ) : Segment where
  kind := .verifiedTarMember
  name := some (readName m.header)
  sourceOffset := o
  sourceEnd := o + m.bytes.length
  bytes := m.data
  note := s!"ustar checksum verified; {m.size} B data (header-proven)"

end WholeMember

def joined (ms : List WholeMember) : Bytes := ms.flatMap WholeMember.bytes

/-- The segments of whole members that stand from `o` on. -/
def wholeFrom : ℕ → List WholeMember → List Segment
  | _, [] => []
  | o, m :: ms => m.segment o :: wholeFrom (o + m.bytes.length) ms

theorem size_le_paddedSize (n : ℕ) : n ≤ paddedSize n := by
  rw [paddedSize, divCeil, block]
  omega

section Step

variable (pre rest : Bytes) (m : WholeMember)

theorem field_whole {a n : ℕ} (h : a + n ≤ m.bytes.length) :
    field (pre ++ (m.bytes ++ rest)) (pre.length + a) n = field m.bytes a n := by
  rw [field_append, field_append_left rest h]

theorem block_le_whole : block ≤ m.bytes.length := by
  rw [m.length_eq]
  exact Nat.le_add_right _ _

theorem field_whole_header :
    field (pre ++ (m.bytes ++ rest)) pre.length block = m.header := by
  have hfield := field_whole pre rest m (a := 0) (n := block) (by
    rw [Nat.zero_add]
    exact block_le_whole m)
  rwa [Nat.add_zero] at hfield

theorem headerAt_whole : headerAt (pre ++ (m.bytes ++ rest)) pre.length = true := by
  rw [headerAt, field_whole_header]
  exact m.trusted

theorem declaredEnd_whole_le : declaredEnd (pre ++ (m.bytes ++ rest)) pre.length ≤
    (pre ++ (m.bytes ++ rest)).length := by
  have hle := size_le_paddedSize m.size
  have hlen : m.bytes.length = block + paddedSize m.size := m.length_eq
  rw [declaredEnd, field_whole_header, ← WholeMember.size, List.length_append, List.length_append]
  omega

theorem memberSegment_whole : memberSegment (pre ++ (m.bytes ++ rest)) pre.length =
    m.segment pre.length := by
  have hle := size_le_paddedSize m.size
  have hlen : m.bytes.length = block + paddedSize m.size := m.length_eq
  have hdata := field_whole pre rest m (a := block) (n := m.size) (by omega)
  have hend : min (pre.length + block + paddedSize m.size) (pre ++ (m.bytes ++ rest)).length =
      pre.length + m.bytes.length := by
    rw [min_eq_left (by rw [List.length_append, List.length_append]; omega), hlen, Nat.add_assoc]
  rw [memberSegment, field_whole_header, ← WholeMember.size, hdata, hend]
  rfl

theorem nextPos_whole : nextPos (pre ++ (m.bytes ++ rest)) pre.length =
    pre.length + m.bytes.length := by
  have hlen : m.bytes.length = block + paddedSize m.size := m.length_eq
  rw [nextPos, if_pos (headerAt_whole pre rest m), if_pos (declaredEnd_whole_le pre rest m),
    field_whole_header, ← WholeMember.size, hlen, Nat.add_assoc]

end Step

/-- From any boundary on, the walk finds the whole members and nothing in the zeros. -/
theorem segmentsAt_joined (ms : List WholeMember) (n : ℕ) (pre : Bytes) :
    segmentsAt (pre ++ (joined ms ++ List.replicate n 0)) pre.length = wholeFrom pre.length ms := by
  induction ms generalizing pre with
  | nil => exact segmentsAt_zeros pre n le_rfl
  | cons m ms ih =>
      have hsplit : joined (m :: ms) ++ List.replicate n 0 =
          m.bytes ++ (joined ms ++ List.replicate n 0) := by
        rw [joined, List.flatMap_cons, List.append_assoc]
        rfl
      have hrest := ih (pre ++ m.bytes)
      rw [List.append_assoc, List.length_append] at hrest
      have hroom : pre.length + block ≤
          (pre ++ (m.bytes ++ (joined ms ++ List.replicate n 0))).length := by
        have hblock := block_le_whole m
        rw [List.length_append, List.length_append]
        omega
      rw [hsplit, segmentsAt_step hroom, memberAt,
        if_pos ⟨headerAt_whole pre _ m, declaredEnd_whole_le pre _ m⟩, memberSegment_whole,
        nextPos_whole, hrest]
      rfl

/-! ## The whole member behind a header of a damaged source -/

/-- Bytes from `pos` on, as many as the member takes on disk, short at the end of the source. -/
def spanAt (data : Bytes) (pos : ℕ) : Bytes :=
  field data pos (block + paddedSize (declaredSize (field data pos block)))

/-- The span, filled up with zeros. -/
def filledSpan (data : Bytes) (pos : ℕ) : Bytes :=
  spanAt data pos ++ List.replicate
    (block + paddedSize (declaredSize (field data pos block)) - (spanAt data pos).length) 0

theorem length_spanAt (data : Bytes) (pos : ℕ) : (spanAt data pos).length =
    min (block + paddedSize (declaredSize (field data pos block))) (data.length - pos) := by
  rw [spanAt, field, List.length_take, List.length_drop]

theorem length_filledSpan (data : Bytes) (pos : ℕ) : (filledSpan data pos).length =
    block + paddedSize (declaredSize (field data pos block)) := by
  have hle := length_spanAt data pos
  rw [filledSpan, List.length_append, List.length_replicate]
  omega

/-- Inside of the declared data the span is the source. -/
theorem field_filledSpan {data : Bytes} {pos a n : ℕ}
    (hspan : a + n ≤ block + paddedSize (declaredSize (field data pos block)))
    (hdata : pos + a + n ≤ data.length) :
    field (filledSpan data pos) a n = field data (pos + a) n := by
  have hlen := length_spanAt data pos
  rw [filledSpan, field_append_left _ (by omega), spanAt, field_field _ _ hspan]

theorem field_filledSpan_header {data : Bytes} {pos : ℕ} (h : pos + block ≤ data.length) :
    field (filledSpan data pos) 0 block = field data pos block :=
  field_filledSpan (by omega) h

/-- The member whose trusted header stands at `pos`, made whole. -/
def wholeAt (data : Bytes) (pos : ℕ) (h : pos + block ≤ data.length)
    (ht : headerAt data pos = true) : WholeMember where
  bytes := filledSpan data pos
  trusted := by
    rw [headerAt, field_filledSpan_header h]
    exact ht
  length_eq := by rw [length_filledSpan, field_filledSpan_header h]

theorem data_wholeAt {data : Bytes} {pos : ℕ} (h : pos + block ≤ data.length)
    (ht : headerAt data pos = true) (hend : declaredEnd data pos ≤ data.length) :
    (wholeAt data pos h ht).data = (memberSegment data pos).bytes := by
  have hle := size_le_paddedSize (declaredSize (field data pos block))
  rw [declaredEnd] at hend
  have hsize : (wholeAt data pos h ht).size = declaredSize (field data pos block) := by
    rw [WholeMember.size, WholeMember.header]
    exact congrArg declaredSize (field_filledSpan_header h)
  rw [WholeMember.data, hsize]
  exact field_filledSpan (by omega) hend

end VeraqisRecover.Tar
