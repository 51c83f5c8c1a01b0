import VeraqisRecover.Tar.Build

/-!
# Salvage of an interrupted stream

A stream of well-formed members with unreadable blocks anywhere between them.
The walk stays in step with the member boundaries whatever the members'
data contains, so every member comes back exactly and nothing else does.
-/

namespace VeraqisRecover.Tar

open ByteString LossyUtf8

theorem length_le_paddedSize (n : ℕ) : n ≤ paddedSize n := by
  unfold paddedSize divCeil block
  omega

theorem tarMember_eq (m : Member) : tarMember m.name m.data =
    m.header ++ (m.data ++ List.replicate (paddedSize m.data.length - m.data.length) 0) :=
  List.append_assoc _ _ _

theorem length_tarMember (m : Member) :
    (tarMember m.name m.data).length = block + paddedSize m.data.length := by
  have hle := length_le_paddedSize m.data.length
  rw [tarMember_eq, List.length_append, List.length_append, List.length_replicate,
    m.length_header]
  omega

/-- A block the salvager steps over. -/
structure NoiseBlock where
  bytes : Bytes
  length_eq : bytes.length = block
  unreadable : isZero bytes = true ∨ ¬ (hasMagic bytes = true ∧ checksumHolds bytes = true)

inductive StreamItem
  | member (m : Member)
  | noise (b : NoiseBlock)

namespace StreamItem

def bytes : StreamItem → Bytes
  | member m => tarMember m.name m.data
  | noise b => b.bytes

end StreamItem

def stream (items : List StreamItem) : Bytes := items.flatMap StreamItem.bytes

/-- The segment a member that stands at `o` comes back as. -/
def Member.segment (m : Member) (o : ℕ) : Segment where
  kind := .verifiedTarMember
  name := some m.name
  sourceOffset := o
  sourceEnd := o + (tarMember m.name m.data).length
  bytes := m.data
  note := s!"ustar checksum verified; {m.data.length} B data (header-proven)"

/-- The members' segments when the items stand from `o` on. -/
def segmentsFrom : ℕ → List StreamItem → List Segment
  | _, [] => []
  | o, .noise b :: rest => segmentsFrom (o + b.bytes.length) rest
  | o, .member m :: rest => m.segment o :: segmentsFrom (o + (tarMember m.name m.data).length) rest

/-! ## One step -/

theorem headerAt_noise (pre : Bytes) (b : NoiseBlock) (rest : Bytes) :
    headerAt (pre ++ (b.bytes ++ rest)) pre.length = false := by
  have hshift := field_append pre (b.bytes ++ rest) 0 block
  rw [Nat.add_zero, field_zero_length b.length_eq] at hshift
  rw [headerAt, hshift, ← Bool.not_eq_true, Bool.and_eq_true]
  rcases b.unreadable with hzero | hheader
  · rintro ⟨hmagic, -⟩
    simp [isZero_of_hasMagic hmagic] at hzero
  · exact hheader

theorem field_header (pre : Bytes) (m : Member) (rest : Bytes) :
    field (pre ++ (tarMember m.name m.data ++ rest)) pre.length block = m.header := by
  have hshift := field_append pre (tarMember m.name m.data ++ rest) 0 block
  rw [Nat.add_zero] at hshift
  rw [hshift, tarMember_eq, List.append_assoc]
  exact field_zero_length m.length_header _

theorem field_data (pre : Bytes) (m : Member) (rest : Bytes) :
    field (pre ++ (tarMember m.name m.data ++ rest)) (pre.length + block) m.data.length =
      m.data := by
  have hshift := field_append m.header
    (m.data ++ List.replicate (paddedSize m.data.length - m.data.length) 0 ++ rest) 0
    m.data.length
  rw [Nat.add_zero, m.length_header, List.append_assoc] at hshift
  rw [field_append, tarMember_eq, List.append_assoc, List.append_assoc, hshift]
  exact field_zero_length rfl _

theorem headerAt_member (pre : Bytes) (m : Member) (rest : Bytes) :
    headerAt (pre ++ (tarMember m.name m.data ++ rest)) pre.length = true := by
  rw [headerAt, field_header, m.hasMagic_header, m.checksumHolds_header]
  rfl

theorem declaredEnd_member_le (pre : Bytes) (m : Member) (rest : Bytes) :
    declaredEnd (pre ++ (tarMember m.name m.data ++ rest)) pre.length ≤
      (pre ++ (tarMember m.name m.data ++ rest)).length := by
  have hle := length_le_paddedSize m.data.length
  have hlen := length_tarMember m
  rw [declaredEnd, field_header, m.declaredSize_header]
  simp only [List.length_append]
  omega

theorem memberSegment_member (pre : Bytes) (m : Member) (rest : Bytes) :
    memberSegment (pre ++ (tarMember m.name m.data ++ rest)) pre.length =
      m.segment pre.length := by
  have hlen := length_tarMember m
  unfold memberSegment Member.segment
  dsimp only
  rw [field_header, m.declaredSize_header, m.readName_header, field_data, hlen,
    min_eq_left (by simp only [List.length_append]; omega), Nat.add_assoc]

/-! ## The run -/

theorem block_le_length (item : StreamItem) : block ≤ item.bytes.length := by
  cases item with
  | member m =>
      have hlen := length_tarMember m
      show block ≤ (tarMember m.name m.data).length
      omega
  | noise b => exact b.length_eq.ge

/-- From any boundary on, the walk finds the members still to come. -/
theorem segmentsAt_stream (items : List StreamItem) (pre : Bytes) :
    segmentsAt (pre ++ stream items) pre.length = segmentsFrom pre.length items := by
  induction items generalizing pre with
  | nil => exact segmentsAt_end (by simp [stream, block])
  | cons item items ih =>
      have hblock := block_le_length item
      have hsplit : pre ++ stream (item :: items) = pre ++ (item.bytes ++ stream items) := by
        simp [stream]
      have hrest := ih (pre ++ item.bytes)
      rw [List.append_assoc, List.length_append] at hrest
      rw [hsplit, segmentsAt_step (by simp only [List.length_append]; omega)]
      cases item with
      | noise b =>
          have hheader := headerAt_noise pre b (stream items)
          rw [StreamItem.bytes] at hrest ⊢
          rw [memberAt, if_neg (by simp [hheader]), nextPos, if_neg (by simp [hheader]),
            ← b.length_eq, hrest]
          rfl
      | member m =>
          have hheader := headerAt_member pre m (stream items)
          have hend := declaredEnd_member_le pre m (stream items)
          rw [StreamItem.bytes] at hrest ⊢
          rw [memberAt, if_pos ⟨hheader, hend⟩, nextPos, if_pos hheader, if_pos hend,
            memberSegment_member, field_header, m.declaredSize_header, Nat.add_assoc,
            ← length_tarMember, hrest]
          rfl

/-- Salvage of a stream returns its members and nothing else. -/
theorem salvageTar_stream (items : List StreamItem) :
    (salvageTar (stream items)).segments = segmentsFrom 0 items := by
  rw [salvageTar_segments]
  exact segmentsAt_stream items []

/-! ## An interrupted stream -/

def noted : Member := ⟨['n'], [0x68, 0x69], by decide, by decide, by decide, by decide⟩

def listed : Member := ⟨['l'], [0x6B], by decide, by decide, by decide, by decide⟩

def zeroBlock : NoiseBlock where
  bytes := List.replicate block 0
  length_eq := List.length_replicate
  unreadable := .inl (by decide +kernel)

/-- The header of a member, its first letter changed. -/
def damagedHeader : NoiseBlock where
  bytes := listed.header.set 0 0x63
  length_eq := by rw [List.length_set, listed.length_header]
  unreadable := .inr (by decide +kernel)

def interrupted : List StreamItem :=
  [.member noted, .noise zeroBlock, .noise damagedHeader, .member listed]

example : (salvageTar (stream interrupted)).segments.map
    (fun g ↦ (g.name, g.sourceOffset, g.sourceEnd, g.bytes)) =
      [(some ['n'], 0, 1024, [0x68, 0x69]), (some ['l'], 2048, 3072, [0x6B])] := by
  decide +kernel

end VeraqisRecover.Tar
