import VeraqisRecover.Recovery.TarPieces

/-!
# Resynchronising a healthy archive

Nothing is lost when the members' data shows no header and no pair of zero
blocks.  A block of data with the magic becomes a member of its own, and a pair
of zero blocks ends the last member early.
-/

namespace VeraqisRecover.Recovery

open ByteString LossyUtf8 VeraqisRecover.Tar

namespace TarSizeBoundaryResync

/-- The data, filled up to whole blocks. -/
def paddedData (d : Bytes) : Bytes := d ++ List.replicate (paddedSize d.length - d.length) 0

theorem length_paddedData (d : Bytes) : (paddedData d).length = paddedSize d.length := by
  have hle := size_le_paddedSize d.length
  rw [paddedData, List.length_append, List.length_replicate]
  omega

/-- A member as the writer puts it into the archive. -/
def pieceOf (e : Entry) : Piece where
  header := e.header
  body := paddedData e.data
  length_header := e.length_header
  magic := e.hasMagic_header
  aligned := by
    rw [length_paddedData]
    exact Dvd.intro_left _ rfl

def archiveOf (es : List Entry) : Bytes := tarArchive (es.map fun e ↦ (e.name, e.data))

theorem archiveOf_eq (es : List Entry) : archiveOf es = pieceArchive (es.map pieceOf) := by
  have hmembers : ((es.map fun e ↦ (e.name, e.data)).flatMap fun m ↦ tarMember m.1 m.2) =
      piecesBytes (es.map pieceOf) := by
    rw [piecesBytes, List.flatMap_map, List.flatMap_map]
    apply List.flatMap_congr
    intro e _
    exact List.append_assoc _ _ _
  have hblocks : 2 * block = 1024 := rfl
  rw [archiveOf, tarArchive, pieceArchive, hmembers, hblocks]

/-- What the salvager makes of a member: its name up to a NUL, and its data. -/
def memberOfEntry (e : Entry) : Option Text × Bytes := (some (cstr (asBytes e.name)), e.data)

theorem storedSize_header (e : Entry) : storedSize e.header = e.data.length := by
  have hsmall := e.small
  have hword : e.data.length ≤ wordMax := by
    have hle : 8 ^ 11 ≤ wordMax := by decide
    omega
  rw [storedSize, e.field_size, octalField_padded 11 hword rfl, Option.getD_some]

theorem found_pieceOf (e : Entry) {maxData : ℕ} (h : paddedSize e.data.length ≤ maxData) :
    (pieceOf e).found maxData = memberOfEntry e := by
  have htake : (paddedData e.data).take e.data.length = e.data := List.take_left
  rw [Piece.found, pieceOf]
  dsimp only
  rw [storedSize_header, extent_of_fits h, e.readName_header, htake]
  rfl

/-- A member is found whole only when its data fits. -/
theorem fits_of_found {e : Entry} {maxData : ℕ} (h : (pieceOf e).found maxData = memberOfEntry e) :
    paddedSize e.data.length ≤ maxData := by
  by_contra hexceeds
  have hlt := not_le.mp hexceeds
  have hdata : (paddedData e.data).take (extent (storedSize e.header) maxData).size = e.data :=
    congrArg Prod.snd h
  have hlen := congrArg List.length hdata
  rw [storedSize_header, extent_of_exceeds hlt, List.length_take, length_paddedData] at hlen
  have hle := Nat.div_mul_le_self maxData block
  dsimp only at hlen
  rw [min_eq_left (by omega)] at hlen
  rw [← hlen] at hlt
  generalize maxData / block = n at hle hlt
  unfold paddedSize divCeil block at *
  omega

/-! ## Preservation -/

/-- The archive is written again with exactly its members. -/
def Preserved (es : List Entry) : Prop :=
  ∃ output report, apply (archiveOf es) = some (.ok (output, report)) ∧ report.success = true ∧
    verifiedMembers output = es.map memberOfEntry

/-- The blocks in front of the terminator. -/
def memberBlocks (es : List Entry) : ℕ := (es.map fun e ↦ 1 + divCeil e.data.length block).sum

/-- What the data of the members must not show. -/
structure Unambiguous (es : List Entry) : Prop where
  nonempty : es ≠ []
  noMagic : ∀ e ∈ es, AllBlocks (fun b ↦ hasMagic b = false) (paddedData e.data)
  noZeros : (∀ e ∈ es.getLast?, e.data = []) ∨
    ∀ i < memberBlocks es, ¬ZeroPairAt (archiveOf es) i

theorem length_piecesBytes (es : List Entry) :
    (piecesBytes (es.map pieceOf)).length = memberBlocks es * block := by
  induction es with
  | nil => rfl
  | cons e es ih =>
      have hbody : (pieceOf e).body.length = paddedSize e.data.length := length_paddedData _
      rw [List.map_cons, piecesBytes, List.flatMap_cons, ← piecesBytes, List.length_append, ih,
        (pieceOf e).length_bytes, hbody, memberBlocks, memberBlocks, List.map_cons,
        List.sum_cons, Nat.add_mul, Nat.add_mul, Nat.one_mul]
      rfl

/-- Where the resynchronisation takes the archive to end. -/
def endOf (es : List Entry) : ℕ :=
  findEndOfArchive (archiveOf es) ((archiveOf es).length / block)

theorem endOf_spec (es : List Entry) :
    endOf es ≤ (piecesBytes (es.map pieceOf)).length ∧
      (endOf es = (piecesBytes (es.map pieceOf)).length ↔
        ∀ i < memberBlocks es, ¬ZeroPairAt (archiveOf es) i) := by
  rw [endOf, archiveOf_eq]
  exact findEndOfArchive_spec _ (length_piecesBytes es)

/-- If every member is found whole, the archive ends behind the last one, or that has no data. -/
theorem last_of_foundFrom (eoa o : ℕ) (es : List Entry)
    (heoa : eoa ≤ o + (piecesBytes (es.map pieceOf)).length)
    (h : foundFrom eoa o (es.map pieceOf) = es.map memberOfEntry) :
    ∀ e ∈ es.getLast?, e.data = [] ∨ eoa = o + (piecesBytes (es.map pieceOf)).length := by
  induction es generalizing o with
  | nil => simp
  | cons e es ih =>
      have hlen := (pieceOf e).length_bytes
      have hbody : (pieceOf e).body.length = paddedSize e.data.length := length_paddedData _
      have hbytes : (piecesBytes ((e :: es).map pieceOf)).length =
          (pieceOf e).bytes.length + (piecesBytes (es.map pieceOf)).length := List.length_append
      rw [List.map_cons, List.map_cons, foundFrom] at h
      obtain ⟨hfirst, hrest⟩ := List.cons.inj h
      rw [hbytes] at heoa ⊢
      cases es with
      | nil =>
          intro f hf
          obtain rfl := Option.some.inj hf
          rw [List.map_nil, if_pos rfl] at hfirst
          have hfits := fits_of_found hfirst
          have hnil : (piecesBytes (([] : List Entry).map pieceOf)).length = 0 := rfl
          by_cases hzero : e.data.length = 0
          · exact .inl (List.eq_nil_of_length_eq_zero hzero)
          · have hpos := size_le_paddedSize e.data.length
            right
            omega
      | cons f es =>
          intro g hg
          rw [List.getLast?_cons_cons] at hg
          rcases ih (o + (pieceOf e).bytes.length) (by omega) hrest g hg with hempty | hend
          · exact .inl hempty
          · exact .inr (by omega)

theorem plain_pieceOf {es : List Entry}
    (h : ∀ e ∈ es, AllBlocks (fun b ↦ hasMagic b = false) (paddedData e.data)) :
    ∀ p ∈ es.map pieceOf, p.Plain := by
  intro p hp
  obtain ⟨e, he, rfl⟩ := List.mem_map.mp hp
  exact h e he

theorem members_of_plain {es : List Entry}
    (h : ∀ e ∈ es, AllBlocks (fun b ↦ hasMagic b = false) (paddedData e.data)) :
    (spans (archiveOf es)).map (salvaged (archiveOf es)) =
      foundFrom (endOf es) 0 (es.map pieceOf) := by
  have hend := (endOf_spec es).1
  have hfound := map_salvaged_pieceSpans (endOf es) 1024 (es.map pieceOf) [] (by
    rw [List.length_nil, Nat.zero_add]
    exact hend)
  rw [endOf, archiveOf_eq] at hfound ⊢
  rw [spans_pieceArchive (plain_pieceOf h)]
  exact hfound

theorem unambiguous_of_preserved {es : List Entry} (h : Preserved es) : Unambiguous es := by
  obtain ⟨output, report, happly, hwritten, hmembers⟩ := h
  obtain ⟨hne, -, hspans⟩ := of_apply happly hwritten
  rw [hmembers] at hspans
  have hplain : ∀ p ∈ es.map pieceOf, p.Plain := by
    apply plain_of_length (n := 1024)
    have hcount := congrArg List.length hspans
    rw [List.length_map, List.length_map] at hcount
    rw [← pieceArchive, ← archiveOf_eq, ← map_fst_spans, List.length_map, List.length_map, hcount]
  have hnoMagic : ∀ e ∈ es, AllBlocks (fun b ↦ hasMagic b = false) (paddedData e.data) :=
    fun e he ↦ hplain (pieceOf e) (List.mem_map_of_mem he)
  refine ⟨?_, hnoMagic, ?_⟩
  · rintro rfl
    exact hne (headerPositions_zeros 1024)
  · rw [members_of_plain hnoMagic] at hspans
    have hlast := last_of_foundFrom (endOf es) 0 es
      (by rw [Nat.zero_add]; exact (endOf_spec es).1) hspans.symm
    rw [Nat.zero_add] at hlast
    by_cases hend : endOf es = (piecesBytes (es.map pieceOf)).length
    · exact .inr ((endOf_spec es).2.mp hend)
    · exact .inl fun e he ↦ (hlast e he).resolve_right hend

theorem preserved_of_unambiguous {es : List Entry} (h : Unambiguous es) : Preserved es := by
  have hplain := plain_pieceOf h.noMagic
  have hend := (endOf_spec es).1
  have hpositions : headerPositions (archiveOf es) ≠ [] := by
    intro hnil
    have hcount := length_headerPositions (es.map pieceOf) 1024
    rw [← pieceArchive, ← archiveOf_eq, hnil, List.length_nil, List.length_map] at hcount
    have hpos := List.length_pos_of_ne_nil h.nonempty
    omega
  have hsize : ∀ s ∈ spans (archiveOf es), (extentAt (archiveOf es) s.1 s.2).size < 8 ^ 11 := by
    intro s hs
    rw [archiveOf_eq, spans_pieceArchive hplain, ← archiveOf_eq, ← endOf] at hs
    obtain ⟨p, hp, hheader, -⟩ := of_mem_pieceSpans (endOf es) (es.map pieceOf) []
      (List.replicate 1024 0) (by rw [List.length_nil, Nat.zero_add]; exact hend) s hs
    obtain ⟨e, -, rfl⟩ := List.mem_map.mp hp
    rw [List.nil_append, ← pieceArchive, ← archiveOf_eq] at hheader
    rw [extentAt, hheader]
    refine (size_le_stored _ _).trans_lt ?_
    exact (storedSize_header e).trans_lt e.small
  obtain ⟨output, report, happly, hwritten⟩ := exists_apply hpositions hsize
  refine ⟨output, report, happly, hwritten, ?_⟩
  rw [(of_apply happly hwritten).2.2, members_of_plain h.noMagic, foundFrom_eq, List.map_map]
  · apply List.map_congr_left
    intro e _
    exact found_pieceOf e (length_paddedData _).ge
  · intro p hp
    rw [List.getLast?_map] at hp
    obtain ⟨e, he, rfl⟩ := Option.map_eq_some_iff.mp hp
    rcases h.noZeros with hempty | hnone
    · right
      rw [pieceOf]
      dsimp only
      rw [storedSize_header, hempty e he]
      rfl
    · left
      rw [Nat.zero_add]
      exact (endOf_spec es).2.mpr hnone

/-- A healthy archive is written again with its members exactly when their data is unambiguous. -/
theorem resync_preserves_iff (es : List Entry) : Preserved es ↔ Unambiguous es :=
  ⟨unambiguous_of_preserved, preserved_of_unambiguous⟩

theorem letter_short : (asBytes ['a']).length ≤ 100 := by decide

/-- A block of data that shows the magic and nothing else. -/
def magicData : Entry where
  name := ['a']
  data := List.replicate 257 0 ++ ustar ++ List.replicate 250 0
  short := by decide
  small := by decide +kernel

/-- Its data is taken for a header, and the member is left without it. -/
theorem magicData_not_preserved : ¬Preserved [magicData] := by
  intro hpreserved
  have hmagic := (unambiguous_of_preserved hpreserved).noMagic magicData List.mem_cons_self 0
    (by decide +kernel)
  revert hmagic
  decide

end TarSizeBoundaryResync

end VeraqisRecover.Recovery
