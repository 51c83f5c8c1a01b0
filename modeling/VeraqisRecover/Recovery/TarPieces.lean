import VeraqisRecover.Recovery.TarSizeResync

/-!
# Archives as headers with data

An archive in pieces: a header block and the whole blocks behind it.  The
resynchronisation finds a header for every piece, and further ones in the data
exactly where a block of the data carries the magic.
-/

namespace VeraqisRecover.Recovery

open ByteString VeraqisRecover.Tar

namespace TarSizeBoundaryResync

structure Piece where
  header : Bytes
  body : Bytes
  length_header : header.length = block
  magic : hasMagic header = true
  aligned : block ∣ body.length

namespace Piece

def bytes (p : Piece) : Bytes := p.header ++ p.body

theorem length_bytes (p : Piece) : p.bytes.length = block + p.body.length := by
  rw [bytes, List.length_append, p.length_header]

theorem block_dvd_bytes (p : Piece) : block ∣ p.bytes.length := by
  rw [p.length_bytes]
  exact (dvd_refl block).add p.aligned

/-- No block of the data carries the magic. -/
def Plain (p : Piece) : Prop := AllBlocks (fun b ↦ hasMagic b = false) p.body

end Piece

def piecesBytes (ps : List Piece) : Bytes := ps.flatMap Piece.bytes

/-- The pieces and the terminator. -/
def pieceArchive (ps : List Piece) : Bytes := piecesBytes ps ++ List.replicate 1024 0

theorem block_dvd_piecesBytes (ps : List Piece) : block ∣ (piecesBytes ps).length := by
  induction ps with
  | nil => exact dvd_zero block
  | cons p ps ih =>
      rw [piecesBytes, List.flatMap_cons, List.length_append]
      exact p.block_dvd_bytes.add ih

/-! ## Where headers are found -/

theorem isUstarHeader_eq {b : Bytes} (h : b.length = block) : isUstarHeader b = hasMagic b := by
  have hlen : b.length = 512 := h
  rw [isUstarHeader, if_neg (by omega)]
  cases hmagic : hasMagic b with
  | true => rw [isZero_of_hasMagic hmagic]; rfl
  | false => split <;> rfl

theorem headerPositions_append {a : Bytes} (ha : block ∣ a.length) (b : Bytes) :
    headerPositions (a ++ b) =
      headerPositions a ++ (headerPositions b).map (a.length + ·) := by
  obtain ⟨k, hk⟩ := ha
  rw [Nat.mul_comm] at hk
  have hdiv : a.length / block = k := by rw [hk, Nat.mul_div_cancel k (by decide)]
  rw [headerPositions, div_length_append hk, List.range_add, List.map_append, List.filter_append,
    headerPositions, hdiv]
  congr 1
  · apply List.filter_congr
    intro off hoff
    obtain ⟨q, hq, rfl⟩ := List.mem_map.mp hoff
    have hin : q < a.length / block := by
      rw [hdiv]
      exact List.mem_range.mp hq
    exact congrArg isUstarHeader (blockAt_append_left hin b)
  · rw [headerPositions, List.map_map, List.filter_map, List.filter_map, List.map_map]
    have hshift : (fun off ↦ isUstarHeader (field (a ++ b) off block)) ∘
        ((· * block) ∘ (k + ·)) =
          (fun off ↦ isUstarHeader (field b off block)) ∘ (· * block) := by
      funext q
      exact congrArg isUstarHeader (blockAt_append_right hk b q)
    have hplace : (· * block) ∘ (k + ·) = (a.length + ·) ∘ (· * block) := by
      funext q
      exact (Nat.add_mul k q block).trans (by rw [hk]; rfl)
    rw [hshift, hplace]

theorem headerPositions_eq_nil_iff {d : Bytes} :
    headerPositions d = [] ↔ AllBlocks (fun b ↦ hasMagic b = false) d := by
  rw [headerPositions, List.filter_eq_nil_iff]
  constructor
  · intro hnone q hq
    have hno := hnone (q * block) (List.mem_map_of_mem (List.mem_range.mpr hq))
    rw [← blockAt, isUstarHeader_eq (length_blockAt hq)] at hno
    exact eq_false_of_ne_true hno
  · intro hall off hoff
    obtain ⟨q, hq, rfl⟩ := List.mem_map.mp hoff
    have hlt := List.mem_range.mp hq
    rw [← blockAt, isUstarHeader_eq (length_blockAt hlt), hall q hlt]
    decide

theorem allBlocks_zeros (P : Bytes → Prop) (hP : P (List.replicate block 0)) (n : ℕ) :
    AllBlocks P (List.replicate n 0) := by
  intro q hq
  have hle := block_le_of_lt hq
  rw [List.length_replicate] at hle
  rw [blockAt, Entry.field_replicate hle]
  exact hP

theorem headerPositions_zeros (n : ℕ) : headerPositions (List.replicate n 0) = [] :=
  headerPositions_eq_nil_iff.mpr (allBlocks_zeros _ (by decide) n)

theorem headerPositions_bytes (p : Piece) :
    headerPositions p.bytes = 0 :: (headerPositions p.body).map (block + ·) := by
  have hone : headerPositions p.header = [0] := by
    have hdiv : p.header.length / block = 1 := by
      rw [p.length_header]
      rfl
    have hfield : field p.header 0 block = p.header := by
      have hwhole := field_zero_length p.length_header []
      rwa [List.append_nil] at hwhole
    have hheader : isUstarHeader (field p.header 0 block) = true := by
      rw [hfield, isUstarHeader_eq p.length_header, p.magic]
    rw [headerPositions, hdiv]
    exact List.filter_cons_of_pos hheader
  rw [Piece.bytes, headerPositions_append p.length_header.symm.dvd, hone, p.length_header]
  rfl

/-- Where the pieces' own headers stand. -/
def offsets : ℕ → List Piece → List ℕ
  | _, [] => []
  | o, p :: ps => o :: offsets (o + p.bytes.length) ps

/-- Plain pieces show their own headers and no other. -/
theorem headerPositions_pieces (ps : List Piece) (hplain : ∀ p ∈ ps, p.Plain) (pre : Bytes)
    (hpre : block ∣ pre.length) (n : ℕ) :
    headerPositions (pre ++ (piecesBytes ps ++ List.replicate n 0)) =
      headerPositions pre ++ offsets pre.length ps := by
  induction ps generalizing pre with
  | nil =>
      rw [piecesBytes, List.flatMap_nil, List.nil_append, headerPositions_append hpre,
        headerPositions_zeros]
      rfl
  | cons p ps ih =>
      have hbody : headerPositions p.body = [] :=
        headerPositions_eq_nil_iff.mpr (hplain p List.mem_cons_self)
      have hrest := ih (fun q hq ↦ hplain q (List.mem_cons_of_mem p hq)) (pre ++ p.bytes) (by
        rw [List.length_append]
        exact hpre.add p.block_dvd_bytes)
      rw [piecesBytes, List.flatMap_cons, List.append_assoc, ← List.append_assoc, ← piecesBytes,
        hrest, headerPositions_append hpre, headerPositions_bytes, hbody, List.length_append,
        List.append_assoc]
      rfl

/-- Every block of the data that carries the magic is one header more. -/
theorem length_headerPositions (ps : List Piece) (n : ℕ) :
    (headerPositions (piecesBytes ps ++ List.replicate n 0)).length =
      ps.length + (ps.map fun p ↦ (headerPositions p.body).length).sum := by
  induction ps with
  | nil =>
      rw [piecesBytes, List.flatMap_nil, List.nil_append, headerPositions_zeros]
      rfl
  | cons p ps ih =>
      rw [piecesBytes, List.flatMap_cons, List.append_assoc, ← piecesBytes,
        headerPositions_append p.block_dvd_bytes, headerPositions_bytes, List.length_append,
        List.length_map, ih, List.length_cons, List.length_map, List.length_cons, List.map_cons,
        List.sum_cons]
      omega

/-- There are as many headers as pieces only when all are plain. -/
theorem plain_of_length {ps : List Piece} {n : ℕ}
    (h : (headerPositions (piecesBytes ps ++ List.replicate n 0)).length = ps.length) :
    ∀ p ∈ ps, p.Plain := by
  rw [length_headerPositions] at h
  intro p hp
  apply headerPositions_eq_nil_iff.mp
  apply List.eq_nil_of_length_eq_zero
  have hle := List.single_le_sum (fun x _ ↦ Nat.zero_le x) _
    (List.mem_map_of_mem (f := fun p : Piece ↦ (headerPositions p.body).length) hp)
  omega

/-! ## Where the archive is taken to end -/

/-- Two consecutive zero blocks stand at block `i`. -/
def ZeroPairAt (data : Bytes) (i : ℕ) : Prop :=
  isZero (blockAt data i) = true ∧ isZero (blockAt data (i + 1)) = true

theorem findEndOfArchive_spec (body : Bytes) {k : ℕ} (hk : body.length = k * block) :
    findEndOfArchive (body ++ List.replicate 1024 0)
        ((body ++ List.replicate 1024 (0 : UInt8)).length / block) ≤ body.length ∧
      (findEndOfArchive (body ++ List.replicate 1024 0)
          ((body ++ List.replicate 1024 (0 : UInt8)).length / block) = body.length ↔
        ∀ i < k, ¬ZeroPairAt (body ++ List.replicate 1024 0) i) := by
  have hdiv : (body ++ List.replicate 1024 (0 : UInt8)).length / block = k + 2 := by
    rw [div_length_append hk, List.length_replicate]
    rfl
  have hzero : ∀ j < 2, isZero (blockAt (body ++ List.replicate 1024 0) (k + j)) = true := by
    intro j hj
    rw [blockAt_append_right hk]
    have hin : j < (List.replicate 1024 (0 : UInt8)).length / block := by
      rw [List.length_replicate]
      exact hj
    exact allBlocks_zeros (fun b ↦ isZero b = true) (by decide +kernel) 1024 j hin
  have hpair : ZeroPairAt (body ++ List.replicate 1024 0) k :=
    ⟨hzero 0 (by decide), hzero 1 (by decide)⟩
  rw [hdiv, findEndOfArchive]
  cases hfind : (List.range (k + 2 - 1)).find? fun i ↦
      isZero (field (body ++ List.replicate 1024 0) (i * block) block) &&
        isZero (field (body ++ List.replicate 1024 0) ((i + 1) * block) block) with
  | none =>
      have hno := List.find?_eq_none.mp hfind k (List.mem_range.mpr (by omega))
      exact absurd ((Bool.and_eq_true _ _).mpr hpair) hno
  | some i =>
      obtain ⟨hi, -, hfirst⟩ := List.find?_range_eq_some.mp hfind
      have hle : i ≤ k := by
        by_contra hlt
        have hno := hfirst k (not_le.mp hlt)
        rw [Bool.not_eq_true', ← Bool.not_eq_true] at hno
        exact hno ((Bool.and_eq_true _ _).mpr hpair)
      dsimp only
      rw [hk]
      refine ⟨Nat.mul_le_mul_right block hle, ?_⟩
      constructor
      · intro heq j hj hzeros
        have hik : i = k := Nat.eq_of_mul_eq_mul_right (by decide) heq
        have hno := hfirst j (by omega)
        rw [Bool.not_eq_true', ← Bool.not_eq_true] at hno
        exact hno ((Bool.and_eq_true _ _).mpr hzeros)
      · intro hnone
        have hik : i = k := by
          by_contra hne
          exact hnone i (by omega) ((Bool.and_eq_true _ _).mp hi)
        rw [hik]

/-! ## What is salvaged from the rebuilt archive -/

/-- Each own header with its boundary: the next header, or what the archive is taken to end at. -/
def pieceSpans (eoa : ℕ) : ℕ → List Piece → List (ℕ × ℕ)
  | _, [] => []
  | o, p :: ps =>
      (o, if ps = [] then eoa else o + p.bytes.length) :: pieceSpans eoa (o + p.bytes.length) ps

theorem zip_offsets (eoa o : ℕ) (ps : List Piece) :
    (offsets o ps).zip ((offsets o ps).tail ++ [eoa]) = pieceSpans eoa o ps := by
  induction ps generalizing o with
  | nil => rfl
  | cons p ps ih =>
      have hrest := ih (o + p.bytes.length)
      cases ps with
      | nil => rfl
      | cons q ps =>
          rw [pieceSpans, if_neg (List.cons_ne_nil q ps), ← hrest]
          rfl

theorem spans_pieceArchive {ps : List Piece} (hplain : ∀ p ∈ ps, p.Plain) :
    spans (pieceArchive ps) =
      pieceSpans (findEndOfArchive (pieceArchive ps) ((pieceArchive ps).length / block)) 0 ps := by
  have hpositions := headerPositions_pieces ps hplain [] (dvd_zero block) 1024
  have hempty : headerPositions [] = [] := rfl
  rw [List.nil_append, hempty, List.nil_append, List.length_nil, ← pieceArchive] at hpositions
  rw [spans, hpositions]
  exact zip_offsets _ 0 ps

/-- What a piece is salvaged with when `maxData` bytes are its own. -/
def Piece.found (p : Piece) (maxData : ℕ) : Option Text × Bytes :=
  (some (readName p.header), p.body.take (extent (storedSize p.header) maxData).size)

theorem size_le_blocks (stored maxData : ℕ) :
    (extent stored maxData).size ≤ (extent stored maxData).blocks * block := by
  rw [← extent_blocks]
  exact size_le_paddedSize _

/-- Inside of its own data a piece is salvaged as it stands. -/
theorem salvaged_piece (pre rest : Bytes) (p : Piece) {next : ℕ}
    (hnext : next - (pre.length + block) ≤ p.body.length) :
    salvaged (pre ++ (p.bytes ++ rest)) (pre.length, next) =
      p.found (next - (pre.length + block)) := by
  have hheader : field (pre ++ (p.bytes ++ rest)) pre.length block = p.header := by
    have hfield := field_append pre (p.bytes ++ rest) 0 block
    rw [Nat.add_zero] at hfield
    rw [hfield, Piece.bytes, List.append_assoc, field_zero_length p.length_header]
  have hblocks := (extent_blocks_le (storedSize p.header) (next - (pre.length + block))).trans hnext
  have hlen : (pre ++ (p.bytes ++ rest)).length =
      pre.length + block + p.body.length + rest.length := by
    rw [List.length_append, List.length_append, p.length_bytes]
    omega
  have hdata : field (pre ++ (p.bytes ++ rest)) (pre.length + block)
      ((extent (storedSize p.header) (next - (pre.length + block))).blocks * block) =
        p.body.take ((extent (storedSize p.header) (next - (pre.length + block))).blocks *
          block) := by
    have hbody := field_append p.header (p.body ++ rest) 0
      ((extent (storedSize p.header) (next - (pre.length + block))).blocks * block)
    rw [Nat.add_zero, p.length_header] at hbody
    rw [field_append, Piece.bytes, List.append_assoc, hbody, field, List.drop_zero,
      List.take_append_of_le_length hblocks]
  have hsize := size_le_blocks (storedSize p.header) (next - (pre.length + block))
  rw [salvaged, Piece.found]
  dsimp only
  rw [extentAt, hheader, copyBlocks, min_eq_left (by omega), Nat.add_sub_cancel_left,
    Nat.sub_self, hdata, List.replicate_zero, List.append_nil, List.take_take, min_eq_left hsize]

/-- The members found in pieces that stand from `o` on. -/
def foundFrom (eoa : ℕ) : ℕ → List Piece → List (Option Text × Bytes)
  | _, [] => []
  | o, p :: ps =>
      p.found ((if ps = [] then eoa else o + p.bytes.length) - (o + block)) ::
        foundFrom eoa (o + p.bytes.length) ps

theorem map_salvaged_pieceSpans (eoa n : ℕ) (ps : List Piece) (pre : Bytes)
    (heoa : eoa ≤ pre.length + (piecesBytes ps).length) :
    (pieceSpans eoa pre.length ps).map
        (salvaged (pre ++ (piecesBytes ps ++ List.replicate n 0))) =
      foundFrom eoa pre.length ps := by
  induction ps generalizing pre with
  | nil => rfl
  | cons p ps ih =>
      have hbytes : piecesBytes (p :: ps) = p.bytes ++ piecesBytes ps := rfl
      have hlen := p.length_bytes
      have hrest := ih (pre ++ p.bytes) (by
        rw [hbytes, List.length_append] at heoa
        rw [List.length_append]
        omega)
      rw [List.length_append, List.append_assoc] at hrest
      have hnext : (if ps = [] then eoa else pre.length + p.bytes.length) -
          (pre.length + block) ≤ p.body.length := by
        split
        · rename_i hnil
          rw [hbytes, hnil, List.length_append] at heoa
          change eoa ≤ pre.length + (p.bytes.length + 0) at heoa
          omega
        · omega
      rw [pieceSpans, List.map_cons, hbytes, List.append_assoc,
        salvaged_piece pre _ p hnext, hrest]
      rfl

/-- When the archive ends where its data does, every piece is found with all its own data; the
end does not matter for a last piece that states no data. -/
theorem foundFrom_eq (eoa o : ℕ) (ps : List Piece)
    (hend : ∀ p ∈ ps.getLast?, eoa = o + (piecesBytes ps).length ∨ storedSize p.header = 0) :
    foundFrom eoa o ps = ps.map fun p ↦ p.found p.body.length := by
  induction ps generalizing o with
  | nil => rfl
  | cons p ps ih =>
      have hlen := p.length_bytes
      rw [foundFrom, List.map_cons]
      cases ps with
      | nil =>
          rw [if_pos rfl]
          rcases hend p rfl with heoa | hzero
          · have hbytes : (piecesBytes [p]).length = p.bytes.length := by
              rw [piecesBytes, List.flatMap_singleton]
            rw [heoa, hbytes, hlen, ← Nat.add_assoc, Nat.add_sub_cancel_left]
            rfl
          · have hnone : ∀ k, p.found k = (some (readName p.header), []) := by
              intro k
              rw [Piece.found, hzero, extent_of_fits (Nat.zero_le k)]
              rfl
            rw [hnone, hnone]
            rfl
      | cons q ps =>
          rw [if_neg (List.cons_ne_nil q ps), hlen, ← Nat.add_assoc, Nat.add_sub_cancel_left,
            ih (o + block + p.body.length)]
          intro r hr
          rcases hend r (by rwa [List.getLast?_cons_cons]) with heoa | hzero
          · left
            rw [heoa, show piecesBytes (p :: q :: ps) = p.bytes ++ piecesBytes (q :: ps) from rfl,
              List.length_append, hlen]
            omega
          · exact .inr hzero

/-! ## Sizes -/

theorem size_le_stored (stored maxData : ℕ) : (extent stored maxData).size ≤ stored := by
  by_cases h : paddedSize stored ≤ maxData
  · rw [extent_of_fits h]
  · rw [extent_of_exceeds (not_le.mp h)]
    dsimp only
    rw [paddedSize] at h
    have hlt : maxData / block < divCeil stored block :=
      (Nat.div_lt_iff_lt_mul (by decide)).mpr (not_le.mp h)
    generalize maxData / block = n at hlt ⊢
    unfold divCeil block at *
    omega

theorem size_le_maxData (stored maxData : ℕ) : (extent stored maxData).size ≤ maxData :=
  (size_le_blocks stored maxData).trans (extent_blocks_le stored maxData)

/-- A span has the header of a piece, and reaches no further than its data. -/
theorem of_mem_pieceSpans (eoa : ℕ) (ps : List Piece) (pre rest : Bytes)
    (heoa : eoa ≤ pre.length + (piecesBytes ps).length) :
    ∀ s ∈ pieceSpans eoa pre.length ps, ∃ p ∈ ps,
      field (pre ++ (piecesBytes ps ++ rest)) s.1 block = p.header ∧
        s.2 - (s.1 + block) ≤ p.body.length := by
  induction ps generalizing pre with
  | nil => simp [pieceSpans]
  | cons p ps ih =>
      have hbytes : piecesBytes (p :: ps) = p.bytes ++ piecesBytes ps := rfl
      have hlen := p.length_bytes
      rw [hbytes, List.length_append] at heoa
      have hrest := ih (pre ++ p.bytes) (by rw [List.length_append]; omega)
      rw [List.length_append, List.append_assoc] at hrest
      rw [hbytes, List.append_assoc]
      intro s hs
      rcases List.mem_cons.mp hs with rfl | hs
      · refine ⟨p, List.mem_cons_self, ?_, ?_⟩
        · have hfield := field_append pre (p.bytes ++ (piecesBytes ps ++ rest)) 0 block
          rw [Nat.add_zero] at hfield
          rw [hfield, Piece.bytes, List.append_assoc, field_zero_length p.length_header]
        · dsimp only
          split
          · rename_i hnil
            rw [hnil] at heoa
            change eoa ≤ pre.length + (p.bytes.length + 0) at heoa
            omega
          · omega
      · obtain ⟨q, hq, hfound⟩ := hrest s hs
        exact ⟨q, List.mem_cons_of_mem p hq, hfound⟩

end TarSizeBoundaryResync

end VeraqisRecover.Recovery
