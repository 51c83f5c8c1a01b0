import VeraqisRecover.Recovery.TarFields
import VeraqisRecover.Recovery.TarTerminator
import VeraqisRecover.Tar.Whole

/-!
# Resynchronising TAR size fields

`TarSizeBoundaryResync` of `strategies/tar_size_resync.rs`.  Every block with
the magic counts as a header, its data ends where the next one stands or at the
first two zero blocks, and a size that does not fit is cut to what does.
-/

namespace VeraqisRecover.Recovery

open ByteString VeraqisRecover.Tar

namespace TarSizeBoundaryResync

def isUstarHeader (b : Bytes) : Bool :=
  if b.length < 265 then false
  else if isZero b then false
  else hasMagic b

def headerPositions (data : Bytes) : List ℕ :=
  ((List.range (data.length / block)).map (· * block)).filter fun off ↦
    isUstarHeader (field data off block)

/-- The first of two consecutive zero blocks, or the end of the last whole block. -/
def findEndOfArchive (data : Bytes) (nblocks : ℕ) : ℕ :=
  match (List.range (nblocks - 1)).find? fun i ↦
      isZero (field data (i * block) block) && isZero (field data ((i + 1) * block) block) with
  | some i => i * block
  | none => nblocks * block

def ustarChecksum (b : Bytes) : ℕ := computeChecksum b

/-! ## One entry -/

/-- The size an entry is given, and the blocks copied for it. -/
structure Extent where
  size : ℕ
  blocks : ℕ
  inferred : Bool
  deriving DecidableEq

/-- A stored size that fits is trusted, any other is cut to whole blocks. -/
def extent (storedSize maxData : ℕ) : Extent :=
  let declaredBlocks := divCeil storedSize block
  if declaredBlocks * block ≤ maxData then ⟨storedSize, declaredBlocks, false⟩
  else ⟨maxData / block * block, maxData / block, true⟩

def storedSize (b : Bytes) : ℕ := (octalField (field b 124 12)).getD 0

def extentAt (data : Bytes) (off nextBoundary : ℕ) : Extent :=
  extent (storedSize (field data off block)) (nextBoundary - (off + block))

/-- The header with a corrected size and a fresh checksum; `copy_from_slice` panics when the
numeral does not have as many bytes as the field. -/
def rebuildHeader (b : Bytes) (size : ℕ) : Option Bytes :=
  let sizeBytes := Octal.padded 11 size ++ [0]
  if sizeBytes.length = 12 then
    let hdr := overwrite b 124 sizeBytes
    some (overwrite hdr 148 (checksumBytes (ustarChecksum hdr)))
  else none

/-- The data blocks behind the header at `off`, filled up with zeros at the end of the data. -/
def copyBlocks (data : Bytes) (off blocks : ℕ) : Bytes :=
  let dataStart := off + block
  let dataEnd := min (dataStart + blocks * block) data.length
  let written := dataEnd - dataStart
  field data dataStart written ++ List.replicate (blocks * block - written) 0

def rebuildEntry (data : Bytes) (off nextBoundary : ℕ) : Option Bytes := do
  let e := extentAt data off nextBoundary
  let hdr ← rebuildHeader (field data off block) e.size
  return hdr ++ copyBlocks data off e.blocks

/-! ## The strategy -/

/-- Each header with the boundary of its data. -/
def spans (data : Bytes) : List (ℕ × ℕ) :=
  let positions := headerPositions data
  positions.zip (positions.tail ++ [findEndOfArchive data (data.length / block)])

def rebuild (data : Bytes) : Option Bytes := do
  let entries ← (spans data).mapM fun s ↦ rebuildEntry data s.1 s.2
  return entries.flatten ++ List.replicate 1024 0

def corrected (data : Bytes) : ℕ :=
  ((spans data).filter fun s ↦ (extentAt data s.1 s.2).inferred).length

def name : String := "tar-size-resync"

/-- What is written and reported; nothing when the run panics. -/
def apply (source : Bytes) : Option (Except RecoveryError (Bytes × RecoveryReport)) :=
  let report := { RecoveryReport.empty "" with strategiesApplied := [name] }
  if headerPositions source = [] then
    some (.ok ([], { report with
      success := false
      warnings := ["no UStar headers found; cannot resync"] }))
  else do
    let out ← rebuild source
    return .ok (out, { report with
      bytesRecovered := out.length
      success := true
      warnings := [s!"resynced {(headerPositions source).length}/{source.length / block} " ++
        s!"entries; corrected size field in {corrected source}"] })

/-! ## Extents -/

theorem extent_blocks (stored maxData : ℕ) :
    divCeil (extent stored maxData).size block = (extent stored maxData).blocks := by
  rw [extent]
  split
  · rfl
  · dsimp only
    generalize maxData / block = n
    unfold divCeil block
    omega

theorem extent_of_fits {stored maxData : ℕ} (h : paddedSize stored ≤ maxData) :
    extent stored maxData = ⟨stored, divCeil stored block, false⟩ := if_pos h

theorem extent_of_exceeds {stored maxData : ℕ} (h : maxData < paddedSize stored) :
    extent stored maxData = ⟨maxData / block * block, maxData / block, true⟩ :=
  if_neg (not_le.mpr h)

/-- The blocks copied lie before the boundary. -/
theorem extent_blocks_le (stored maxData : ℕ) :
    (extent stored maxData).blocks * block ≤ maxData := by
  by_cases h : paddedSize stored ≤ maxData
  · rw [extent_of_fits h]
    exact h
  · rw [extent_of_exceeds (not_le.mp h)]
    exact Nat.div_mul_le_self _ _

/-! ## Rebuilt headers -/

section Header

variable {b : Bytes} {size : ℕ}

/-- The numeral of a smaller size has the length of the field, and that of a larger has not. -/
theorem length_sizeBytes_iff : (Octal.padded 11 size ++ [(0 : UInt8)]).length = 12 ↔
    size < 8 ^ 11 := by
  rw [List.length_append, List.length_singleton]
  constructor
  · intro hlen
    have hlt := Octal.value_lt (Octal.all_padded 11 size)
    rwa [Octal.value_padded, Nat.succ.inj hlen] at hlt
  · intro hlt
    rw [Octal.length_padded (by decide) hlt]

/-- The header with its size written, before it is summed. -/
def sized (b : Bytes) (size : ℕ) : Bytes := overwrite b 124 (Octal.padded 11 size ++ [0])

theorem rebuildHeader_eq (h : size < 8 ^ 11) :
    rebuildHeader b size = some (summed (sized b size)) := if_pos (length_sizeBytes_iff.mpr h)

theorem rebuildHeader_panics (h : ¬size < 8 ^ 11) : rebuildHeader b size = none :=
  if_neg fun hlen ↦ h (length_sizeBytes_iff.mp hlen)

theorem length_sized (hb : b.length = block) (h : size < 8 ^ 11) :
    (sized b size).length = block := by
  have hlen : b.length = 512 := hb
  rw [sized, length_overwrite (by rw [length_sizeBytes_iff.mpr h]; omega), hb]

theorem field_sized (hb : b.length = block) (h : size < 8 ^ 11) {a n : ℕ}
    (hapart : a + n ≤ 124 ∨ 136 ≤ a) : field (sized b size) a n = field b a n := by
  have hlen : b.length = 512 := hb
  apply field_overwrite_of_apart (by omega)
  rw [length_sizeBytes_iff.mpr h]
  exact hapart

/-- Only the size and the checksum of a rebuilt header are new. -/
theorem field_rebuilt (hb : b.length = block) (h : size < 8 ^ 11) {a n : ℕ}
    (hapart : a + n ≤ 124 ∨ 156 ≤ a) : field (summed (sized b size)) a n = field b a n := by
  rw [field_summed (length_sized hb h) (by omega), field_sized hb h (by omega)]

theorem length_rebuilt (hb : b.length = block) (h : size < 8 ^ 11) :
    (summed (sized b size)).length = block := length_summed (length_sized hb h)

theorem declaredSize_rebuilt (hb : b.length = block) (h : size < 8 ^ 11) :
    declaredSize (summed (sized b size)) = size := by
  have hlen : b.length = 512 := hb
  have hword : size ≤ wordMax := by
    have hle : 8 ^ 11 ≤ wordMax := by decide
    omega
  have hfull := length_sizeBytes_iff.mpr h
  have hfield : field (sized b size) 124 12 = Octal.padded 11 size ++ [0] := by
    rw [sized, field_overwrite_self (by omega) hfull.ge, List.take_of_length_le hfull.le]
  rw [declaredSize, field_summed (length_sized hb h) (.inl (by decide)), hfield,
    octal_padded 11 hword rfl, Option.getD_some]

theorem hasMagic_rebuilt (hb : b.length = block) (h : size < 8 ^ 11) :
    hasMagic (summed (sized b size)) = hasMagic b := by
  rw [hasMagic, hasMagic, field_rebuilt hb h (.inr (by decide))]

theorem readName_rebuilt (hb : b.length = block) (h : size < 8 ^ 11) :
    readName (summed (sized b size)) = readName b := by
  have hname : field (summed (sized b size)) 0 100 = field b 0 100 :=
    field_rebuilt hb h (.inl (by decide))
  have hpath : field (summed (sized b size)) 345 155 = field b 345 155 :=
    field_rebuilt hb h (.inr (by decide))
  rw [readName, readName, hname, hpath]

end Header

/-! ## Entries as whole members -/

theorem length_copyBlocks {data : Bytes} {off : ℕ} (h : off + block ≤ data.length) (blocks : ℕ) :
    (copyBlocks data off blocks).length = blocks * block := by
  rw [copyBlocks, List.length_append, List.length_replicate, length_field (by omega)]
  omega

section Entry

variable {data : Bytes} {off next : ℕ}

/-- The entry for the header at `off`, as the salvager sees it. -/
def wholeEntry (hroom : off + block ≤ data.length)
    (hmagic : hasMagic (field data off block) = true)
    (hsize : (extentAt data off next).size < 8 ^ 11) : WholeMember where
  bytes := summed (sized (field data off block) (extentAt data off next).size) ++
    copyBlocks data off (extentAt data off next).blocks
  trusted := by
    have hblock := length_field hroom
    rw [headerAt, field_zero_length (length_rebuilt hblock hsize),
      hasMagic_rebuilt hblock hsize, hmagic, checksumHolds_summed (length_sized hblock hsize)]
    rfl
  length_eq := by
    have hblock := length_field hroom
    rw [field_zero_length (length_rebuilt hblock hsize), declaredSize_rebuilt hblock hsize,
      List.length_append, length_rebuilt hblock hsize, length_copyBlocks hroom, paddedSize,
      extentAt, extent_blocks]

/-- The name and the data an entry is salvaged with. -/
def salvaged (data : Bytes) (s : ℕ × ℕ) : Option Text × Bytes :=
  (some (readName (field data s.1 block)),
    (copyBlocks data s.1 (extentAt data s.1 s.2).blocks).take (extentAt data s.1 s.2).size)

theorem salvaged_wholeEntry (hroom : off + block ≤ data.length)
    (hmagic : hasMagic (field data off block) = true)
    (hsize : (extentAt data off next).size < 8 ^ 11) :
    (some (readName (wholeEntry hroom hmagic hsize).header),
      (wholeEntry hroom hmagic hsize).data) = salvaged data (off, next) := by
  have hblock := length_field hroom
  have hrebuilt := length_rebuilt hblock hsize
  have hheader : (wholeEntry hroom hmagic hsize).header =
      summed (sized (field data off block) (extentAt data off next).size) :=
    field_zero_length hrebuilt _
  have hdata := field_append (summed (sized (field data off block) (extentAt data off next).size))
    (copyBlocks data off (extentAt data off next).blocks) 0 (extentAt data off next).size
  rw [Nat.add_zero, hrebuilt] at hdata
  rw [WholeMember.data, WholeMember.size, hheader, declaredSize_rebuilt hblock hsize,
    readName_rebuilt hblock hsize, salvaged]
  exact congrArg (Prod.mk _) hdata

theorem rebuildEntry_eq (hroom : off + block ≤ data.length)
    (hmagic : hasMagic (field data off block) = true)
    (hsize : (extentAt data off next).size < 8 ^ 11) :
    rebuildEntry data off next = some (wholeEntry hroom hmagic hsize).bytes := by
  rw [rebuildEntry, rebuildHeader_eq hsize]
  rfl

theorem lt_of_rebuildEntry {e : Bytes} (h : rebuildEntry data off next = some e) :
    (extentAt data off next).size < 8 ^ 11 := by
  by_contra hlarge
  rw [rebuildEntry, rebuildHeader_panics hlarge] at h
  cases h

end Entry

/-! ## The rebuilt archive -/

theorem of_mem_headerPositions {data : Bytes} {off : ℕ} (h : off ∈ headerPositions data) :
    off + block ≤ data.length ∧ hasMagic (field data off block) = true := by
  obtain ⟨hoff, hheader⟩ := List.mem_filter.mp h
  obtain ⟨q, hq, rfl⟩ := List.mem_map.mp hoff
  refine ⟨block_le_of_lt (List.mem_range.mp hq), ?_⟩
  rw [isUstarHeader] at hheader
  split at hheader
  · cases hheader
  · split at hheader
    · cases hheader
    · exact hheader

theorem mem_of_mem_spans {data : Bytes} {s : ℕ × ℕ} (h : s ∈ spans data) :
    s.1 ∈ headerPositions data := (List.of_mem_zip h).1

theorem map_fst_spans (data : Bytes) :
    (spans data).map Prod.fst = headerPositions data := by
  rw [spans]
  apply List.map_fst_zip
  rw [List.length_append, List.length_tail, List.length_singleton]
  omega

/-- Entries that are rebuilt one by one give whole members one after another. -/
theorem mapM_rebuildEntry (data : Bytes) (ss : List (ℕ × ℕ))
    (hheader : ∀ s ∈ ss, s.1 ∈ headerPositions data)
    (hsize : ∀ s ∈ ss, (extentAt data s.1 s.2).size < 8 ^ 11) :
    ∃ ws : List WholeMember,
      (ss.mapM fun s ↦ rebuildEntry data s.1 s.2) = some (ws.map WholeMember.bytes) ∧
        (ws.map fun w ↦ (some (readName w.header), w.data)) = ss.map (salvaged data) := by
  induction ss with
  | nil => exact ⟨[], rfl, rfl⟩
  | cons s ss ih =>
      obtain ⟨hroom, hmagic⟩ := of_mem_headerPositions (hheader s List.mem_cons_self)
      have hfirst := hsize s List.mem_cons_self
      obtain ⟨ws, hrun, hsalvaged⟩ := ih
        (fun t ht ↦ hheader t (List.mem_cons_of_mem s ht))
        (fun t ht ↦ hsize t (List.mem_cons_of_mem s ht))
      refine ⟨wholeEntry hroom hmagic hfirst :: ws, ?_, ?_⟩
      · rw [List.mapM_cons, rebuildEntry_eq hroom hmagic hfirst, hrun]
        rfl
      · rw [List.map_cons, List.map_cons, hsalvaged, salvaged_wholeEntry]

theorem lt_of_mapM (data : Bytes) (ss : List (ℕ × ℕ)) {entries : List Bytes}
    (h : (ss.mapM fun s ↦ rebuildEntry data s.1 s.2) = some entries) :
    ∀ s ∈ ss, (extentAt data s.1 s.2).size < 8 ^ 11 := by
  induction ss generalizing entries with
  | nil => simp
  | cons s ss ih =>
      rw [List.mapM_cons] at h
      obtain ⟨e, he, hrest⟩ := Option.bind_eq_some_iff.mp h
      obtain ⟨es, hes, -⟩ := Option.bind_eq_some_iff.mp hrest
      intro t ht
      rcases List.mem_cons.mp ht with rfl | ht
      · exact lt_of_rebuildEntry he
      · exact ih hes t ht

theorem map_memberOf_wholeFrom (ws : List WholeMember) (o : ℕ) :
    (wholeFrom o ws).map memberOf = ws.map fun w ↦ (some (readName w.header), w.data) := by
  induction ws generalizing o with
  | nil => rfl
  | cons w ws ih =>
      rw [wholeFrom, List.map_cons, List.map_cons, ih]
      rfl

/-- Whole members are salvaged as they are. -/
theorem verifiedMembers_joined (ws : List WholeMember) (n : ℕ) :
    verifiedMembers (joined ws ++ List.replicate n 0) =
      ws.map fun w ↦ (some (readName w.header), w.data) := by
  have hsegments := segmentsAt_joined ws n []
  rw [List.nil_append, List.length_nil] at hsegments
  rw [verifiedMembers_eq, membersAt, hsegments, map_memberOf_wholeFrom]

/-- An archive with headers is written when every size fits its field. -/
theorem exists_apply {source : Bytes} (hne : headerPositions source ≠ [])
    (hsize : ∀ s ∈ spans source, (extentAt source s.1 s.2).size < 8 ^ 11) :
    ∃ output report, apply source = some (.ok (output, report)) ∧ report.success = true := by
  obtain ⟨ws, hrun, -⟩ := mapM_rebuildEntry source (spans source)
    (fun _ hs ↦ mem_of_mem_spans hs) hsize
  have hout : rebuild source = some ((ws.map WholeMember.bytes).flatten ++
      List.replicate 1024 0) := by
    rw [rebuild, hrun]
    rfl
  rw [apply]
  dsimp only
  rw [if_neg hne, hout]
  exact ⟨_, _, rfl, rfl⟩

/-- What is written is salvaged entry by entry. -/
theorem of_apply {source output : Bytes} {report : RecoveryReport}
    (h : apply source = some (.ok (output, report))) (hwritten : report.success = true) :
    headerPositions source ≠ [] ∧
      (∀ s ∈ spans source, (extentAt source s.1 s.2).size < 8 ^ 11) ∧
        verifiedMembers output = (spans source).map (salvaged source) := by
  rw [apply] at h
  dsimp only at h
  split at h
  · obtain ⟨-, rfl⟩ := Prod.mk.inj (Except.ok.inj (Option.some.inj h))
    cases hwritten
  · rename_i hne
    obtain ⟨out, hout, hreturn⟩ := Option.bind_eq_some_iff.mp h
    obtain ⟨rfl, -⟩ := Prod.mk.inj (Except.ok.inj (Option.some.inj hreturn))
    obtain ⟨entries, hentries, hjoin⟩ := Option.bind_eq_some_iff.mp hout
    have hsize := lt_of_mapM source (spans source) hentries
    obtain ⟨ws, hrun, hsalvaged⟩ := mapM_rebuildEntry source (spans source)
      (fun _ hs ↦ mem_of_mem_spans hs) hsize
    rw [hentries] at hrun
    obtain rfl := Option.some.inj hrun
    obtain rfl := Option.some.inj hjoin
    refine ⟨hne, hsize, ?_⟩
    rw [← hsalvaged, ← List.flatMap_def]
    exact verifiedMembers_joined ws 1024

end TarSizeBoundaryResync

end VeraqisRecover.Recovery
