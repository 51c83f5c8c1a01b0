import VeraqisRecover.Analyze.PageReaders
import VeraqisRecover.Analyze.TarReader
import VeraqisRecover.Crc.Rocksoft

/-!
# Raw defects of the archive formats

What `corruption/detector.rs` finds and locates in ZIP, TAR, ISO 9660 and RAR
files, and in the formats of which it knows the signature only.
-/

namespace VeraqisRecover.Analyze

open ByteString Checked LossyUtf8 Crc

/-- A stream-level location with the two offsets ordered. -/
def orderedStream (a b : ℕ) : Checked CorruptionLocation :=
  CorruptionLocation.stream (min a b) (max a b)

def magicDefect (s : DataSource) (out : List Detected) (magic : Bytes) (rule : String) :
    Checked (List Detected) := do
  let actual := (← s.readExactAt 0 magic.length).getD []
  if actual = magic then return out else
  let location ← CorruptionLocation.stream 0 magic.length
  return out ++ [
    { kind := .referenceDiff
      location
      ruleIdOverride := some rule
      actualBytes := actual
      expectedBytes := some magic
      detail := "format signature is damaged or missing" }]

/-! ## PDF -/

/-- `%%EOF` -/
def pdfEof : Bytes := [0x25, 0x25, 0x45, 0x4f, 0x46]

def pdfStubDefects (s : DataSource) (out : List Detected) : Checked (List Detected) := do
  let out ← magicDefect s out [0x25, 0x50, 0x44, 0x46, 0x2d] "PDF_HDR_001"
  let tailLen := min s.len 1024
  let tail := (← s.readExactAt (s.len - tailLen) tailLen).getD []
  if (List.range (tail.length - 4)).any fun i ↦ (tail.drop i).take 5 = pdfEof then return out else
  let location ← CorruptionLocation.stream (s.len - tailLen) s.len
  return out ++ [
    { kind := .referenceDiff
      location
      ruleIdOverride := some "PDF_EOF_001"
      actualBytes := tail.drop (tail.length - 5)
      expectedBytes := some pdfEof
      detail := "PDF end-of-file marker is missing" }]

/-! ## ZIP -/

/-- The directory is not where the EOCD says. -/
def zipDirectoryDefect (s : DataSource) (parse : ZipParse) (eocd : ℕ) (out : List Detected) :
    Checked (List Detected) :=
  if parse.cdPresent then return out
  else if s.len ≤ parse.cdOffset then do
    let field ← add 64 eocd 16
    let actual := (← s.readExactAt field 4).getD []
    let location ← orderedStream parse.cdOffset eocd
    return out ++ [
      { kind := .zipEocdCdOffsetOob
        location
        actualBytes := actual
        confidence := some (offsetOutOfBounds parse.cdOffset s.len)
        detail := s!"cd_offset {parse.cdOffset} >= file size {s.len}" }]
  else do
    let actual := (← s.readExactAt parse.cdOffset 4).getD []
    let location ← orderedStream parse.cdOffset eocd
    return out ++ [
      { kind := .zipCentralDirectoryMissing
        location
        actualBytes := actual
        expectedBytes := some [0x50, 0x4B, 0x01, 0x02]
        detail := s!"central directory offset {parse.cdOffset}" }]

def zipCountDefect (parse : ZipParse) (eocd : ℕ) (out : List Detected) :
    Checked (List Detected) :=
  if parse.cdPresent ∧ parse.declaredEntries ≠ parse.entries.length then do
    let location ← orderedStream parse.cdOffset eocd
    return out ++ [
      { kind := .zipEntryCountMismatch
        location
        detail := s!"EOCD declares {parse.declaredEntries}, " ++
          s!"directory has {parse.entries.length}" }]
  else return out

def zipLocalHeaderDefect (s : DataSource) (parse : ZipParse) (out : List Detected) :
    Checked (List Detected) :=
  if parse.localHeadersOk then return out
  else do
    let off := (parse.entries.head?.map (·.offset)).getD 0
    let actual := (← s.readExactAt off 4).getD []
    let stop ← add 64 off 4
    let location ← CorruptionLocation.stream off stop
    return out ++ [
      { kind := .zipLocalHeaderMissing
        location
        actualBytes := actual
        expectedBytes := some [0x50, 0x4B, 0x03, 0x04] }]

/-- Feed `remaining` bytes from `cursor` on; absent when the source ends first. -/
def crcFrom (s : DataSource) (cursor remaining : ℕ) (crc : Crc32) : Checked (Option Crc32) :=
  if remaining = 0 then return some crc
  else
    match s.readAt cursor (min remaining (64 * 1024)) with
    | .error f => .error f
    | .ok chunk =>
        if chunk.length = 0 then return none
        else
          match add 64 cursor chunk.length with
          | .error f => .error f
          | .ok next =>
              match hsub : sub remaining chunk.length with
              | .error f => .error f
              | .ok rest =>
                  have := sub_eq_ok hsub
                  crcFrom s next rest (crc.update chunk)
termination_by remaining

/-- The CRC-32 of a stored member's data, with its offset. -/
def storedMemberCrc (s : DataSource) (lfhOffset size : ℕ) : Checked (Option (ℕ × ℕ)) := do
  match ← s.readExactAt lfhOffset 30 with
  | none => return none
  | some header =>
      let nameLen ← leAt 2 header 26
      let extraLen ← leAt 2 header 28
      let fixedEnd ← add 64 lfhOffset 30
      let nameEnd ← add 64 fixedEnd nameLen
      let dataOff ← add 64 nameEnd extraLen
      let crc ← crcFrom s dataOff size Crc32.new
      return crc.map fun c ↦ (dataOff, c.finalize.toNat)

/-- The local header's compressed size, when its first 22 bytes are there. -/
def lfhCompressedSize (s : DataSource) (e : ArchiveEntry) : Checked (Option ℕ) := do
  match ← s.readExactAt e.offset 22 with
  | none => return none
  | some h =>
      if h.length < 22 then return none else
      let v ← leAt 4 h 18
      return some v

def zipSizeDefect (e : ArchiveEntry) (lfhSize : ℕ) : Checked Detected := do
  let offsetStart ← add 64 e.offset 18
  let offsetEnd ← add 64 e.offset 22
  return {
    kind := .zipSizeMismatch
    location := ⟨some e.path, offsetStart, offsetEnd⟩
    actualBytes := le32 e.compressedSize
    expectedBytes := some (le32 lfhSize)
    detail := s!"{String.ofList e.path}: LFH compressed_size {lfhSize}, " ++
      s!"CD says {e.compressedSize}" }

def zipCrcDefect (e : ArchiveEntry) (dataOff storedCrc computed : ℕ) : Checked Detected := do
  let offsetEnd ← add 64 dataOff e.compressedSize
  let range ← ByteRange.new dataOff offsetEnd
  return {
    kind := .zipCrcMismatch
    location := ⟨some e.path, dataOff, offsetEnd⟩
    byteRange := some range
    actualBytes := le32 computed
    expectedBytes := some (le32 storedCrc)
    detail := s!"{String.ofList e.path}: stored {hex 8 storedCrc}, computed {hex 8 computed}" }

/-- The checksum of a stored member. -/
def zipStoredDefect (s : DataSource) (e : ArchiveEntry) (method : ℕ) :
    Checked (Option Detected) :=
  if method ≠ 0 then return none
  else
    match e.storedCrc32 with
    | none => return none
    | some storedCrc => do
        match ← storedMemberCrc s e.offset e.compressedSize with
        | none => return none
        | some (dataOff, computed) =>
            if computed = storedCrc then return none else
            let d ← zipCrcDefect e dataOff storedCrc computed
            return some d

/-- A size that disagrees supersedes the checksum, which would be taken over the wrong bytes. -/
def zipMemberDefect (s : DataSource) (e : ArchiveEntry) (method : ℕ) :
    Checked (Option Detected) := do
  match ← lfhCompressedSize s e with
  | none => zipStoredDefect s e method
  | some lfhSize =>
      if lfhSize = e.compressedSize then zipStoredDefect s e method
      else do
        let d ← zipSizeDefect e lfhSize
        return some d

def zipMemberDefects (s : DataSource) (max : ℕ) :
    List (ArchiveEntry × ℕ) → List Detected → Checked (List Detected)
  | [], out => return out
  | (e, method) :: rest, out =>
      if max ≤ out.length then return out
      else do
        let d ← zipMemberDefect s e method
        zipMemberDefects s max rest (out ++ d.toList)

def zipDefects (s : DataSource) (parse : ZipParse) (verifyCrc : Bool) (out : List Detected)
    (max : ℕ) : Checked (List Detected) :=
  match parse.eocdOffset with
  | none => do
      let location ← CorruptionLocation.stream 0 s.len
      return out ++ [
        { kind := .zipMissingEocd, location, expectedBytes := some [0x50, 0x4B, 0x05, 0x06] }]
  | some eocd => do
      let out ← zipDirectoryDefect s parse eocd out
      let out ← zipCountDefect parse eocd out
      let out ← zipLocalHeaderDefect s parse out
      if verifyCrc then zipMemberDefects s max (parse.entries.zip parse.methods) out else return out

/-! ## TAR and ISO 9660 -/

def tarChecksumDefects (s : DataSource) (max : ℕ) :
    List (ℕ × Text) → List Detected → Checked (List Detected)
  | [], out => return out
  | (offset, name) :: rest, out =>
      if max ≤ out.length then return out
      else do
        let field ← add 64 offset 148
        let actual := (← s.readExactAt field 8).getD []
        let stop ← add 64 offset 512
        let location ← CorruptionLocation.stream offset stop
        tarChecksumDefects s max rest (out ++ [
          { kind := .tarHeaderChecksumBad
            location
            actualBytes := actual
            detail := String.ofList name }])

def tarDefects (s : DataSource) (parse : TarParse) (out : List Detected) (max : ℕ) :
    Checked (List Detected) := do
  let out ← tarChecksumDefects s max parse.checksumFailures out
  if parse.truncated then
    let location ← CorruptionLocation.stream 0 0
    return out ++ [{ kind := .tarTruncated, location }]
  else if ¬ parse.zeroTerminatorPresent then
    let location ← CorruptionLocation.stream 0 0
    return out ++ [{ kind := .tarMissingTerminator, location }]
  else return out

def isoDefects (s : DataSource) (parse : IsoParse) (out : List Detected) :
    Checked (List Detected) :=
  if ¬ parse.pvdPresent then do
    let actual := (← s.readExactAt 32769 5).getD []
    let location ← CorruptionLocation.stream 0 s.len
    return out ++ [
      { kind := .isoMissingPvd
        location
        actualBytes := actual
        expectedBytes := some IsoReader.cd001 }]
  else if ¬ parse.pathTableInBounds then do
    let actual := (← s.readExactAt (16 * 2048 + 140) 4).getD []
    let location ← CorruptionLocation.stream 0 s.len
    let pointer ← mul 64 parse.pathTableLba 2048
    return out ++ [
      { kind := .isoPathTableOutOfBounds
        location
        actualBytes := actual
        confidence := some (offsetOutOfBounds pointer s.len)
        detail := s!"path-table LBA {parse.pathTableLba}" }]
  else return out

/-! ## RAR -/

/-- RAR4 or RAR5. -/
def rarSignatureOk (head : Bytes) : Checked Bool :=
  if head.length < 7 then return false
  else do
    let lead ← range head 0 6
    if lead ≠ [0x52, 0x61, 0x72, 0x21, 0x1A, 0x07] then return false else
    let sixth ← index head 6
    if sixth = 0x00 then return true
    else if sixth ≠ 0x01 ∨ head.length < 8 then return false
    else do
      let seventh ← index head 7
      return seventh = 0x00

def rarDefects (s : DataSource) (out : List Detected) : Checked (List Detected) := do
  let head := (← s.readExactAt 0 (min s.len 8)).getD []
  let ok ← rarSignatureOk head
  if ok then return out else
  let location ← CorruptionLocation.stream 0 7
  return out ++ [
    { kind := .rarMagicBad
      location
      actualBytes := head.take (min head.length 8)
      expectedBytes := some [0x52, 0x61, 0x72, 0x21, 0x1A, 0x07, 0x00]
      detail := "RAR signature should be 52 61 72 21 1A 07 00 (RAR4) or ..01 00 (RAR5)" }]

/-! ## The walks return -/

theorem push_ordered_returns {out : List Detected} {finding : CorruptionLocation → Detected}
    (a b : ℕ) (hout : AllOrdered out) (hfinding : ∀ l, (finding l).location = l) :
    Returns (do
      let location ← orderedStream a b
      return out ++ [finding location]) AllOrdered :=
  push_returns min_le_max hout hfinding

theorem magicDefect_returns (s : DataSource) {out : List Detected} (hout : AllOrdered out)
    {magic : Bytes} (hmagic : magic.length < 2 ^ 63) (rule : String) :
    Returns (magicDefect s out magic rule) AllOrdered := by
  refine (s.readExactAt_returns hmagic).bind fun r _ ↦ ?_
  dsimp only
  split
  · exact returns_pure hout
  · exact push_returns (Nat.zero_le _) hout fun _ ↦ rfl

theorem pdfStubDefects_returns (s : DataSource) {out : List Detected} (hout : AllOrdered out) :
    Returns (pdfStubDefects s out) AllOrdered := by
  refine (magicDefect_returns s hout (by decide) _).bind fun out hout ↦ ?_
  refine (s.readExactAt_returns (by omega)).bind fun r _ ↦ ?_
  dsimp only
  split
  · exact returns_pure hout
  · exact push_returns (Nat.sub_le _ _) hout fun _ ↦ rfl

theorem zipDirectoryDefect_returns (s : DataSource) {parse : ZipParse} {eocd : ℕ}
    {out : List Detected} (heocd : eocd < 2 ^ 63) (hout : AllOrdered out) :
    Returns (zipDirectoryDefect s parse eocd out) AllOrdered := by
  unfold zipDirectoryDefect
  split
  · exact returns_pure hout
  · split
    · refine (add_returns (by omega)).bind fun field _ ↦ ?_
      refine (s.readExactAt_returns (by decide)).bind fun r _ ↦ ?_
      exact push_ordered_returns _ _ hout fun _ ↦ rfl
    · refine (s.readExactAt_returns (by decide)).bind fun r _ ↦ ?_
      exact push_ordered_returns _ _ hout fun _ ↦ rfl

theorem zipCountDefect_returns (parse : ZipParse) (eocd : ℕ) {out : List Detected}
    (hout : AllOrdered out) : Returns (zipCountDefect parse eocd out) AllOrdered := by
  unfold zipCountDefect
  split
  · exact push_ordered_returns _ _ hout fun _ ↦ rfl
  · exact returns_pure hout

theorem zipLocalHeaderDefect_returns (s : DataSource) {parse : ZipParse} {out : List Detected}
    (hparse : ZipReader.Bounded parse) (hout : AllOrdered out) :
    Returns (zipLocalHeaderDefect s parse out) AllOrdered := by
  have hoff : (parse.entries.head?.map (·.offset)).getD 0 < 2 ^ 32 := by
    cases hentries : parse.entries with
    | nil => exact Nat.two_pow_pos 32
    | cons e rest => exact (hparse.entries e (hentries ▸ List.mem_cons_self)).1
  unfold zipLocalHeaderDefect
  split
  · exact returns_pure hout
  · refine (s.readExactAt_returns (by decide)).bind fun r _ ↦ ?_
    refine (add_returns (by omega)).bind fun stop hstop ↦ ?_
    exact push_returns (by omega) hout fun _ ↦ rfl

/-- Bytes are read only inside the source, so the cursor never leaves it. -/
theorem crcFrom_returns (s : DataSource) (cursor remaining : ℕ) (crc : Crc32) :
    Returns (crcFrom s cursor remaining crc) fun _ ↦ True := by
  have hlen := s.len_lt
  have hread : ∀ {cursor want chunk}, s.readAt cursor want = .ok chunk → chunk.length ≠ 0 →
      chunk.length ≤ want ∧ cursor + chunk.length ≤ s.len := by
    intro cursor want chunk hchunk hne
    rw [s.readAt_eq] at hchunk
    obtain rfl := Except.ok.inj hchunk
    rw [List.length_take, List.length_drop] at hne ⊢
    unfold DataSource.len
    omega
  fun_induction crcFrom s cursor remaining crc with
  | case1 cursor crc => exact returns_pure trivial
  | case2 cursor remaining crc hrem f hchunk =>
      exact absurd hchunk (s.readAt_returns _ _).ne_error
  | case3 cursor remaining crc hrem chunk hchunk hempty => exact returns_pure trivial
  | case4 cursor remaining crc hrem chunk hchunk hempty f hadd =>
      have hbound := hread hchunk hempty
      exact absurd hadd (add_returns (by omega)).ne_error
  | case5 cursor remaining crc hrem chunk hchunk hempty next hadd f hsub =>
      have hbound := hread hchunk hempty
      exact absurd hsub (sub_returns (by omega)).ne_error
  | case6 cursor remaining crc hrem chunk hchunk hempty next hadd rest hsub hlt ih => exact ih

theorem storedMemberCrc_returns (s : DataSource) {lfhOffset : ℕ} (hoff : lfhOffset < 2 ^ 32)
    (size : ℕ) :
    Returns (storedMemberCrc s lfhOffset size) fun r ↦ ∀ m ∈ r, m.1 < 2 ^ 33 := by
  refine (s.readExactAt_returns (by decide)).bind fun r hr ↦ ?_
  cases r with
  | none => exact returns_pure (by simp)
  | some header =>
      obtain ⟨hlen, -⟩ := hr header rfl
      refine (leAt_returns (by omega)).bind fun nameLen hname ↦ ?_
      refine (leAt_returns (by omega)).bind fun extraLen hextra ↦ ?_
      refine (add_returns (by omega)).bind fun fixedEnd hfixed ↦ ?_
      refine (add_returns (by omega)).bind fun nameEnd hend ↦ ?_
      refine (add_returns (by omega)).bind fun dataOff hdata ↦ ?_
      refine (crcFrom_returns s dataOff size _).bind fun crc _ ↦ ?_
      refine returns_pure fun m hm ↦ ?_
      obtain ⟨c, -, rfl⟩ := Option.map_eq_some_iff.mp hm
      change dataOff < 2 ^ 33
      omega

theorem lfhCompressedSize_returns (s : DataSource) (e : ArchiveEntry) :
    Returns (lfhCompressedSize s e) fun _ ↦ True := by
  refine (s.readExactAt_returns (by decide)).bind fun r _ ↦ ?_
  cases r with
  | none => exact returns_pure trivial
  | some h =>
      dsimp only
      split
      · exact returns_pure trivial
      · exact (leAt_returns (by omega)).bind fun v _ ↦ returns_pure trivial

theorem zipSizeDefect_returns {e : ArchiveEntry} (he : ZipReader.Narrow e) (lfhSize : ℕ) :
    Returns (zipSizeDefect e lfhSize) Detected.Ordered := by
  have hoff := he.1
  refine (add_returns (by omega)).bind fun offsetStart hstart ↦ ?_
  refine (add_returns (by omega)).bind fun offsetEnd hend ↦ ?_
  exact returns_pure (show offsetStart ≤ offsetEnd by omega)

theorem zipCrcDefect_returns {e : ArchiveEntry} {dataOff : ℕ} (he : ZipReader.Narrow e)
    (hdata : dataOff < 2 ^ 33) (storedCrc computed : ℕ) :
    Returns (zipCrcDefect e dataOff storedCrc computed) Detected.Ordered := by
  have hsize := he.2
  refine (add_returns (by omega)).bind fun offsetEnd hend ↦ ?_
  have hle : dataOff ≤ offsetEnd := by omega
  refine (byteRange_new_returns hle).bind fun range _ ↦ ?_
  exact returns_pure hle

theorem zipStoredDefect_returns (s : DataSource) {e : ArchiveEntry} (he : ZipReader.Narrow e)
    (method : ℕ) :
    Returns (zipStoredDefect s e method) fun r ↦ ∀ d ∈ r, d.Ordered := by
  unfold zipStoredDefect
  split
  · exact returns_pure (by simp)
  · split
    · exact returns_pure (by simp)
    · refine (storedMemberCrc_returns s he.1 _).bind fun r hr ↦ ?_
      cases r with
      | none => exact returns_pure (by simp)
      | some m =>
          dsimp only
          split
          · exact returns_pure (by simp)
          · refine (zipCrcDefect_returns he (hr m rfl) _ _).bind fun d hd ↦ ?_
            exact returns_pure fun d' hd' ↦ Option.some.inj hd' ▸ hd

theorem zipMemberDefect_returns (s : DataSource) {e : ArchiveEntry} (he : ZipReader.Narrow e)
    (method : ℕ) :
    Returns (zipMemberDefect s e method) fun r ↦ ∀ d ∈ r, d.Ordered := by
  refine (lfhCompressedSize_returns s e).bind fun r _ ↦ ?_
  cases r with
  | none => exact zipStoredDefect_returns s he method
  | some lfhSize =>
      dsimp only
      split
      · exact zipStoredDefect_returns s he method
      · refine (zipSizeDefect_returns he lfhSize).bind fun d hd ↦ ?_
        exact returns_pure fun d' hd' ↦ Option.some.inj hd' ▸ hd

theorem zipMemberDefects_returns (s : DataSource) (max : ℕ) {members : List (ArchiveEntry × ℕ)}
    {out : List Detected} (hmembers : ∀ m ∈ members, ZipReader.Narrow m.1)
    (hout : AllOrdered out) : Returns (zipMemberDefects s max members out) AllOrdered := by
  induction members generalizing out with
  | nil => exact returns_pure hout
  | cons m rest ih =>
      rw [zipMemberDefects]
      split
      · exact returns_pure hout
      · have hm := hmembers m List.mem_cons_self
        refine (zipMemberDefect_returns s hm m.2).bind fun r hr ↦ ?_
        apply ih fun m' hm' ↦ hmembers m' (List.mem_cons_of_mem m hm')
        exact hout.append fun d hd ↦ hr d (Option.mem_toList.mp hd)

theorem zipDefects_returns (s : DataSource) {parse : ZipParse} (hparse : ZipReader.Bounded parse)
    (verifyCrc : Bool) {out : List Detected} (hout : AllOrdered out) (max : ℕ) :
    Returns (zipDefects s parse verifyCrc out max) AllOrdered := by
  unfold zipDefects
  split
  · exact push_returns (Nat.zero_le _) hout fun _ ↦ rfl
  · rename_i eocd heocd
    refine (zipDirectoryDefect_returns s (hparse.eocdOffset eocd heocd) hout).bind fun out hout ↦ ?_
    refine (zipCountDefect_returns parse eocd hout).bind fun out hout ↦ ?_
    refine (zipLocalHeaderDefect_returns s hparse hout).bind fun out hout ↦ ?_
    split
    · apply zipMemberDefects_returns s max _ hout
      exact fun m hm ↦ hparse.entries m.1 (List.of_mem_zip hm).1
    · exact returns_pure hout

theorem tarChecksumDefects_returns (s : DataSource) (max : ℕ) {failures : List (ℕ × Text)}
    {out : List Detected} (hfailures : ∀ f ∈ failures, f.1 < 2 ^ 63) (hout : AllOrdered out) :
    Returns (tarChecksumDefects s max failures out) AllOrdered := by
  induction failures generalizing out with
  | nil => exact returns_pure hout
  | cons f rest ih =>
      have hoff := hfailures f List.mem_cons_self
      rw [tarChecksumDefects]
      split
      · exact returns_pure hout
      · refine (add_returns (by omega)).bind fun field _ ↦ ?_
        refine (s.readExactAt_returns (by decide)).bind fun r _ ↦ ?_
        refine (add_returns (by omega)).bind fun stop hstop ↦ ?_
        have hle : f.1 ≤ stop := by omega
        refine (stream_returns hle).bind fun l hl ↦ ?_
        apply ih fun f' hf' ↦ hfailures f' (List.mem_cons_of_mem f hf')
        refine hout.append fun d hd ↦ ?_
        rw [List.mem_singleton.mp hd]
        exact hl

theorem tarDefects_returns (s : DataSource) {parse : TarParse} (hparse : TarReader.Bounded parse)
    {out : List Detected} (hout : AllOrdered out) (max : ℕ) :
    Returns (tarDefects s parse out max) AllOrdered := by
  refine (tarChecksumDefects_returns s max hparse hout).bind fun out hout ↦ ?_
  split
  · exact push_returns le_rfl hout fun _ ↦ rfl
  · split
    · exact push_returns le_rfl hout fun _ ↦ rfl
    · exact returns_pure hout

theorem isoDefects_returns (s : DataSource) {parse : IsoParse} {out : List Detected}
    (hlba : parse.pathTableLba < 2 ^ 32) (hout : AllOrdered out) :
    Returns (isoDefects s parse out) AllOrdered := by
  unfold isoDefects
  split
  · refine (s.readExactAt_returns (by decide)).bind fun r _ ↦ ?_
    exact push_returns (Nat.zero_le _) hout fun _ ↦ rfl
  · split
    · refine (s.readExactAt_returns (by decide)).bind fun r _ ↦ ?_
      refine (stream_returns (Nat.zero_le _)).bind fun l hl ↦ ?_
      refine (mul_returns (by omega)).bind fun pointer _ ↦ ?_
      refine returns_pure (hout.append fun d hd ↦ ?_)
      rw [List.mem_singleton.mp hd]
      exact hl
    · exact returns_pure hout

theorem rarSignatureOk_returns (head : Bytes) : Returns (rarSignatureOk head) fun _ ↦ True := by
  unfold rarSignatureOk
  split
  · exact returns_pure trivial
  · refine (range_returns (by omega) (by omega)).bind fun lead _ ↦ ?_
    split
    · exact returns_pure trivial
    · refine (index_returns (by omega)).bind fun sixth _ ↦ ?_
      split
      · exact returns_pure trivial
      · split
        · exact returns_pure trivial
        · refine (index_returns (by omega)).bind fun seventh _ ↦ ?_
          exact returns_pure trivial

theorem rarDefects_returns (s : DataSource) {out : List Detected} (hout : AllOrdered out) :
    Returns (rarDefects s out) AllOrdered := by
  refine (s.readExactAt_returns (by omega)).bind fun r _ ↦ ?_
  refine (rarSignatureOk_returns _).bind fun ok _ ↦ ?_
  split
  · exact returns_pure hout
  · exact push_returns (Nat.zero_le _) hout fun _ ↦ rfl

end VeraqisRecover.Analyze
