import VeraqisRecover.Rar.Walk

/-!
# Archives of stored files are read back

The encoder of the module's tests, for any list of files: one CRC-correct
block each and an end block.  The parser reads the list back, and the stored
bytes with it, as long as the blocks do not outnumber the turns of the loop.
-/

namespace VeraqisRecover.Rar

open ByteString LossyUtf8 Reader

/-- A file to be archived. -/
structure Member where
  name : Text
  data : Bytes
  deriving DecidableEq

/-! ## The encoder -/

/-- A CRC-correct block from a body (type, flags and the rest already encoded). -/
def block (body data : Bytes) : Bytes :=
  let hs := putVint body.length ++ body
  le32 (checksum32 hs) ++ hs ++ data

/-- The body of a stored file's header. -/
def fileBody (f : Member) : Bytes :=
  putVint tFile ++ putVint 0x02 ++ putVint f.data.length ++ putVint 0x04 ++
    putVint f.data.length ++ putVint 0 ++ le32 (checksum32 f.data) ++ putVint 0 ++ putVint 0 ++
    putVint (asBytes f.name).length ++ asBytes f.name

def fileBlock (f : Member) : Bytes := block (fileBody f) f.data

def endBlock : Bytes := block (putVint tEndarc ++ putVint 0) []

def archive (files : List Member) : Bytes := signature5 ++ files.flatMap fileBlock ++ endBlock

/-- Type and flags of an end block take a byte each. -/
theorem endBody_eq : putVint tEndarc ++ putVint 0 = [5, 0] := by
  rw [putVint_of_lt (by decide), putVint_of_lt (by decide)]
  rfl

theorem endBlock_eq : endBlock = le32 (checksum32 [2, 5, 0]) ++ [2, 5, 0] := by
  rw [endBlock, block, endBody_eq, List.append_nil, putVint_of_lt (by decide)]
  rfl

theorem length_endBlock : endBlock.length = 7 := by
  rw [endBlock_eq]
  rfl

theorem checksum32_lt (d : Bytes) : checksum32 d < 2 ^ 32 := Nat.mod_lt _ (by decide)

/-! ## One block -/

/-- The length of a block's header, the CRC field included. -/
def headLength (body : Bytes) : ℕ := 4 + (putVint body.length).length + body.length

theorem length_block (body data : Bytes) :
    (block body data).length = headLength body + data.length := by
  simp only [block, headLength, List.length_append, length_le32]
  omega

/-- What is read where a header of sound size stands, whatever its CRC field says. -/
theorem readBlock_head {d c body data : Bytes} {p cursor crc : ℕ} {fields : BlockFields}
    (h : At d p (c ++ (putVint body.length ++ body) ++ data)) (hlen : c.length = 4)
    (hc : ByteString.u32le c 0 = some crc) (hd : d.length ≤ wordMax)
    (hfields : blockFields d (p + 4 + (putVint body.length).length) = some (fields, cursor)) :
    readBlock d p = some (some ⟨p, p + 4, p + 4 + (putVint body.length).length,
      p + headLength body, checksum32 (putVint body.length ++ body) == crc, fields, cursor⟩) := by
  rw [At.append_iff, At.append_iff] at h
  obtain ⟨⟨hcrc, hhead⟩, -⟩ := h
  rw [hlen] at hhead
  have hpos : 0 < (putVint body.length).length := putVint_pos _
  have hend := hhead.add_length_le (by
    apply List.ne_nil_of_length_pos
    rw [List.length_append]
    omega)
  rw [List.length_append] at hend
  have hsize := vint_putVint (At.append_iff.mp hhead).1 (by
    rw [wordMax] at hd
    omega)
  have hread := hcrc.u32le (k := 0) (by omega)
  rw [Nat.add_zero, hc] at hread
  have hu32 : u32le d p = some (crc, p + 4) := u32le_eq_some.mpr ⟨hread, rfl, by omega⟩
  have hstop : p + headLength body = p + 4 + (putVint body.length ++ body).length := by
    rw [headLength, List.length_append]
    omega
  have hbody : checkedAdd (p + 4 + (putVint body.length).length) body.length =
      some (p + headLength body) := by
    rw [checkedAdd_of_le (by omega), headLength]
    congr 1
    omega
  have hslice : (d.drop (p + 4)).take (p + headLength body - (p + 4)) =
      putVint body.length ++ body := by
    rw [hstop, Nat.add_sub_cancel_left]
    exact (List.prefix_iff_eq_take.mp hhead).symm
  simp only [readBlock, hu32, hsize, hbody, Option.bind_eq_bind, Option.bind_some]
  rw [if_neg (by rw [headLength]; omega), hfields, hslice]
  rfl

theorem u32le_le32_self {v : ℕ} (h : v < 2 ^ 32) : ByteString.u32le (le32 v) 0 = some v :=
  At.u32le_le32 (At.self_append [] (le32 v)) h

theorem readBlock_block {d body data : Bytes} {p cursor : ℕ} {fields : BlockFields}
    (h : At d p (block body data)) (hd : d.length ≤ wordMax)
    (hfields : blockFields d (p + 4 + (putVint body.length).length) = some (fields, cursor)) :
    readBlock d p = some (some ⟨p, p + 4, p + 4 + (putVint body.length).length,
      p + headLength body, true, fields, cursor⟩) := by
  rw [readBlock_head h rfl (u32le_le32_self (checksum32_lt _)) hd hfields, beq_self_eq_true]

/-! ## The file block -/

/-- The entry of a file whose block starts at `p`. -/
def entryFor (p : ℕ) (f : Member) : FileEntry where
  name := f.name
  isDir := false
  size := some f.data.length
  crc32 := some (checksum32 f.data)
  headerCrcOk := true
  method := 0
  dataOffset := p + headLength (fileBody f)
  packedSize := f.data.length

/-- Behind type, flags and data size. -/
def fieldsEnd (s : ℕ) (f : Member) : ℕ :=
  s + (putVint tFile).length + (putVint 0x02).length + (putVint f.data.length).length

theorem blockFields_fileBody {d : Bytes} {s : ℕ} {f : Member} (h : At d s (fileBody f))
    (hsize : f.data.length < 2 ^ 64) :
    blockFields d s = some (⟨tFile, 0x02, 0, f.data.length⟩, fieldsEnd s f) := by
  simp only [fileBody, List.append_assoc, At.append_iff] at h
  obtain ⟨htype, hflags, hdata, -⟩ := h
  have htype' := vint_putVint htype (by decide)
  have hflags' := vint_putVint hflags (by decide)
  have hdata' := readIf_true (vint_putVint hdata hsize)
  have hno : (0x02 &&& 0x01 != 0) = false := by decide
  have hyes : (0x02 &&& 0x02 != 0) = true := by decide
  simp only [blockFields, htype', hflags', Option.bind_eq_bind, Option.bind_some, hno, hyes,
    readIf_false, hdata']
  rfl

theorem headerFields_fileBody {d : Bytes} {s : ℕ} {f : Member} (h : At d s (fileBody f))
    (hd : d.length ≤ wordMax) (hsize : f.data.length < 2 ^ 64)
    (hname : (asBytes f.name).length < 2 ^ 64) :
    ∃ q, headerFields d (fieldsEnd s f) =
        some (⟨0x04, f.data.length, some (checksum32 f.data), 0, (asBytes f.name).length⟩, q) ∧
      At d q (asBytes f.name) ∧ q + (asBytes f.name).length = s + (fileBody f).length := by
  have hlen : (fileBody f).length = (putVint tFile).length + (putVint 0x02).length +
      (putVint f.data.length).length + (putVint 0x04).length + (putVint f.data.length).length +
      (putVint 0).length + 4 + (putVint 0).length + (putVint 0).length +
      (putVint (asBytes f.name).length).length + (asBytes f.name).length := by
    simp only [fileBody, List.length_append, length_le32]
  simp only [fileBody, List.append_assoc, At.append_iff, length_le32] at h
  obtain ⟨-, -, -, hflags, hunpacked, hattributes, hcrc, hcomp, hhost, hnameLen, hnameAt⟩ := h
  have hflags' := vint_putVint hflags (by decide)
  have hunpacked' := vint_putVint hunpacked hsize
  have hattributes' := vint_putVint hattributes (by decide)
  have hfits := hcrc.add_length_le (by
    apply List.ne_nil_of_length_pos
    rw [length_le32]
    exact Nat.succ_pos 3)
  rw [length_le32] at hfits
  have hcrc' := readIf_true (u32le_eq_some.mpr
    ⟨hcrc.u32le_le32 (checksum32_lt _), rfl, hfits.trans hd⟩)
  have hcomp' := vint_putVint hcomp (by decide)
  have hhost' := vint_putVint hhost (by decide)
  have hnameLen' := vint_putVint hnameLen hname
  have hno : (0x04 &&& 0x02 != 0) = false := by decide
  have hyes : (0x04 &&& 0x04 != 0) = true := by decide
  refine ⟨_, ?_, hnameAt, by omega⟩
  simp only [headerFields, fieldsEnd, hflags', hunpacked', hattributes', Option.bind_eq_bind,
    Option.bind_some, hno, hyes, readIf_false, hcrc', hcomp', hhost', hnameLen']

theorem parseFileHeader_fileBody {d : Bytes} {s : ℕ} {f : Member} (h : At d s (fileBody f))
    (hd : d.length ≤ wordMax) (hend : s + (fileBody f).length ≤ d.length)
    (hsize : f.data.length < 2 ^ 64) :
    parseFileHeader d (fieldsEnd s f) (s + (fileBody f).length) =
      some { entryFor 0 f with dataOffset := 0, packedSize := 0 } := by
  have hname : (asBytes f.name).length < 2 ^ 64 := by
    have hle : (asBytes f.name).length ≤ (fileBody f).length := by
      rw [fileBody, List.length_append]
      exact Nat.le_add_left _ _
    rw [wordMax] at hd
    omega
  obtain ⟨q, hfields, hnameAt, hq⟩ := headerFields_fileBody h hd hsize hname
  have hstop : checkedAdd q (asBytes f.name).length = some (s + (fileBody f).length) := by
    rw [checkedAdd_of_le (by omega), hq]
  have hslice := hnameAt.slice?_of_le (by omega)
  rw [hq] at hslice
  simp [parseFileHeader, hfields, hstop, hslice, entryFor, fromUtf8Lossy_asBytes]

/-- The block of a file whose header stands in the archive; nothing reads the data. -/
theorem readBlock_fileHead {d data : Bytes} {p : ℕ} {f : Member}
    (h : At d p (block (fileBody f) data)) (hdata : data.length = f.data.length)
    (hd : d.length ≤ wordMax) :
    ∃ b, readBlock d p = some (some b) ∧ b.crcOk = true ∧ b.fields.htype = tFile ∧
      b.cursor = fieldsEnd (p + 4 + (putVint (fileBody f).length).length) f ∧
      b.entry d = some (entryFor p f) ∧ b.next d = some (p + (fileBlock f).length) := by
  have hlen : (fileBlock f).length = headLength (fileBody f) + f.data.length := length_block _ _
  have hsame : (block (fileBody f) data).length = (fileBlock f).length := by
    rw [length_block, hlen, hdata]
  have hhead : 4 ≤ headLength (fileBody f) := by
    rw [headLength]
    omega
  have hend : p + (fileBlock f).length ≤ d.length := by
    rw [← hsame]
    apply h.add_length_le
    apply List.ne_nil_of_length_pos
    omega
  have hsize : f.data.length < 2 ^ 64 := by
    rw [wordMax] at hd
    omega
  have hbody : At d (p + 4 + (putVint (fileBody f).length).length) (fileBody f) := by
    rw [block, At.append_iff, At.append_iff, length_le32] at h
    exact (At.append_iff.mp h.1.2).2
  have hstop : p + headLength (fileBody f) =
      p + 4 + (putVint (fileBody f).length).length + (fileBody f).length := by
    rw [headLength]
    omega
  refine ⟨_, readBlock_block h hd (blockFields_fileBody hbody hsize), rfl, rfl, rfl, ?_, ?_⟩
  · rw [Block.entry, if_pos rfl]
    dsimp only
    rw [hstop, parseFileHeader_fileBody hbody hd (by omega) hsize, entryFor, entryFor, ← hstop]
    rfl
  · rw [Block.next]
    dsimp only
    rw [checkedAdd_of_le (by omega)]
    dsimp only
    rw [if_neg (by omega), hlen, Nat.add_assoc]

theorem turn_fileBlock {d : Bytes} {p : ℕ} {f : Member} (h : At d p (fileBlock f))
    (hd : d.length ≤ wordMax) (inv : Inventory) :
    turn d p inv = some ({ inv with files := inv.files ++ [entryFor p f] },
      some (p + (fileBlock f).length)) := by
  obtain ⟨b, hread, hcrc, htype, -, hentry, hnext⟩ := readBlock_fileHead h rfl hd
  have hfm : tFile ≠ tMain := by decide
  have hfe : tFile ≠ tEndarc := by decide
  rw [Block.entry, if_pos htype] at hentry
  obtain ⟨e, he, hfill⟩ := Option.map_eq_some_iff.mp hentry
  simp [turn, hread, hnext, Inventory.record, hcrc, Inventory.enter, htype, he, hfill, hfm, hfe]

theorem readBlock_endBlock {d : Bytes} {p : ℕ} (h : At d p endBlock) (hd : d.length ≤ wordMax) :
    ∃ b, readBlock d p = some (some b) ∧ b.crcOk = true ∧ b.fields.htype = tEndarc ∧
      b.next d = some (p + endBlock.length) := by
  have hlen : endBlock.length = headLength (putVint tEndarc ++ putVint 0) := length_block _ _
  have hend : p + endBlock.length ≤ d.length := by
    apply h.add_length_le
    apply List.ne_nil_of_length_pos
    rw [hlen, headLength]
    omega
  have hbody := h
  rw [endBlock, block, At.append_iff, At.append_iff, length_le32] at hbody
  obtain ⟨htype, hflags⟩ := At.append_iff.mp (At.append_iff.mp hbody.1.2).2
  have htype' := vint_putVint htype (by decide)
  have hflags' := vint_putVint hflags (by decide)
  have hfields : blockFields d
      (p + 4 + (putVint (putVint tEndarc ++ putVint 0).length).length) = some (⟨tEndarc, 0, 0, 0⟩,
        p + 4 + (putVint (putVint tEndarc ++ putVint 0).length).length +
          (putVint tEndarc).length + (putVint 0).length) := by
    have hno : (0 &&& 0x01 != 0) = false := by decide
    have hno' : (0 &&& 0x02 != 0) = false := by decide
    simp only [blockFields, htype', hflags', Option.bind_eq_bind, Option.bind_some, hno, hno',
      readIf_false]
    rfl
  refine ⟨_, readBlock_block h hd hfields, rfl, rfl, ?_⟩
  rw [Block.next]
  dsimp only
  rw [checkedAdd_of_le (by omega)]
  dsimp only
  rw [if_neg (by omega), hlen, Nat.add_zero]

theorem turn_endBlock {d : Bytes} {p : ℕ} (h : At d p endBlock) (hd : d.length ≤ wordMax)
    (inv : Inventory) : turn d p inv = some ({ inv with hasEnd := true }, none) := by
  obtain ⟨b, hread, hcrc, htype, hnext⟩ := readBlock_endBlock h hd
  have hem : tEndarc ≠ tMain := by decide
  have hef : tEndarc ≠ tFile := by decide
  have hes : tEndarc ≠ tService := by decide
  simp [turn, hread, hnext, Inventory.record, hcrc, Inventory.enter, htype, hem, hef, hes]

/-! ## The chain -/

/-- The entries of a run of file blocks that starts at `p`. -/
def entriesFrom : ℕ → List Member → List FileEntry
  | _, [] => []
  | p, f :: fs => entryFor p f :: entriesFrom (p + (fileBlock f).length) fs

theorem five_le_length_block (body data : Bytes) : 5 ≤ (block body data).length := by
  have hpos := putVint_pos body.length
  rw [length_block, headLength]
  omega

theorem walk_files {d : Bytes} {p : ℕ} {files : List Member} (n : ℕ)
    (h : At d p (files.flatMap fileBlock)) (hd : d.length ≤ wordMax) (inv : Inventory) :
    walk d (files.length + n) p inv = walk d n (p + (files.flatMap fileBlock).length)
      { inv with files := inv.files ++ entriesFrom p files } := by
  induction files generalizing p inv with
  | nil => simp [entriesFrom]
  | cons f fs ih =>
      rw [List.flatMap_cons, At.append_iff] at h
      obtain ⟨hfirst, hrest⟩ := h
      have hlen : 5 ≤ (fileBlock f).length := five_le_length_block _ _
      have hend := hfirst.add_length_le (List.ne_nil_of_length_pos (by omega))
      rw [List.length_cons, Nat.add_right_comm, walk, if_neg (by omega), turn_fileBlock hfirst hd]
      dsimp only
      rw [ih hrest, List.flatMap_cons, List.length_append, entriesFrom, Nat.add_assoc,
        List.append_assoc, List.singleton_append]

theorem walk_endBlock {d : Bytes} {p : ℕ} (n : ℕ) (h : At d p endBlock) (hd : d.length ≤ wordMax)
    (inv : Inventory) : walk d (n + 1) p inv = some { inv with hasEnd := true } := by
  have hlen : 5 ≤ endBlock.length := five_le_length_block _ _
  have hend := h.add_length_le (List.ne_nil_of_length_pos (by omega))
  rw [walk, if_neg (by omega), turn_endBlock h hd]

section Archive

variable {files : List Member}

theorem hasSignature_archive : HasSignature (archive files) := by
  rw [HasSignature, archive, List.append_assoc]
  exact List.take_left' rfl

theorem at_files : At (archive files) 8 (files.flatMap fileBlock) := by
  rw [archive, List.append_assoc]
  exact (At.append_iff.mp (At.self_append signature5 _)).1

theorem at_endBlock : At (archive files) (8 + (files.flatMap fileBlock).length) endBlock := by
  have h := At.self_append (signature5 ++ files.flatMap fileBlock) endBlock
  rwa [List.length_append] at h

/-- Where the parse stands when all file blocks are read. -/
def allRead (files : List Member) : Inventory :=
  { Inventory.empty with files := entriesFrom 8 files }

/-- With a turn left for the end block, the archive is read to its end. -/
theorem readInventory_archive_few (hfit : (archive files).length ≤ wordMax)
    (hfew : files.length < maxTurns) :
    readInventory (archive files) = some { allRead files with hasEnd := true } := by
  obtain ⟨n, hn⟩ := Nat.exists_eq_add_of_lt hfew
  rw [readInventory_eq hasSignature_archive, hn, Nat.add_assoc, walk_files _ at_files hfit,
    walk_endBlock n at_endBlock hfit]
  rfl

/-- Without one, the guard ends the walk before the end block. -/
theorem readInventory_archive_full (hfit : (archive files).length ≤ wordMax)
    (hfull : files.length = maxTurns) :
    readInventory (archive files) = some { allRead files with truncated := true } := by
  rw [readInventory_eq hasSignature_archive, ← hfull, ← Nat.add_zero files.length,
    walk_files 0 at_files hfit]
  rfl

end Archive

/-! ## The stored bytes -/

/-- What the parser reports for a file, and what comes out when it is extracted. -/
structure Restores (file : Bytes) (f : Member) (e : FileEntry) : Prop where
  name_eq : e.name = f.name
  size_eq : e.size = some f.data.length
  crc_eq : e.crc32 = some (checksum32 f.data)
  method_eq : e.method = 0
  packed_eq : e.packedSize = f.data.length
  extract_eq : extractStored file e = some f.data

theorem extractStored_entryFor {d : Bytes} {p : ℕ} {f : Member} (h : At d p (fileBlock f))
    (hd : d.length ≤ wordMax) : extractStored d (entryFor p f) = some f.data := by
  have hlen : (fileBlock f).length = headLength (fileBody f) + f.data.length := length_block _ _
  have hpos : 5 ≤ (fileBlock f).length := five_le_length_block _ _
  have hend := h.add_length_le (List.ne_nil_of_length_pos (by omega))
  have hdata : At d (p + headLength (fileBody f)) f.data := by
    rw [fileBlock, block, At.append_iff] at h
    have hright := h.2
    rwa [List.length_append, length_le32, List.length_append, ← Nat.add_assoc 4] at hright
  have hstop : checkedAdd (p + headLength (fileBody f)) f.data.length =
      some (p + headLength (fileBody f) + f.data.length) := checkedAdd_of_le (by omega)
  have hslice := hdata.slice?_of_le (by omega)
  simp [extractStored, entryFor, hstop, hslice]

theorem forall₂_restores {d : Bytes} {p : ℕ} {files : List Member}
    (h : At d p (files.flatMap fileBlock)) (hd : d.length ≤ wordMax) :
    List.Forall₂ (Restores d) files (entriesFrom p files) := by
  induction files generalizing p with
  | nil => exact List.Forall₂.nil
  | cons f fs ih =>
      rw [List.flatMap_cons, At.append_iff] at h
      refine List.Forall₂.cons ?_ (ih h.2)
      exact ⟨rfl, rfl, rfl, rfl, rfl, extractStored_entryFor h.1 hd⟩

/-- The archive of a list of files is read back whole. -/
def ReadBack (files : List Member) : Prop :=
  ∃ inv, readInventory (archive files) = some inv ∧
    List.Forall₂ (Restores (archive files)) files inv.files ∧
      inv.corruptBlocks = [] ∧ inv.hasEnd = true ∧ inv.truncated = false

/-- Any archive that fits into memory is read back, if a turn of the loop is left for its end. -/
theorem readBack_of_few {files : List Member} (hfit : (archive files).length ≤ wordMax)
    (hfew : files.length < maxTurns) : ReadBack files :=
  ⟨_, readInventory_archive_few hfit hfew, forall₂_restores at_files hfit, rfl, rfl, rfl⟩

def twoFiles : List Member := [⟨['a'], [1, 2]⟩, ⟨[], []⟩]

theorem length_twoFiles : (archive twoFiles).length ≤ wordMax := by
  have hname : (asBytes ['a']).length = 1 := by decide
  have hempty : (asBytes []).length = 0 := rfl
  simp [archive, twoFiles, fileBlock, length_block, headLength, fileBody, length_endBlock,
    putVint_of_lt, length_le32, hname, hempty, tFile]
  decide

theorem readBack_of_few_twoFiles : ReadBack twoFiles :=
  readBack_of_few length_twoFiles (by decide)

/-- As many empty files as the loop has turns. -/
def crowd : List Member := List.replicate maxTurns ⟨[], []⟩

theorem length_crowd : (archive crowd).length ≤ wordMax := by
  have hblock : (fileBlock ⟨[], []⟩).length ≤ 100 := by
    simp [fileBlock, length_block, headLength, fileBody, putVint_of_lt, length_le32, tFile, asBytes]
  have hend := length_endBlock
  have hfiles : (crowd.flatMap fileBlock).length = maxTurns * (fileBlock ⟨[], []⟩).length := by
    rw [List.length_flatMap, crowd, List.map_replicate, List.sum_replicate, smul_eq_mul]
  have hmul := Nat.mul_le_mul_left maxTurns hblock
  have hmax : maxTurns * 100 + 200 ≤ wordMax := by decide
  have hsig : signature5.length = 8 := rfl
  rw [archive, List.length_append, List.length_append, hfiles, hsig]
  omega

/-- The guard ends the walk before the end block is seen. -/
theorem crowd_not_readBack :
    (∀ f ∈ crowd, f.data.length < 2 ^ 32) ∧ (archive crowd).length ≤ wordMax ∧ ¬ReadBack crowd := by
  refine ⟨?_, length_crowd, ?_⟩
  · intro f hf
    rw [List.eq_of_mem_replicate hf]
    decide
  · rintro ⟨inv, hinv, -, -, hend, -⟩
    rw [readInventory_archive_full length_crowd List.length_replicate] at hinv
    cases hinv
    cases hend

end VeraqisRecover.Rar
