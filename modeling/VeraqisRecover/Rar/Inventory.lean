import VeraqisRecover.Crc.Rocksoft
import VeraqisRecover.Rar.Vint
import VeraqisRecover.Support.LossyUtf8

/-!
# The RAR5 block parser

`read_inventory` and `extract_stored` of `rar/mod.rs`.  A block is a CRC-32
over its header, the header's size, the header, and the data area.  The loop
body is cut at its two joints: what is read of a block, what is entered into
the inventory, and where the walk goes on.
-/

namespace VeraqisRecover.Rar

open ByteString LossyUtf8 Reader

/-- RAR5 8-byte signature. -/
def signature5 : Bytes := [0x52, 0x61, 0x72, 0x21, 0x1A, 0x07, 0x01, 0x00]

def tMain : ℕ := 1
def tFile : ℕ := 2
def tService : ℕ := 3
def tEndarc : ℕ := 5

def arcVolume : ℕ := 0x0001
def arcRecoveryRecord : ℕ := 0x0008

/-- `CRC32_ISO_HDLC.checksum(..) as u32`. -/
def checksum32 (d : Bytes) : ℕ := (Crc.crc32IsoHdlcParams.checksum d).toNat % 2 ^ 32

/-- One inventory entry, proven from a CRC-verified RAR5 file header. -/
structure FileEntry where
  name : Text
  isDir : Bool
  size : Option ℕ
  crc32 : Option ℕ
  headerCrcOk : Bool
  method : ℕ
  dataOffset : ℕ
  packedSize : ℕ
  deriving DecidableEq

/-- Recovered RAR5 inventory and structural health. -/
structure Inventory where
  files : List FileEntry
  corruptBlocks : List ℕ
  hasEnd : Bool
  truncated : Bool
  hasRecoveryRecord : Bool
  isVolume : Bool
  deriving DecidableEq

namespace Inventory

def empty : Inventory := ⟨[], [], false, false, false, false⟩

def cut (inv : Inventory) : Inventory := { inv with truncated := true }

end Inventory

/-! ## File headers -/

/-- The fixed part of a file header, up to the length of the name. -/
structure HeaderFields where
  fileFlags : ℕ
  unpackedSize : ℕ
  crc32 : Option ℕ
  compInfo : ℕ
  nameLen : ℕ

def headerFields : Reader HeaderFields := fun d p ↦ do
  let (fileFlags, p) ← vint d p
  let (unpackedSize, p) ← vint d p
  let (_attributes, p) ← vint d p
  let (_mtime, p) ← readIf (fileFlags &&& 0x02 != 0) u32le d p
  let (crc32, p) ← readIf (fileFlags &&& 0x04 != 0) u32le d p
  let (compInfo, p) ← vint d p
  let (_hostOs, p) ← vint d p
  let (nameLen, p) ← vint d p
  some (⟨fileFlags, unpackedSize, crc32, compInfo, nameLen⟩, p)

theorem headerFields_framed : Framed headerFields := by
  apply vint_framed.bind
  intro fileFlags
  apply vint_framed.bind
  intro unpackedSize
  apply vint_framed.bind
  intro _
  apply (u32le_framed.readIf _).bind
  intro _
  apply (u32le_framed.readIf _).bind
  intro crc32
  apply vint_framed.bind
  intro compInfo
  apply vint_framed.bind
  intro _
  apply vint_framed.bind
  intro nameLen
  exact framed_pure _

def parseFileHeader (d : Bytes) (p stop : ℕ) : Option FileEntry := do
  let (h, p) ← headerFields d p
  let nameStop ← checkedAdd p h.nameLen
  if stop < nameStop then none
  else do
    let name ← slice? d p nameStop
    let isDir := h.fileFlags &&& 0x01 != 0
    some {
      name := fromUtf8Lossy name
      isDir := isDir
      size := if isDir then none else some h.unpackedSize
      crc32 := if isDir then none else h.crc32
      headerCrcOk := true
      method := (h.compInfo >>> 7) &&& 0x07
      dataOffset := 0
      packedSize := 0 }

/-- The bytes of a stored file, given out only when they have its length and its CRC-32. -/
def extractStored (file : Bytes) (e : FileEntry) : Option Bytes :=
  if e.isDir || e.method != 0 then none
  else do
    let size ← e.size
    if e.packedSize ≠ size then none
    else do
      let crc ← e.crc32
      let stop ← checkedAdd e.dataOffset size
      let bytes ← slice? file e.dataOffset stop
      if checksum32 bytes ≠ crc then none else some bytes

/-! ## Blocks -/

/-- Type, flags, extra area size and data size, the two sizes only where the flags say so. -/
structure BlockFields where
  htype : ℕ
  flags : ℕ
  extra : ℕ
  dataSize : ℕ
  deriving DecidableEq

def blockFields : Reader BlockFields := fun d p ↦ do
  let (htype, p) ← vint d p
  let (flags, p) ← vint d p
  let (extra, p) ← readIf (flags &&& 0x01 != 0) vint d p
  let (dataSize, p) ← readIf (flags &&& 0x02 != 0) vint d p
  some (⟨htype, flags, extra.getD 0, dataSize.getD 0⟩, p)

theorem blockFields_framed : Framed blockFields := by
  apply vint_framed.bind
  intro htype
  apply vint_framed.bind
  intro flags
  apply (vint_framed.readIf _).bind
  intro extra
  apply (vint_framed.readIf _).bind
  intro dataSize
  exact framed_pure _

/-- A block as the loop has read it; `cursor` stands behind the fields. -/
structure Block where
  blockStart : ℕ
  hsStart : ℕ
  bodyStart : ℕ
  bodyEnd : ℕ
  crcOk : Bool
  fields : BlockFields
  cursor : ℕ
  deriving DecidableEq

/-- `none` when an integer cannot be read; `some none` when the header runs past the end. -/
def readBlock (file : Bytes) (p : ℕ) : Option (Option Block) := do
  let (crc, hsStart) ← u32le file p
  let (headerSize, bodyStart) ← vint file hsStart
  match checkedAdd bodyStart headerSize with
  | none => some none
  | some bodyEnd =>
      if file.length < bodyEnd then some none
      else do
        let crcOk := checksum32 ((file.drop hsStart).take (bodyEnd - hsStart)) == crc
        let (fields, cursor) ← blockFields file bodyStart
        some (some ⟨p, hsStart, bodyStart, bodyEnd, crcOk, fields, cursor⟩)

/-- Everything that reading a block establishes about it. -/
theorem readBlock_eq_some {file : Bytes} {p : ℕ} {b : Block}
    (h : readBlock file p = some (some b)) :
    b.blockStart = p ∧ ∃ crc headerSize, u32le file p = some (crc, b.hsStart) ∧
      vint file b.hsStart = some (headerSize, b.bodyStart) ∧
      checkedAdd b.bodyStart headerSize = some b.bodyEnd ∧ b.bodyEnd ≤ file.length ∧
      b.crcOk = (checksum32 ((file.drop b.hsStart).take (b.bodyEnd - b.hsStart)) == crc) ∧
      blockFields file b.bodyStart = some (b.fields, b.cursor) := by
  simp only [readBlock, Option.bind_eq_bind, Option.bind_eq_some_iff] at h
  obtain ⟨⟨crc, hsStart⟩, hcrc, ⟨headerSize, bodyStart⟩, hsize, h⟩ := h
  split at h
  · cases h
  · rename_i bodyEnd hstop
    split at h
    · cases h
    · rename_i hle
      obtain ⟨⟨fields, cursor⟩, hfields, h⟩ := Option.bind_eq_some_iff.mp h
      cases h
      exact ⟨rfl, crc, headerSize, hcrc, hsize, hstop, not_lt.mp hle, rfl, hfields⟩

/-- The header lies in the file, and the fields begin inside of it or at its end. -/
theorem readBlock_bounds {file : Bytes} {p : ℕ} {b : Block}
    (h : readBlock file p = some (some b)) :
    b.hsStart ≤ b.bodyStart ∧ b.bodyStart ≤ b.bodyEnd ∧ b.bodyEnd ≤ file.length := by
  obtain ⟨-, crc, headerSize, -, hsize, hstop, hle, -, -⟩ := readBlock_eq_some h
  obtain ⟨-, hstop⟩ := checkedAdd_eq_some.mp hstop
  exact ⟨vint_framed.le hsize, by omega, hle⟩

/-- The name of the service block that holds the recovery record. -/
def recoveryName : Text := "RR".toList

/-- What a block whose header checks out proves. -/
def Inventory.enter (inv : Inventory) (file : Bytes) (b : Block) : Inventory :=
  if b.fields.htype = tMain then
    match vint file b.cursor with
    | some (arcFlags, _) => { inv with
        hasRecoveryRecord := inv.hasRecoveryRecord || arcFlags &&& arcRecoveryRecord != 0
        isVolume := inv.isVolume || arcFlags &&& arcVolume != 0 }
    | none => inv
  else if b.fields.htype = tFile then
    match parseFileHeader file b.cursor b.bodyEnd with
    | some e => { inv with
        files := inv.files ++
          [{ e with dataOffset := b.bodyEnd, packedSize := b.fields.dataSize }] }
    | none => inv
  else if b.fields.htype = tService then
    match parseFileHeader file b.cursor b.bodyEnd with
    | some e => if e.name = recoveryName then { inv with hasRecoveryRecord := true } else inv
    | none => inv
  else if b.fields.htype = tEndarc then { inv with hasEnd := true }
  else inv

def Inventory.record (inv : Inventory) (file : Bytes) (b : Block) : Inventory :=
  if b.crcOk then inv.enter file b
  else { inv with corruptBlocks := inv.corruptBlocks ++ [b.blockStart] }

/-- Where the data area ends, if it ends in the file. -/
def Block.next (b : Block) (file : Bytes) : Option ℕ :=
  match checkedAdd b.bodyEnd b.fields.dataSize with
  | none => none
  | some next => if file.length < next then none else some next

/-- One turn of the loop: the inventory after it, and where the next block starts, if any. -/
def turn (file : Bytes) (p : ℕ) (inv : Inventory) : Option (Inventory × Option ℕ) :=
  match readBlock file p with
  | none => none
  | some none => some (inv.cut, none)
  | some (some b) =>
      let inv := inv.record file b
      match b.next file with
      | none => some (inv.cut, none)
      | some next => some (inv, if b.crcOk ∧ b.fields.htype = tEndarc then none else some next)

/-- At most `n` more turns. -/
def walk (file : Bytes) : ℕ → ℕ → Inventory → Option Inventory
  | 0, _, inv => some inv
  | n + 1, p, inv =>
      if file.length < p + 5 then some inv
      else
        match turn file p inv with
        | none => none
        | some (inv, none) => some inv
        | some (inv, some next) => walk file n next inv

/-- The loop's guard. -/
def maxTurns : ℕ := 1000000

def Inventory.close (inv : Inventory) : Inventory :=
  if !inv.hasEnd && inv.corruptBlocks.isEmpty then inv.cut else inv

/-- Parse a RAR5 file's block chain into a verified inventory. -/
def readInventory (file : Bytes) : Option Inventory :=
  if file.length < 8 ∨ file.take 8 ≠ signature5 then none
  else do
    let inv ← walk file maxTurns 8 Inventory.empty
    some inv.close

end VeraqisRecover.Rar
