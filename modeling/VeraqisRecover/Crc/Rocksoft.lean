import VeraqisRecover.Support.ByteString

/-!
# The two CRC-32 engines

The parameterised bit-at-a-time engine of `crc/mod.rs` with the one parameter
set the archive walks use, and the table-driven accumulator of the analysis
engine's `crc32.rs`.
-/

namespace VeraqisRecover.Crc

/-- Rocksoft CRC parameters (`width` in `1..=64`). -/
structure CrcParams where
  width : ℕ
  poly : BitVec 64
  init : BitVec 64
  refin : Bool
  refout : Bool
  xorout : BitVec 64
  name : String

/-- `value.reverse_bits() >> (64 - width)`. -/
def reflect (value : BitVec 64) (width : ℕ) : BitVec 64 := value.reverse >>> (64 - width)

namespace CrcParams

/-- Low `width` bits all set. -/
def mask (p : CrcParams) : BitVec 64 :=
  if 64 ≤ p.width then BitVec.allOnes 64 else (1#64 <<< p.width) - 1#64

def topbit (p : CrcParams) : BitVec 64 := 1#64 <<< (p.width - 1)

/-- One turn of the inner loop. -/
def shiftBit (p : CrcParams) (reg : BitVec 64) : BitVec 64 :=
  if reg &&& p.topbit ≠ 0#64 then ((reg <<< 1) ^^^ p.poly) &&& p.mask else (reg <<< 1) &&& p.mask

def inputByte (p : CrcParams) (byte : UInt8) : BitVec 64 :=
  if p.refin then byte.toBitVec.reverse.setWidth 64 else byte.toBitVec.setWidth 64

def feedByte (p : CrcParams) (reg : BitVec 64) (byte : UInt8) : BitVec 64 :=
  p.shiftBit^[8] (reg ^^^ ((p.inputByte byte <<< (p.width - 8)) &&& p.mask))

/-- Forward CRC over `data`. -/
def checksum (p : CrcParams) (data : Bytes) : BitVec 64 :=
  let reg := data.foldl p.feedByte (p.init &&& p.mask)
  let reg := if p.refout then reflect reg p.width else reg
  (reg ^^^ p.xorout) &&& p.mask

end CrcParams

/-- CRC-32/ISO-HDLC, the CRC-32 of ZIP, GZIP and PNG. -/
def crc32IsoHdlcParams : CrcParams where
  width := 32
  poly := 0x04C11DB7#64
  init := 0xFFFFFFFF#64
  refin := true
  refout := true
  xorout := 0xFFFFFFFF#64
  name := "CRC-32/ISO-HDLC"

/-! ## The table-driven accumulator -/

/-- One turn of the loop that builds the table. -/
def tableStep (crc : BitVec 32) : BitVec 32 :=
  if crc &&& 1#32 = 1#32 then (crc >>> 1) ^^^ 0xEDB88320#32 else crc >>> 1

/-- The lookup table of polynomial 0xEDB88320. -/
def buildTable : List (BitVec 32) :=
  (List.range 256).map fun i ↦ tableStep^[8] (BitVec.ofNat 32 i)

/-- Streaming CRC-32 accumulator. -/
structure Crc32 where
  state : BitVec 32
  deriving DecidableEq

namespace Crc32

def new : Crc32 := ⟨0xFFFFFFFF#32⟩

def updateByte (crc : BitVec 32) (b : UInt8) : BitVec 32 :=
  let idx := ((crc ^^^ b.toBitVec.setWidth 32) &&& 0xFF#32).toNat
  (crc >>> 8) ^^^ buildTable.getD idx 0#32

/-- Feed more bytes. -/
def update (c : Crc32) (data : Bytes) : Crc32 := ⟨data.foldl updateByte c.state⟩

def finalize (c : Crc32) : BitVec 32 := c.state ^^^ 0xFFFFFFFF#32

end Crc32

/-- One-shot CRC-32 over a byte slice. -/
def crc32 (data : Bytes) : BitVec 32 := (Crc32.new.update data).finalize

end VeraqisRecover.Crc
