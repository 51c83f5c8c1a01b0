import VeraqisRecover.Zip.Extract

/-!
# The ZIP encoder

`encode_zip` of `build.rs`: each part is DEFLATE-compressed when that is
strictly smaller, else stored.
-/

namespace VeraqisRecover.Zip

open ByteString LossyUtf8

/-- A `(name, data)` part to be archived. -/
structure Part where
  name : Text
  data : Bytes
  deriving DecidableEq, Repr

namespace Part

def deflates (fl : Flate2) (p : Part) : Bool := (fl.deflate p.data).length < p.data.length

def method (fl : Flate2) (p : Part) : ℕ := if p.deflates fl then 8 else 0

def payload (fl : Flate2) (p : Part) : Bytes := if p.deflates fl then fl.deflate p.data else p.data

def crc (fl : Flate2) (p : Part) : ℕ := (fl.crc32 p.data).toNat

def rawName (p : Part) : Bytes := asBytes p.name

end Part

/-- The fixed part of a local file header. -/
def localHeader (fl : Flate2) (p : Part) : Bytes :=
  le32 lfhSig ++ le16 20 ++ le16 0 ++ le16 (p.method fl) ++ le16 0 ++ le16 0 ++ le32 (p.crc fl) ++
    le32 (p.payload fl).length ++ le32 p.data.length ++ le16 p.rawName.length ++ le16 0

/-- Header, name and payload of one part. -/
def localRecord (fl : Flate2) (p : Part) : Bytes :=
  localHeader fl p ++ p.rawName ++ p.payload fl

/-- The fixed part of a directory record for a part whose header is at `lho`. -/
def centralHeader (fl : Flate2) (p : Part) (lho : ℕ) : Bytes :=
  le32 cdfhSig ++ le16 20 ++ le16 20 ++ le16 0 ++ le16 (p.method fl) ++ le16 0 ++ le16 0 ++
    le32 (p.crc fl) ++ le32 (p.payload fl).length ++ le32 p.data.length ++
    le16 p.rawName.length ++ le16 0 ++ le16 0 ++ le16 0 ++ le16 0 ++ le32 0 ++ le32 lho

def centralRecord (fl : Flate2) (p : Part) (lho : ℕ) : Bytes :=
  centralHeader fl p lho ++ p.rawName

/-- The local records, in order. -/
def localRecords (fl : Flate2) (parts : List Part) : Bytes := parts.flatMap (localRecord fl)

/-- The directory records of parts whose first header is at `lho`. -/
def centralRecords (fl : Flate2) : ℕ → List Part → Bytes
  | _, [] => []
  | lho, p :: parts =>
      centralRecord fl p lho ++ centralRecords fl (lho + (localRecord fl p).length) parts

def endRecord (count cdSize cdOffset : ℕ) : Bytes :=
  le32 eocdSig ++ le16 0 ++ le16 0 ++ le16 count ++ le16 count ++ le32 cdSize ++ le32 cdOffset ++
    le16 0

/-- Build a ZIP from parts. -/
def encodeZip (fl : Flate2) (parts : List Part) : Bytes :=
  let body := localRecords fl parts
  let cd := centralRecords fl 0 parts
  body ++ cd ++ endRecord parts.length cd.length body.length

end VeraqisRecover.Zip
