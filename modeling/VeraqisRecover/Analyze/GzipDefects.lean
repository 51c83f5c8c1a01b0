import VeraqisRecover.Analyze.Source
import VeraqisRecover.Crc.Rocksoft

/-!
# Raw defects of a GZIP file

The DEFLATE decoder is a parameter: what it puts out for a body, and whether
it came to the end of the stream without an error.
-/

namespace VeraqisRecover.Analyze

open ByteString Checked Crc

def gzMinSize : ℕ := 18

/-- Cap on what is kept of the decompressed bytes. -/
def gzDecompCap : ℕ := 64 * 1024 * 1024

/-! ## The header -/

/-- Past FEXTRA; absent when its length field is cut off. -/
def skipExtra (data : Bytes) (flags : UInt8) (pos : ℕ) : Checked (Option ℕ) :=
  if flags &&& 0x04 = 0 then return some pos
  else do
    let lenEnd ← add 64 pos 2
    if data.length < lenEnd then return none else
    let xlen ← leAt 2 data pos
    let skip ← add 64 2 xlen
    let next ← add 64 pos skip
    return some next

/-- Past the next zero byte, or one past the end. -/
def skipZeroTerminated (data : Bytes) (pos : ℕ) : Checked ℕ :=
  if pos < data.length then
    match index data pos with
    | .error f => .error f
    | .ok b =>
        if b = 0 then add 64 pos 1
        else
          match hnext : add 64 pos 1 with
          | .error f => .error f
          | .ok next =>
              have := add_eq_ok hnext
              skipZeroTerminated data next
  else add 64 pos 1
termination_by data.length - pos

/-- Past FNAME or FCOMMENT, if its flag is set. -/
def skipText (data : Bytes) (flag : UInt8) (pos : ℕ) : Checked ℕ :=
  if flag = 0 then return pos else skipZeroTerminated data pos

def skipHeaderCrc (flags : UInt8) (pos : ℕ) : Checked ℕ :=
  if flags &&& 0x02 = 0 then return pos else add 64 pos 2

/-- The index of the first byte of the DEFLATE body. -/
def gzBodyStart (data : Bytes) : Checked ℕ :=
  if data.length < 10 then return data.length
  else do
    let flags ← index data 3
    match ← skipExtra data flags 10 with
    | none => return data.length
    | some pos =>
        let pos ← skipText data (flags &&& 0x08) pos
        let pos ← skipText data (flags &&& 0x10) pos
        let pos ← skipHeaderCrc flags pos
        return min pos data.length

def gzMagicOk (head : Bytes) : Checked Bool :=
  if head.length < 2 then return false
  else do
    let first ← index head 0
    if first ≠ 0x1F then return false else
    let second ← index head 1
    return second = 0x8B

def gzMagicDefect (head : Bytes) (out : List Detected) : Checked (List Detected) := do
  let magicOk ← gzMagicOk head
  if magicOk then return out else
  let location ← CorruptionLocation.stream 0 2
  return out ++ [
    { kind := .gzMagicBad
      location
      actualBytes := if 2 ≤ head.length then head.take 2 else []
      expectedBytes := some [0x1F, 0x8B]
      detail := "magic bytes should be 1F 8B" }]

/-- The compression method byte, when it is not DEFLATE. -/
def gzOtherMethod (head : Bytes) : Checked (Option UInt8) :=
  if head.length < 3 then return none
  else do
    let method ← index head 2
    return if method = 0x08 then none else some method

/-! ## The body and the trailer -/

/-- A body that is empty or stops early; not reported next to a finding about the header. -/
def gzBodyDefect (s : DataSource) (bodyStart : ℕ) (detail : String) (out : List Detected) :
    Checked (List Detected) :=
  if out = [] then do
    let location ← CorruptionLocation.stream bodyStart s.len
    return out ++ [{ kind := .gzTruncated, location, detail }]
  else return out

def gzCrcDefect (s : DataSource) (storedCrc32 : ℕ) (decompressed : Bytes) (out : List Detected) :
    Checked (List Detected) :=
  let actualCrc := (crc32 decompressed).toNat
  if actualCrc = storedCrc32 then return out
  else do
    let first ← sub s.len 8
    let last ← sub s.len 4
    let location ← CorruptionLocation.stream first last
    return out ++ [
      { kind := .gzCrcBad
        location
        actualBytes := le32 storedCrc32
        expectedBytes := some (le32 actualCrc)
        detail := s!"trailer CRC32 0x{hexUpper 8 storedCrc32}; computed 0x{hexUpper 8 actualCrc}" }]

def gzIsizeDefect (s : DataSource) (storedIsize : ℕ) (decompressed : Bytes)
    (out : List Detected) : Checked (List Detected) :=
  let actualIsize := decompressed.length % 2 ^ 32
  if actualIsize = storedIsize then return out
  else do
    let first ← sub s.len 4
    let location ← CorruptionLocation.stream first s.len
    return out ++ [
      { kind := .gzIsizeBad
        location
        actualBytes := le32 storedIsize
        expectedBytes := some (le32 actualIsize)
        detail := s!"trailer ISIZE {storedIsize}; decompressed size {decompressed.length}" }]

/-- The trailer is checked against the bytes only when all of them came out. -/
def gzTrailerDefects (inflate : Bytes → Bytes × Bool) (s : DataSource)
    (bodyStart trailerStart : ℕ) (out : List Detected) : Checked (List Detected) := do
  let storedCrc32 ← u32Field s.bytes trailerStart 0
  let storedIsize ← u32Field s.bytes trailerStart 4
  let deflateBody ← range s.bytes bodyStart trailerStart
  let (all, fullyDecompressed) := inflate deflateBody
  let decompressed ← range all 0 (min all.length gzDecompCap)
  if ¬ fullyDecompressed then
    gzBodyDefect s bodyStart s!"{decompressed.length} bytes decompressed before stream error" out
  else
    let out ← gzCrcDefect s storedCrc32 decompressed out
    gzIsizeDefect s storedIsize decompressed out

def gzBodyDefects (inflate : Bytes → Bytes × Bool) (s : DataSource) (out : List Detected) :
    Checked (List Detected) := do
  let bodyStart ← gzBodyStart s.bytes
  let trailerStart := s.bytes.length - 8
  if trailerStart ≤ bodyStart then
    gzBodyDefect s bodyStart "DEFLATE body region is empty or overlaps trailer" out
  else gzTrailerDefects inflate s bodyStart trailerStart out

def gzShortDefect (s : DataSource) (out : List Detected) : Checked (List Detected) := do
  let actual := (← s.readExactAt 0 (min s.len 10)).getD []
  let location ← CorruptionLocation.stream 0 s.len
  return out ++ [
    { kind := .gzTruncated
      location
      actualBytes := actual
      detail := s!"file is only {s.len} bytes; minimum GZIP is {gzMinSize}" }]

def gzDefects (inflate : Bytes → Bytes × Bool) (s : DataSource) (out : List Detected) :
    Checked (List Detected) :=
  if s.len < gzMinSize then gzShortDefect s out
  else do
    let head ← range s.bytes 0 (min s.bytes.length 10)
    let out ← gzMagicDefect head out
    match ← gzOtherMethod head with
    | some method =>
        let location ← CorruptionLocation.stream 2 3
        return out ++ [
          { kind := .gzCompressionMethodBad
            location
            actualBytes := [method]
            expectedBytes := some [0x08]
            detail := s!"CM byte is 0x{hexUpper 2 method.toNat}; " ++
              "only DEFLATE (0x08) is supported" }]
    | none => gzBodyDefects inflate s out

/-! ## The checks return -/

theorem skipExtra_returns {data : Bytes} (flags : UInt8) {pos : ℕ} (hpos : pos < 2 ^ 32) :
    Returns (skipExtra data flags pos) fun r ↦ ∀ next ∈ r, next < 2 ^ 33 := by
  unfold skipExtra
  split
  · exact returns_pure fun next hnext ↦ Option.some.inj hnext ▸ (by omega)
  · refine (add_returns (by omega)).bind fun lenEnd hend ↦ ?_
    split
    · exact returns_pure (by simp)
    · refine (leAt_returns (by omega)).bind fun xlen hxlen ↦ ?_
      refine (add_returns (by omega)).bind fun skip hskip ↦ ?_
      refine (add_returns (by omega)).bind fun next hnext ↦ ?_
      exact returns_pure fun n hn ↦ Option.some.inj hn ▸ (by omega)

/-- The scan moves at most one past the data, or one past where it began. -/
theorem skipZeroTerminated_returns {data : Bytes} (hdata : data.length < 2 ^ 63) {pos : ℕ}
    (hpos : pos < 2 ^ 63 + 2 ^ 34) :
    Returns (skipZeroTerminated data pos) (· ≤ max pos data.length + 1) := by
  fun_induction skipZeroTerminated data pos with
  | case1 pos hlt f hindex => exact absurd hindex (index_returns hlt).ne_error
  | case2 pos hlt hindex => exact (add_returns (by omega)).mono fun v hv ↦ by omega
  | case3 pos hlt b hindex hb f hadd => exact absurd hadd (add_returns (by omega)).ne_error
  | case4 pos hlt b hindex hb hadd ih =>
      exact (ih (by omega)).mono fun v hv ↦ by omega
  | case5 pos hle => exact (add_returns (by omega)).mono fun v hv ↦ by omega

theorem skipText_returns {data : Bytes} (hdata : data.length < 2 ^ 63) (flag : UInt8) {pos : ℕ}
    (hpos : pos < 2 ^ 63 + 2 ^ 34) :
    Returns (skipText data flag pos) (· ≤ max pos data.length + 1) := by
  unfold skipText
  split
  · exact returns_pure (by omega)
  · exact skipZeroTerminated_returns hdata hpos

theorem skipHeaderCrc_returns (flags : UInt8) {pos : ℕ} (hpos : pos < 2 ^ 63 + 2 ^ 34) :
    Returns (skipHeaderCrc flags pos) fun _ ↦ True := by
  unfold skipHeaderCrc
  split
  · exact returns_pure trivial
  · exact (add_returns (by omega)).mono fun _ _ ↦ trivial

theorem gzBodyStart_returns {data : Bytes} (hdata : data.length < 2 ^ 63) :
    Returns (gzBodyStart data) (· ≤ data.length) := by
  unfold gzBodyStart
  split
  · exact returns_pure le_rfl
  · refine (index_returns (by omega)).bind fun flags _ ↦ ?_
    refine (skipExtra_returns flags (by decide)).bind fun r hr ↦ ?_
    cases r with
    | none => exact returns_pure le_rfl
    | some pos =>
        have hpos := hr pos rfl
        refine (skipText_returns hdata _ (by omega)).bind fun name hname ↦ ?_
        refine (skipText_returns hdata _ (by omega)).bind fun comment hcomment ↦ ?_
        refine (skipHeaderCrc_returns flags (by omega)).bind fun body _ ↦ ?_
        exact returns_pure (min_le_right _ _)

theorem gzMagicOk_returns (head : Bytes) : Returns (gzMagicOk head) fun _ ↦ True := by
  unfold gzMagicOk
  split
  · exact returns_pure trivial
  · refine (index_returns (by omega)).bind fun first _ ↦ ?_
    split
    · exact returns_pure trivial
    · exact (index_returns (by omega)).bind fun second _ ↦ returns_pure trivial

theorem gzMagicDefect_returns (head : Bytes) {out : List Detected} (hout : AllOrdered out) :
    Returns (gzMagicDefect head out) AllOrdered := by
  refine (gzMagicOk_returns head).bind fun magicOk _ ↦ ?_
  split
  · exact returns_pure hout
  · exact push_returns (Nat.zero_le _) hout fun _ ↦ rfl

theorem gzOtherMethod_returns (head : Bytes) : Returns (gzOtherMethod head) fun _ ↦ True := by
  unfold gzOtherMethod
  split
  · exact returns_pure trivial
  · exact (index_returns (by omega)).bind fun method _ ↦ returns_pure trivial

theorem gzBodyDefect_returns (s : DataSource) {bodyStart : ℕ} (hstart : bodyStart ≤ s.len)
    (detail : String) {out : List Detected} (hout : AllOrdered out) :
    Returns (gzBodyDefect s bodyStart detail out) AllOrdered := by
  unfold gzBodyDefect
  split
  · exact push_returns hstart hout fun _ ↦ rfl
  · exact returns_pure hout

theorem gzCrcDefect_returns (s : DataSource) (hlen : 8 ≤ s.len) (storedCrc32 : ℕ)
    (decompressed : Bytes) {out : List Detected} (hout : AllOrdered out) :
    Returns (gzCrcDefect s storedCrc32 decompressed out) AllOrdered := by
  unfold gzCrcDefect
  dsimp only
  split
  · exact returns_pure hout
  · refine (sub_returns hlen).bind fun first hfirst ↦ ?_
    refine (sub_returns (by omega)).bind fun last hlast ↦ ?_
    exact push_returns (by omega) hout fun _ ↦ rfl

theorem gzIsizeDefect_returns (s : DataSource) (hlen : 8 ≤ s.len) (storedIsize : ℕ)
    (decompressed : Bytes) {out : List Detected} (hout : AllOrdered out) :
    Returns (gzIsizeDefect s storedIsize decompressed out) AllOrdered := by
  unfold gzIsizeDefect
  dsimp only
  split
  · exact returns_pure hout
  · refine (sub_returns (by omega)).bind fun first hfirst ↦ ?_
    exact push_returns (by omega) hout fun _ ↦ rfl

theorem gzTrailerDefects_returns (inflate : Bytes → Bytes × Bool) (s : DataSource)
    {bodyStart trailerStart : ℕ} (hbody : bodyStart ≤ trailerStart)
    (htrailer : trailerStart + 8 ≤ s.len) {out : List Detected} (hout : AllOrdered out) :
    Returns (gzTrailerDefects inflate s bodyStart trailerStart out) AllOrdered := by
  have hlen : s.bytes.length = s.len := rfl
  refine (u32Field_returns s.addressable (by omega)).bind fun storedCrc32 _ ↦ ?_
  refine (u32Field_returns s.addressable (by omega)).bind fun storedIsize _ ↦ ?_
  refine (range_returns hbody (by omega)).bind fun deflateBody _ ↦ ?_
  refine (range_returns (Nat.zero_le _) (min_le_left _ _)).bind fun decompressed _ ↦ ?_
  split
  · exact gzBodyDefect_returns s (by omega) _ hout
  · refine (gzCrcDefect_returns s (by omega) _ _ hout).bind fun out hout ↦ ?_
    exact gzIsizeDefect_returns s (by omega) _ _ hout

theorem gzBodyDefects_returns (inflate : Bytes → Bytes × Bool) (s : DataSource)
    {out : List Detected} (hout : AllOrdered out) :
    Returns (gzBodyDefects inflate s out) AllOrdered := by
  have hlen : s.bytes.length = s.len := rfl
  refine (gzBodyStart_returns s.addressable).bind fun bodyStart hstart ↦ ?_
  dsimp only
  split
  · exact gzBodyDefect_returns s hstart _ hout
  · exact gzTrailerDefects_returns inflate s (by omega) (by omega) hout

theorem gzDefects_returns (inflate : Bytes → Bytes × Bool) (s : DataSource)
    {out : List Detected} (hout : AllOrdered out) :
    Returns (gzDefects inflate s out) AllOrdered := by
  unfold gzDefects
  split
  · refine (s.readExactAt_returns (by omega)).bind fun r _ ↦ ?_
    exact push_returns (Nat.zero_le _) hout fun _ ↦ rfl
  · refine (range_returns (Nat.zero_le _) (min_le_left _ _)).bind fun head _ ↦ ?_
    refine (gzMagicDefect_returns head hout).bind fun out hout ↦ ?_
    refine (gzOtherMethod_returns head).bind fun r _ ↦ ?_
    cases r with
    | none => exact gzBodyDefects_returns inflate s hout
    | some method => exact push_returns (by decide) hout fun _ ↦ rfl

end VeraqisRecover.Analyze
