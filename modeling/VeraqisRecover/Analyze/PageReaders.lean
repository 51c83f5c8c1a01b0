import VeraqisRecover.Analyze.Source

/-!
# The read-only ISO 9660 and SQLite readers

The volume descriptor at its fixed sector (`reader/iso.rs`), the database
header, and the b-tree pages behind it (`reader/sqlite.rs`).
-/

namespace VeraqisRecover.Analyze

open ByteString Checked

/-! ## ISO 9660 -/

/-- Structural facts extracted from an ISO 9660 image. -/
structure IsoParse where
  pvdPresent : Bool := false
  volumeSpaceSectors : ℕ := 0
  pathTableSize : ℕ := 0
  pathTableLba : ℕ := 0
  pathTableInBounds : Bool := false
  deriving DecidableEq, Repr

namespace IsoReader

def sector : ℕ := 2048
def pvdOffset : ℕ := 16 * sector
def cd001 : Bytes := [0x43, 0x44, 0x30, 0x30, 0x31]

/-- Descriptor type 1 and "CD001". -/
def isPvd (pvd : Bytes) : Checked Bool := do
  let kind ← index pvd 0
  if kind ≠ 1 then return false else
  let id ← range pvd 1 6
  return id = cd001

def parse (s : DataSource) : Checked IsoParse := do
  match ← s.readExactAt pvdOffset sector with
  | none => return {}
  | some pvd =>
      let present ← isPvd pvd
      if ¬ present then return {} else
      let volumeSpaceSectors ← u32Field pvd 0 80
      let pathTableSize ← u32Field pvd 0 132
      let pathTableLba ← u32Field pvd 0 140
      let byteOffset ← mul 64 pathTableLba sector
      return {
        pvdPresent := true
        volumeSpaceSectors, pathTableSize, pathTableLba
        pathTableInBounds := 0 < pathTableLba && byteOffset < s.len }

theorem isPvd_returns {pvd : Bytes} (h : pvd.length = 2048) :
    Returns (isPvd pvd) fun _ ↦ True := by
  refine (index_returns (by omega)).bind fun kind _ ↦ ?_
  split
  · exact returns_pure trivial
  · refine (range_returns (by omega) (by omega)).bind fun id _ ↦ ?_
    exact returns_pure trivial

theorem parse_returns (s : DataSource) : Returns (parse s) fun p ↦ p.pathTableLba < 2 ^ 32 := by
  refine (s.readExactAt_returns (by decide)).bind fun r hr ↦ ?_
  cases r with
  | none => exact returns_pure (Nat.two_pow_pos 32)
  | some pvd =>
      obtain ⟨hlen, -⟩ := hr pvd rfl
      unfold sector at hlen
      refine (isPvd_returns hlen).bind fun present _ ↦ ?_
      split
      · exact returns_pure (Nat.two_pow_pos 32)
      · refine (u32Field_returns (by omega) (by omega)).bind fun volume _ ↦ ?_
        refine (u32Field_returns (by omega) (by omega)).bind fun size _ ↦ ?_
        refine (u32Field_returns (by omega) (by omega)).bind fun lba hlba ↦ ?_
        refine (mul_returns (by unfold sector; omega)).bind fun byteOffset _ ↦ ?_
        exact returns_pure hlba

end IsoReader

/-! ## SQLite -/

/-- Per-page b-tree error kinds. -/
inductive BtreeErrorKind
  | invalidPageType (pageType : UInt8)
  | cellCountExceedsCapacity (count pageSize : ℕ)
  | cellPtrOutOfBounds (ptr pageSize : ℕ)
  deriving DecidableEq, Repr

/-- One b-tree page anomaly. -/
structure BtreePageError where
  pageNum : ℕ
  pageOffset : ℕ
  kind : BtreeErrorKind
  deriving DecidableEq, Repr

/-- Structural facts extracted from a SQLite file. -/
structure SqliteParse where
  magicOk : Bool := false
  pageSizeRaw : ℕ := 0
  pageSize : ℕ := 0
  pageSizeValid : Bool := false
  declaredPages : ℕ := 0
  actualPages : Option ℕ := none
  endsOnPageBoundary : Bool := false
  truncatedBeforePage2 : Bool := false
  pageCountMatches : Bool := false
  freelistTrunk : ℕ := 0
  freelistCount : ℕ := 0
  freelistTrunkValid : Bool := true
  freelistCountValid : Bool := true
  fileChangeCounter : ℕ := 0
  versionValidFor : ℕ := 0
  writeVersion : ℕ := 0
  readVersion : ℕ := 0
  btreeErrors : List BtreePageError := []
  walPresent : Bool := false
  walMagicOk : Bool := false
  walSaltMatches : Bool := false
  deriving DecidableEq, Repr

namespace SqliteReader

def sqMagic : Bytes :=
  [0x53, 0x51, 0x4c, 0x69, 0x74, 0x65, 0x20, 0x66, 0x6f, 0x72, 0x6d, 0x61, 0x74, 0x20, 0x33, 0x00]

def maxPagesWalk : ℕ := 512
def walMagicLe : ℕ := 0x377f0682
def walMagicBe : ℕ := 0x377f0683

def isValidPageSize (ps : ℕ) : Bool := 512 ≤ ps && ps ≤ 65536 && ps &&& (ps - 1) = 0

/-- The first bad pointer among the cells of these numbers. -/
def checkCells (s : DataSource) (pageSize arrayOffset : ℕ) :
    List ℕ → Checked (Option BtreeErrorKind)
  | [] => return none
  | i :: rest => do
      let skip ← mul 64 i 2
      let ptrOff ← add 64 arrayOffset skip
      match ← s.readExactAt ptrOff 2 with
      | none => return none
      | some b =>
          let ptr ← beAt 2 b 0
          if ptr = 0 ∨ pageSize ≤ ptr then return some (.cellPtrOutOfBounds ptr pageSize)
          else checkCells s pageSize arrayOffset rest

/-- Interior pages have a longer header. -/
def ptrArrayOffset (pageType : UInt8) : ℕ := if pageType ∈ [2, 5] then 12 else 8

/-- The most cells that can fit. -/
def maxCells (pageSize : ℕ) : ℕ := (pageSize - 12) / 2 % 2 ^ 16

/-- What is wrong with the page whose b-tree header at `hdrOffset` is `hdr`. -/
def pageError (s : DataSource) (pageSize hdrOffset : ℕ) (hdr : Bytes) :
    Checked (Option BtreeErrorKind) := do
  let pageType ← index hdr 0
  if pageType ∉ [2, 5, 10, 13] then return some (.invalidPageType pageType) else
  let cellCount ← beAt 2 hdr 3
  if maxCells pageSize < cellCount then
    return some (.cellCountExceedsCapacity cellCount pageSize)
  else
  let arrayOffset ← add 64 hdrOffset (ptrArrayOffset pageType)
  checkCells s pageSize arrayOffset (List.range (min cellCount 8))

/-- Page 1 has the file header before its b-tree header. -/
def btreeHdrOffset (pageNum pageOffset : ℕ) : Checked ℕ :=
  if pageNum = 1 then add 64 pageOffset 100 else return pageOffset

/-- The anomalies of these pages, up to the first that cannot be read. -/
def walkBtreePages (s : DataSource) (pageSize : ℕ) : List ℕ → Checked (List BtreePageError)
  | [] => return []
  | pageNum :: rest => do
      let before ← sub pageNum 1
      let pageOffset ← mul 64 before pageSize
      let hdrOffset ← btreeHdrOffset pageNum pageOffset
      match ← s.readExactAt hdrOffset 12 with
      | none => return []
      | some hdr =>
          let kind ← pageError s pageSize hdrOffset hdr
          let others ← walkBtreePages s pageSize rest
          return (kind.map fun k ↦ ⟨pageNum, pageOffset, k⟩).toList ++ others

/-- The page facts that need a valid page size. -/
def walkPages (s : DataSource) (p : SqliteParse) : Checked SqliteParse :=
  if p.pageSizeValid ∧ 0 < p.pageSize then do
    let ps := p.pageSize
    let actual := s.len / ps
    let twoPages ← mul 64 ps 2
    let walkCount := min (actual % 2 ^ 32) maxPagesWalk
    let btreeErrors ← walkBtreePages s ps (List.range' 1 walkCount)
    return { p with
      actualPages := some actual
      endsOnPageBoundary := s.len % ps = 0
      truncatedBeforePage2 := s.len < twoPages
      pageCountMatches := 0 < p.declaredPages && p.declaredPages = actual
      freelistTrunkValid := p.freelistTrunk = 0 || p.freelistTrunk ≤ actual
      freelistCountValid := p.freelistCount ≤ actual
      btreeErrors }
  else return { p with truncatedBeforePage2 := s.len < 2048 }

/-- Probe the companion file: `none` when there is none, `some none` when it cannot be read. -/
def probeWal (wal : Option (Option Bytes)) (p : SqliteParse) : Checked SqliteParse :=
  match wal with
  | none => return p
  | some none => return { p with walPresent := true }
  | some (some bytes) =>
      if bytes.length < 32 then return { p with walPresent := true }
      else do
        let magic ← beAt 4 bytes 0
        let salt ← beAt 4 bytes 16
        return { p with
          walPresent := true
          walMagicOk := magic = walMagicLe || magic = walMagicBe
          walSaltMatches := salt = p.versionValidFor || salt = p.fileChangeCounter }

/-- The header fields. -/
def parseHeader (hdr : Bytes) : Checked SqliteParse := do
  let magic ← range hdr 0 16
  let raw ← beAt 2 hdr 16
  let pageSize := if raw = 1 then 65536 else raw
  let writeVersion ← beAt 1 hdr 18
  let readVersion ← beAt 1 hdr 19
  let fileChangeCounter ← beAt 4 hdr 24
  let declaredPages ← beAt 4 hdr 28
  let freelistTrunk ← beAt 4 hdr 32
  let freelistCount ← beAt 4 hdr 36
  let versionValidFor ← beAt 4 hdr 92
  return {
    magicOk := magic = sqMagic
    pageSizeRaw := raw
    pageSizeValid := isValidPageSize pageSize
    pageSize, writeVersion, readVersion, fileChangeCounter, declaredPages, freelistTrunk,
    freelistCount, versionValidFor }

def parse (s : DataSource) (wal : Option (Option Bytes)) : Checked SqliteParse := do
  match ← s.readExactAt 0 100 with
  | none => return { truncatedBeforePage2 := true }
  | some hdr =>
      let p ← parseHeader hdr
      let p ← walkPages s p
      probeWal wal p

/-! ## The reader returns -/

/-- Page sizes and page offsets stay far below a word. -/
structure Bounded (p : SqliteParse) : Prop where
  pageSize : p.pageSize ≤ 65536
  btreeErrors : ∀ e ∈ p.btreeErrors, e.pageOffset < 2 ^ 26

theorem checkCells_returns (s : DataSource) {pageSize arrayOffset : ℕ} {cells : List ℕ}
    (hoffset : arrayOffset < 2 ^ 27) (hcells : ∀ i ∈ cells, i < 8) :
    Returns (checkCells s pageSize arrayOffset cells) fun _ ↦ True := by
  induction cells with
  | nil => exact returns_pure trivial
  | cons i rest ih =>
      have hi := hcells i List.mem_cons_self
      rw [checkCells]
      refine (mul_returns (by omega)).bind fun skip hskip ↦ ?_
      refine (add_returns (by omega)).bind fun ptrOff _ ↦ ?_
      refine (s.readExactAt_returns (by decide)).bind fun r hr ↦ ?_
      cases r with
      | none => exact returns_pure trivial
      | some b =>
          obtain ⟨hlen, -⟩ := hr b rfl
          refine (beAt_returns (by omega)).bind fun ptr _ ↦ ?_
          split
          · exact returns_pure trivial
          · exact ih fun j hj ↦ hcells j (List.mem_cons_of_mem i hj)

theorem pageError_returns (s : DataSource) {pageSize hdrOffset : ℕ} {hdr : Bytes}
    (hoffset : hdrOffset < 2 ^ 26 + 100) (hhdr : hdr.length = 12) :
    Returns (pageError s pageSize hdrOffset hdr) fun _ ↦ True := by
  unfold pageError
  refine (index_returns (by omega)).bind fun pageType _ ↦ ?_
  split
  · exact returns_pure trivial
  · refine (beAt_returns (by omega)).bind fun cellCount _ ↦ ?_
    split
    · exact returns_pure trivial
    · have hskip : ptrArrayOffset pageType ≤ 12 := by
        unfold ptrArrayOffset
        split <;> decide
      refine (add_returns (by omega)).bind fun arrayOffset harray ↦ ?_
      refine checkCells_returns s (by omega) fun i hi ↦ ?_
      rw [List.mem_range] at hi
      omega

theorem btreeHdrOffset_returns {pageNum pageOffset : ℕ} (h : pageOffset < 2 ^ 26) :
    Returns (btreeHdrOffset pageNum pageOffset) (· < 2 ^ 26 + 100) := by
  unfold btreeHdrOffset
  split
  · exact ⟨_, add_eq (by omega), by omega⟩
  · exact returns_pure (by omega)

theorem walkBtreePages_returns (s : DataSource) {pageSize : ℕ} {pages : List ℕ}
    (hsize : pageSize ≤ 65536) (hpages : ∀ n ∈ pages, 1 ≤ n ∧ n ≤ 512) :
    Returns (walkBtreePages s pageSize pages) fun errors ↦
      ∀ e ∈ errors, e.pageOffset < 2 ^ 26 := by
  induction pages with
  | nil => exact returns_pure (by simp)
  | cons n rest ih =>
      obtain ⟨hone, hmax⟩ := hpages n List.mem_cons_self
      have hbound : (n - 1) * pageSize ≤ 511 * 65536 := Nat.mul_le_mul (by omega) hsize
      rw [walkBtreePages]
      refine (sub_returns hone).bind fun before hbefore ↦ ?_
      subst hbefore
      refine (mul_returns (by omega)).bind fun pageOffset hpage ↦ ?_
      have hoffset : pageOffset < 2 ^ 26 := by omega
      refine (btreeHdrOffset_returns hoffset).bind fun hdrOffset hhdr ↦ ?_
      refine (s.readExactAt_returns (by decide)).bind fun r hr ↦ ?_
      cases r with
      | none => exact returns_pure (by simp)
      | some hdr =>
          obtain ⟨hlen, -⟩ := hr hdr rfl
          refine (pageError_returns s hhdr hlen).bind fun kind _ ↦ ?_
          refine (ih fun m hm ↦ hpages m (List.mem_cons_of_mem n hm)).bind fun others hall ↦ ?_
          refine returns_pure fun e he ↦ ?_
          rcases List.mem_append.mp he with he | he
          · obtain ⟨k, -, rfl⟩ := Option.map_eq_some_iff.mp (Option.mem_toList.mp he)
            exact hoffset
          · exact hall e he

theorem walkPages_returns (s : DataSource) {p : SqliteParse} (hp : Bounded p) :
    Returns (walkPages s p) Bounded := by
  have hsize := hp.pageSize
  unfold walkPages
  split
  · refine (mul_returns (by omega)).bind fun twoPages _ ↦ ?_
    have hpages : ∀ n ∈ List.range' 1 (min (s.len / p.pageSize % 2 ^ 32) maxPagesWalk),
        1 ≤ n ∧ n ≤ 512 := by
      intro n hn
      rw [List.mem_range'_1] at hn
      unfold maxPagesWalk at hn
      omega
    refine (walkBtreePages_returns s hsize hpages).bind fun errors herrors ↦ ?_
    exact returns_pure ⟨hsize, herrors⟩
  · exact returns_pure ⟨hsize, hp.btreeErrors⟩

theorem probeWal_returns (wal : Option (Option Bytes)) {p : SqliteParse} (hp : Bounded p) :
    Returns (probeWal wal p) Bounded := by
  unfold probeWal
  split
  · exact returns_pure hp
  · exact returns_pure ⟨hp.pageSize, hp.btreeErrors⟩
  · split
    · exact returns_pure ⟨hp.pageSize, hp.btreeErrors⟩
    · refine (beAt_returns (by omega)).bind fun magic _ ↦ ?_
      refine (beAt_returns (by omega)).bind fun salt _ ↦ ?_
      exact returns_pure ⟨hp.pageSize, hp.btreeErrors⟩

theorem parseHeader_returns {hdr : Bytes} (h : hdr.length = 100) :
    Returns (parseHeader hdr) Bounded := by
  refine (range_returns (by omega) (by omega)).bind fun magic _ ↦ ?_
  refine (beAt_returns (by omega)).bind fun raw hraw ↦ ?_
  refine (beAt_returns (by omega)).bind fun writeVersion _ ↦ ?_
  refine (beAt_returns (by omega)).bind fun readVersion _ ↦ ?_
  refine (beAt_returns (by omega)).bind fun counter _ ↦ ?_
  refine (beAt_returns (by omega)).bind fun declared _ ↦ ?_
  refine (beAt_returns (by omega)).bind fun trunk _ ↦ ?_
  refine (beAt_returns (by omega)).bind fun count _ ↦ ?_
  refine (beAt_returns (by omega)).bind fun valid _ ↦ ?_
  refine returns_pure ⟨?_, by simp⟩
  dsimp only
  split
  · exact le_rfl
  · exact hraw.le

theorem parse_returns (s : DataSource) (wal : Option (Option Bytes)) :
    Returns (parse s wal) Bounded := by
  refine (s.readExactAt_returns (by decide)).bind fun r hr ↦ ?_
  cases r with
  | none => exact returns_pure ⟨Nat.zero_le _, by simp⟩
  | some hdr =>
      obtain ⟨hlen, -⟩ := hr hdr rfl
      refine (parseHeader_returns hlen).bind fun p hp ↦ ?_
      refine (walkPages_returns s hp).bind fun p hp ↦ ?_
      exact probeWal_returns wal hp

end SqliteReader

end VeraqisRecover.Analyze
