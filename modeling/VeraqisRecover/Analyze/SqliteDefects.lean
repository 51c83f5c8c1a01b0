import VeraqisRecover.Analyze.PageReaders

/-!
# Raw defects of a SQLite database

Most findings are one guarded step: the cap is not reached, a fact of the
parse is bad, and the field that shows it is at a fixed place in the header.
-/

namespace VeraqisRecover.Analyze

open ByteString Checked

/-- Two and four bytes, most significant first. -/
def be16 (v : ℕ) : Bytes := (le16 v).reverse
def be32 (v : ℕ) : Bytes := (le32 v).reverse

/-- Unless the cap is reached, report `kind` at `[start, stop)` if `bad`. -/
def guarded (max : ℕ) (bad : Bool) (kind : DefectKind) (start stop : ℕ) (actual : Bytes)
    (expected : Option Bytes) (detail : String) (out : List Detected) : Checked (List Detected) :=
  if out.length < max ∧ bad then do
    let location ← CorruptionLocation.stream start stop
    return out ++ [
      { kind, location, actualBytes := actual, expectedBytes := expected, detail }]
  else return out

def sqPageCountDefect (s : DataSource) (p : SqliteParse) (max : ℕ) (out : List Detected) :
    Checked (List Detected) :=
  match p.actualPages with
  | none => return out
  | some actual =>
      guarded max (!p.pageCountMatches && decide (0 < p.declaredPages)) .sqPageSizeMismatch 28 32
        (be32 p.declaredPages) none
        (s!"declared {p.declaredPages} pages but file holds {actual} " ++
          s!"({s.len} bytes, page_size {p.pageSize})") out

def sqMidPageDefect (s : DataSource) (p : SqliteParse) (max : ℕ) (out : List Detected) :
    Checked (List Detected) :=
  guarded max (!p.endsOnPageBoundary && !p.truncatedBeforePage2) .sqTruncatedMidPage 0 s.len [] none
    s!"file {s.len} bytes is not a multiple of page_size {p.pageSize}" out

def sqFreelistTrunkDefect (p : SqliteParse) (max : ℕ) (out : List Detected) :
    Checked (List Detected) :=
  guarded max (!p.freelistTrunkValid) .sqFreelistTrunkBad 32 36 (be32 p.freelistTrunk) none
    s!"freelist trunk page {p.freelistTrunk} > actual page count {p.actualPages.getD 0}" out

def sqFreelistCountDefect (p : SqliteParse) (max : ℕ) (out : List Detected) :
    Checked (List Detected) :=
  guarded max (!p.freelistCountValid) .sqFreelistCountBad 36 40 (be32 p.freelistCount) none
    s!"freelist count {p.freelistCount} > actual page count {p.actualPages.getD 0}" out

/-- In WAL mode the counters are maintained differently. -/
def sqChangeCounterDefect (p : SqliteParse) (max : ℕ) (out : List Detected) :
    Checked (List Detected) :=
  guarded max (p.writeVersion = 1 && p.fileChangeCounter ≠ p.versionValidFor)
    .sqFileChangeCounter 24 28 (be32 p.versionValidFor) (some (be32 p.fileChangeCounter))
    s!"file_change_counter {p.fileChangeCounter} ≠ version_valid_for {p.versionValidFor}" out

def btreeDefectKind : BtreeErrorKind → DefectKind
  | .invalidPageType _ => .sqBtreePageTypeBad
  | .cellCountExceedsCapacity _ _ => .sqBtreeCellCountBad
  | .cellPtrOutOfBounds _ _ => .sqBtreeCellPtrBad

def btreeDetail (e : BtreePageError) : String :=
  match e.kind with
  | .invalidPageType t =>
      s!"page {e.pageNum}: type byte 0x{hexUpper 2 t.toNat} not in " ++ "\x7b2,5,10,13\x7d"
  | .cellCountExceedsCapacity count pageSize =>
      s!"page {e.pageNum}: cell_count {count} exceeds capacity for page_size {pageSize}"
  | .cellPtrOutOfBounds ptr pageSize =>
      s!"page {e.pageNum}: cell_ptr 0x{hexUpper 4 ptr} >= page_size {pageSize}"

def sqBtreeDefects (pageSize max : ℕ) :
    List BtreePageError → List Detected → Checked (List Detected)
  | [], out => return out
  | e :: rest, out =>
      if max ≤ out.length then return out
      else do
        let stop ← add 64 e.pageOffset pageSize
        let location ← CorruptionLocation.stream e.pageOffset stop
        sqBtreeDefects pageSize max rest (out ++ [
          { kind := btreeDefectKind e.kind, location, detail := btreeDetail e }])

def sqWalMagicDefect (p : SqliteParse) (max : ℕ) (out : List Detected) :
    Checked (List Detected) :=
  guarded max (p.walPresent && !p.walMagicOk) .sqWalMagicBad 0 4 [] none
    "WAL file magic is not 0x377F0682 or 0x377F0683" out

def sqWalSaltDefect (p : SqliteParse) (max : ℕ) (out : List Detected) :
    Checked (List Detected) :=
  guarded max (p.walPresent && p.walMagicOk && !p.walSaltMatches) .sqWalSaltMismatch 16 20 [] none
    "WAL salt-1 does not match database version_valid_for" out

/-- A file without its second page is reported as such, and no further. -/
def sqShortDefect (s : DataSource) (p : SqliteParse) (out : List Detected) :
    Checked (List Detected) := do
  let location ← CorruptionLocation.stream 0 s.len
  let twoPages ← mul 32 p.pageSize 2
  return out ++ [
    { kind := .sqTruncatedBeforePage2
      location
      detail := s!"file {s.len} bytes; need at least {twoPages} for two pages" }]

/-- What is checked once magic and page size are known to be good. -/
def sqlitePageDefects (s : DataSource) (p : SqliteParse) (out : List Detected) (max : ℕ) :
    Checked (List Detected) := do
  let out ← sqPageCountDefect s p max out
  if out.length < max ∧ p.truncatedBeforePage2 then sqShortDefect s p out
  else
    let out ← sqMidPageDefect s p max out
    let out ← sqFreelistTrunkDefect p max out
    let out ← sqFreelistCountDefect p max out
    let out ← sqChangeCounterDefect p max out
    let out ← sqBtreeDefects p.pageSize max p.btreeErrors out
    let out ← sqWalMagicDefect p max out
    sqWalSaltDefect p max out

def sqliteDefects (s : DataSource) (p : SqliteParse) (out : List Detected) (max : ℕ) :
    Checked (List Detected) :=
  if max ≤ out.length then return out
  else if ¬ p.magicOk then do
    let location ← CorruptionLocation.stream 0 16
    return out ++ [
      { kind := .sqMagicBad
        location
        expectedBytes := some SqliteReader.sqMagic
        detail := "SQLite header magic mismatch" }]
  else if ¬ p.pageSizeValid then do
    let location ← CorruptionLocation.stream 16 18
    return out ++ [
      { kind := .sqPageSizeBad
        location
        actualBytes := be16 p.pageSizeRaw
        detail := s!"page_size {p.pageSize} is not a power of two in [512, 65536]" }]
  else sqlitePageDefects s p out max

/-! ## The checks return -/

theorem guarded_returns {start stop max : ℕ} (h : start ≤ stop) {out : List Detected}
    (hout : AllOrdered out) (bad : Bool) (kind : DefectKind) (actual : Bytes)
    (expected : Option Bytes) (detail : String) :
    Returns (guarded max bad kind start stop actual expected detail out) AllOrdered := by
  unfold guarded
  split
  · exact push_returns h hout fun _ ↦ rfl
  · exact returns_pure hout

theorem sqPageCountDefect_returns (s : DataSource) (p : SqliteParse) (max : ℕ)
    {out : List Detected} (hout : AllOrdered out) :
    Returns (sqPageCountDefect s p max out) AllOrdered := by
  unfold sqPageCountDefect
  split
  · exact returns_pure hout
  · exact guarded_returns (by decide) hout _ _ _ _ _

theorem sqBtreeDefects_returns {pageSize max : ℕ} {errors : List BtreePageError}
    {out : List Detected} (hsize : pageSize ≤ 65536) (herrors : ∀ e ∈ errors, e.pageOffset < 2 ^ 26)
    (hout : AllOrdered out) : Returns (sqBtreeDefects pageSize max errors out) AllOrdered := by
  induction errors generalizing out with
  | nil => exact returns_pure hout
  | cons e rest ih =>
      have hoffset := herrors e List.mem_cons_self
      rw [sqBtreeDefects]
      split
      · exact returns_pure hout
      · refine (add_returns (by omega)).bind fun stop hstop ↦ ?_
        have hle : e.pageOffset ≤ stop := by omega
        refine (stream_returns hle).bind fun l hl ↦ ?_
        apply ih fun e' he' ↦ herrors e' (List.mem_cons_of_mem e he')
        refine hout.append fun d hd ↦ ?_
        rw [List.mem_singleton.mp hd]
        exact hl

theorem sqShortDefect_returns (s : DataSource) {p : SqliteParse} (hsize : p.pageSize ≤ 65536)
    {out : List Detected} (hout : AllOrdered out) :
    Returns (sqShortDefect s p out) AllOrdered := by
  refine (stream_returns (Nat.zero_le _)).bind fun l hl ↦ ?_
  refine (mul_returns (by omega)).bind fun twoPages _ ↦ ?_
  refine returns_pure (hout.append fun d hd ↦ ?_)
  rw [List.mem_singleton.mp hd]
  exact hl

theorem sqlitePageDefects_returns (s : DataSource) {p : SqliteParse} (hp : SqliteReader.Bounded p)
    {out : List Detected} (hout : AllOrdered out) (max : ℕ) :
    Returns (sqlitePageDefects s p out max) AllOrdered := by
  refine (sqPageCountDefect_returns s p max hout).bind fun out hout ↦ ?_
  split
  · exact sqShortDefect_returns s hp.pageSize hout
  · refine (guarded_returns (Nat.zero_le _) hout _ _ _ _ _).bind fun out hout ↦ ?_
    refine (guarded_returns (by decide) hout _ _ _ _ _).bind fun out hout ↦ ?_
    refine (guarded_returns (by decide) hout _ _ _ _ _).bind fun out hout ↦ ?_
    refine (guarded_returns (by decide) hout _ _ _ _ _).bind fun out hout ↦ ?_
    refine (sqBtreeDefects_returns hp.pageSize hp.btreeErrors hout).bind fun out hout ↦ ?_
    refine (guarded_returns (by decide) hout _ _ _ _ _).bind fun out hout ↦ ?_
    exact guarded_returns (by decide) hout _ _ _ _ _

theorem sqliteDefects_returns (s : DataSource) {p : SqliteParse} (hp : SqliteReader.Bounded p)
    {out : List Detected} (hout : AllOrdered out) (max : ℕ) :
    Returns (sqliteDefects s p out max) AllOrdered := by
  unfold sqliteDefects
  split
  · exact returns_pure hout
  · split
    · exact push_returns (by decide) hout fun _ ↦ rfl
    · split
      · exact push_returns (by decide) hout fun _ ↦ rfl
      · exact sqlitePageDefects_returns s hp hout max

end VeraqisRecover.Analyze
