import VeraqisRecover.Analyze.Healthy

/-!
# A healthy SQLite database

A database of whole pages, each a b-tree page or a page of the freelist.  The walk takes every
page for a b-tree page, and the detector asks for a second page, so a database without a defect
may be reported as a damaged one.
-/

namespace VeraqisRecover.Analyze

open ByteString Checked

/-- The number in the `k` bytes at `i`, most significant first. -/
def beNumber (k : ℕ) (d : Bytes) (i : ℕ) : ℕ := leValue ((d.drop i).take k).reverse

theorem beAt_eq_beNumber {k i : ℕ} {d : Bytes} (h : i + k ≤ d.length) :
    beAt k d i = .ok (beNumber k d i) := beAt_eq h

namespace SqliteReader

/-! ## The pages of the file format -/

/-- Page `n` of a file; the first page is page 1. -/
def pageBytes (pageSize : ℕ) (file : Bytes) (n : ℕ) : Bytes :=
  (file.drop ((n - 1) * pageSize)).take pageSize

/-- Where the b-tree header of a page stands in it. -/
def headerStart (n : ℕ) : ℕ := if n = 1 then 100 else 0

def typeByte (page : Bytes) (h : ℕ) : UInt8 := page.getD h 0

def cellCount (page : Bytes) (h : ℕ) : ℕ := beNumber 2 page (h + 3)

def pointerArray (page : Bytes) (h : ℕ) : ℕ := h + ptrArrayOffset (typeByte page h)

/-- Cell pointer `i` is not zero and points inside the page. -/
def PointerHolds (page : Bytes) (array i : ℕ) : Prop :=
  0 < beNumber 2 page (array + i * 2) ∧ beNumber 2 page (array + i * 2) < page.length

/-- A b-tree page with its header at `h`. -/
structure IsBtreePage (page : Bytes) (h : ℕ) : Prop where
  type : typeByte page h ∈ [2, 5, 10, 13]
  capacity : cellCount page h ≤ maxCells page.length
  pointers : ∀ i < cellCount page h, PointerHolds page (pointerArray page h) i

/-- What the walk looks at in a page; only the first eight pointers are sampled. -/
structure PassesWalk (page : Bytes) (h : ℕ) : Prop where
  type : typeByte page h ∈ [2, 5, 10, 13]
  capacity : cellCount page h ≤ maxCells page.length
  pointers : ∀ i < min (cellCount page h) 8, PointerHolds page (pointerArray page h) i

theorem IsBtreePage.passesWalk {page : Bytes} {h : ℕ} (hpage : IsBtreePage page h) :
    PassesWalk page h where
  type := hpage.type
  capacity := hpage.capacity
  pointers i hi := hpage.pointers i (hi.trans_le (min_le_left _ _))

/-- The pages of the freelist from trunk `n` on: a trunk names the next one, and its leaves. -/
inductive FreelistChain (page : ℕ → Bytes) : ℕ → List ℕ → Prop
  | done : FreelistChain page 0 []
  | trunk {n : ℕ} (leaves : List ℕ) {rest : List ℕ} (hn : n ≠ 0)
      (hcount : beNumber 4 (page n) 4 = leaves.length)
      (hfit : 8 + 4 * leaves.length ≤ (page n).length)
      (hleaves : ∀ i (hi : i < leaves.length), beNumber 4 (page n) (8 + 4 * i) = leaves[i])
      (hnext : FreelistChain page (beNumber 4 (page n) 0) rest) :
      FreelistChain page n (n :: (leaves ++ rest))

theorem FreelistChain.head {page : ℕ → Bytes} {n : ℕ} {free : List ℕ}
    (h : FreelistChain page n free) : n = 0 ∨ n ∈ free := by
  cases h with
  | done => exact .inl rfl
  | trunk => exact .inr List.mem_cons_self

end SqliteReader

open SqliteReader

/-- A database file in which every page has one of the two roles. -/
structure HealthyDatabase (s : DataSource) where
  pageSize : ℕ
  pages : ℕ
  freelist : List ℕ
  size_valid : ∃ k, 9 ≤ k ∧ k ≤ 16 ∧ pageSize = 2 ^ k
  one_le : 1 ≤ pages
  whole : s.len = pages * pageSize
  magic : s.bytes.take 16 = sqMagic
  size_field : beNumber 2 s.bytes 16 = if pageSize = 65536 then 1 else pageSize
  declared : beNumber 4 s.bytes 28 = pages
  counters : beNumber 4 s.bytes 24 = beNumber 4 s.bytes 92
  chain : FreelistChain (pageBytes pageSize s.bytes) (beNumber 4 s.bytes 32) freelist
  counted : beNumber 4 s.bytes 36 = freelist.length
  free_range : ∀ n ∈ freelist, 2 ≤ n ∧ n ≤ pages
  free_nodup : freelist.Nodup
  roles : ∀ n, 1 ≤ n → n ≤ pages →
    n ∈ freelist ∨ IsBtreePage (pageBytes pageSize s.bytes n) (headerStart n)

/-! ## The walk over one page -/

/-- Page `n` ends where the next one starts. -/
theorem pred_mul_add (pageSize : ℕ) {n : ℕ} (hn : 1 ≤ n) :
    (n - 1) * pageSize + pageSize = n * pageSize := by
  rw [Nat.sub_mul, Nat.one_mul, Nat.sub_add_cancel (Nat.le_mul_of_pos_left pageSize hn)]

section Page

variable {s : DataSource} {pageSize n : ℕ}

theorem length_pageBytes (hin : n * pageSize ≤ s.len) (hn : 1 ≤ n) :
    (pageBytes pageSize s.bytes n).length = pageSize := by
  have hpage := pred_mul_add pageSize hn
  unfold DataSource.len at hin
  rw [pageBytes, List.length_take, List.length_drop]
  omega

/-- What stands inside a page stands in the file. -/
theorem take_drop_pageBytes {j k : ℕ} (h : j + k ≤ pageSize) :
    ((pageBytes pageSize s.bytes n).drop j).take k =
      (s.bytes.drop ((n - 1) * pageSize + j)).take k := by
  rw [pageBytes, List.drop_take, List.take_take, List.drop_drop, min_eq_left (by omega)]

theorem readInPage (hin : n * pageSize ≤ s.len) (hn : 1 ≤ n) {j k : ℕ} (h : j + k ≤ pageSize)
    (hk : k < 2 ^ 63) : s.readExactAt ((n - 1) * pageSize + j) k =
      .ok (some (((pageBytes pageSize s.bytes n).drop j).take k)) := by
  have hlen := length_pageBytes hin hn
  have hfull : (((pageBytes pageSize s.bytes n).drop j).take k).length = k := by
    rw [List.length_take, List.length_drop, hlen]
    omega
  rw [s.readExactAt_eq hk, ← take_drop_pageBytes h, if_neg hfull.not_lt]

theorem checkCells_spec (hin : n * pageSize ≤ s.len) (hn : 1 ≤ n) {array : ℕ} {cells : List ℕ}
    (hcells : ∀ i ∈ cells, array + i * 2 + 2 ≤ pageSize) :
    Returns (checkCells s pageSize ((n - 1) * pageSize + array) cells) fun r ↦
      r = none ↔ ∀ i ∈ cells, PointerHolds (pageBytes pageSize s.bytes n) array i := by
  have hlen := length_pageBytes hin hn
  have haddr := s.len_lt
  have hpage := pred_mul_add pageSize hn
  induction cells with
  | nil => exact returns_pure (by simp)
  | cons i rest ih =>
      have hi := hcells i List.mem_cons_self
      rw [checkCells, mul_eq (by omega)]
      change Returns (add 64 _ (i * 2) >>= _) _
      rw [add_eq (by omega), Nat.add_assoc]
      change Returns (s.readExactAt ((n - 1) * pageSize + (array + i * 2)) 2 >>= _) _
      rw [readInPage hin hn hi (by decide)]
      have hptr : beAt 2 (((pageBytes pageSize s.bytes n).drop (array + i * 2)).take 2) 0 =
          .ok (beNumber 2 (pageBytes pageSize s.bytes n) (array + i * 2)) := by
        rw [beAt_eq (by rw [List.length_take, List.length_drop, hlen]; omega), List.drop_zero,
          List.take_take, min_self]
        rfl
      change Returns (beAt 2 _ 0 >>= _) _
      rw [hptr]
      by_cases hbad : beNumber 2 (pageBytes pageSize s.bytes n) (array + i * 2) = 0 ∨
          pageSize ≤ beNumber 2 (pageBytes pageSize s.bytes n) (array + i * 2)
      · refine returns_of_eq (if_pos hbad) ?_
        simp only [reduceCtorEq, false_iff, List.forall_mem_cons, not_and]
        intro hholds
        unfold PointerHolds at hholds
        omega
      · have hholds : PointerHolds (pageBytes pageSize s.bytes n) array i := by
          unfold PointerHolds
          omega
        obtain ⟨r, hr, hiff⟩ := ih fun j hj ↦ hcells j (List.mem_cons_of_mem i hj)
        refine returns_of_eq ((if_neg hbad).trans hr) ?_
        rw [hiff, List.forall_mem_cons, and_iff_right hholds]

theorem index_header {page : Bytes} {h : ℕ} (hh : h + 12 ≤ page.length) :
    index ((page.drop h).take 12) 0 = .ok (typeByte page h) := by
  rw [index_eq (by rw [List.length_take, List.length_drop]; omega), typeByte,
    List.getD_eq_getElem _ _ (by omega)]
  simp

theorem beAt_header {page : Bytes} {h : ℕ} (hh : h + 12 ≤ page.length) :
    beAt 2 ((page.drop h).take 12) 3 = .ok (cellCount page h) := by
  rw [beAt_eq (by rw [List.length_take, List.length_drop]; omega), cellCount, beNumber,
    List.drop_take, List.take_take, List.drop_drop]
  rfl

theorem pageError_spec (hin : n * pageSize ≤ s.len) (hn : 1 ≤ n) (hsize : 512 ≤ pageSize)
    {h : ℕ} (hh : h ≤ 100) :
    Returns (pageError s pageSize ((n - 1) * pageSize + h)
      (((pageBytes pageSize s.bytes n).drop h).take 12)) fun r ↦
        r = none ↔ PassesWalk (pageBytes pageSize s.bytes n) h := by
  have hlen := length_pageBytes hin hn
  have haddr := s.len_lt
  have hpage := pred_mul_add pageSize hn
  have hskip : ptrArrayOffset (typeByte (pageBytes pageSize s.bytes n) h) ≤ 12 := by
    unfold ptrArrayOffset
    split <;> decide
  unfold pageError
  rw [index_header (by omega)]
  change Returns (if _ then _ else _) _
  by_cases htype : typeByte (pageBytes pageSize s.bytes n) h ∉ [2, 5, 10, 13]
  · refine returns_of_eq (if_pos htype) ?_
    simp only [reduceCtorEq, false_iff]
    exact fun hpass ↦ htype hpass.type
  · rw [if_neg htype, beAt_header (by omega)]
    change Returns (if _ then _ else _) _
    by_cases hcap : maxCells pageSize < cellCount (pageBytes pageSize s.bytes n) h
    · refine returns_of_eq (if_pos hcap) ?_
      simp only [reduceCtorEq, false_iff]
      intro hpass
      have hle := hpass.capacity
      rw [hlen] at hle
      omega
    · rw [if_neg hcap, add_eq (by omega), Nat.add_assoc]
      have hcells : ∀ i ∈ List.range (min (cellCount (pageBytes pageSize s.bytes n) h) 8),
          pointerArray (pageBytes pageSize s.bytes n) h + i * 2 + 2 ≤ pageSize := by
        intro i hi
        rw [List.mem_range] at hi
        unfold pointerArray
        omega
      obtain ⟨r, hr, hiff⟩ := checkCells_spec hin hn hcells
      refine returns_of_eq hr (hiff.trans ?_)
      constructor
      · intro hall
        refine ⟨not_not.mp htype, ?_, fun i hi ↦ hall i (List.mem_range.mpr hi)⟩
        rw [hlen]
        omega
      · exact fun hpass i hi ↦ hpass.pointers i (List.mem_range.mp hi)

end Page

/-- The walk finds nothing exactly if every page passes. -/
theorem walkBtreePages_spec {s : DataSource} {pageSize : ℕ} (hsize : 512 ≤ pageSize)
    {ns : List ℕ} (hns : ∀ n ∈ ns, 1 ≤ n ∧ n * pageSize ≤ s.len) :
    Returns (walkBtreePages s pageSize ns) fun errors ↦
      errors = [] ↔ ∀ n ∈ ns, PassesWalk (pageBytes pageSize s.bytes n) (headerStart n) := by
  induction ns with
  | nil => exact returns_pure (by simp)
  | cons n rest ih =>
      obtain ⟨hn, hin⟩ := hns n List.mem_cons_self
      have haddr := s.len_lt
      have hpage := pred_mul_add pageSize hn
      have hstart : headerStart n ≤ 100 := by
        unfold headerStart
        split <;> decide
      have hheader : btreeHdrOffset n ((n - 1) * pageSize) =
          .ok ((n - 1) * pageSize + headerStart n) := by
        unfold btreeHdrOffset headerStart
        split
        · exact add_eq (by omega)
        · rfl
      obtain ⟨kind, hkind, hpass⟩ := pageError_spec hin hn hsize hstart
      obtain ⟨others, hothers, hrest⟩ := ih fun m hm ↦ hns m (List.mem_cons_of_mem n hm)
      rw [walkBtreePages, sub_eq hn]
      change Returns (mul 64 (n - 1) pageSize >>= _) _
      rw [mul_eq (by omega)]
      change Returns (btreeHdrOffset n ((n - 1) * pageSize) >>= _) _
      rw [hheader]
      change Returns (s.readExactAt ((n - 1) * pageSize + headerStart n) 12 >>= _) _
      rw [readInPage hin hn (by omega) (by decide)]
      change Returns (pageError s pageSize _ _ >>= _) _
      rw [hkind]
      change Returns (walkBtreePages s pageSize rest >>= _) _
      rw [hothers]
      refine returns_pure ?_
      rw [List.append_eq_nil_iff, hrest, List.forall_mem_cons, ← hpass]
      cases kind <;> simp

/-! ## The parse of a healthy database -/

section Healthy

variable {s : DataSource} (db : HealthyDatabase s)

theorem HealthyDatabase.pageSize_range : 512 ≤ db.pageSize ∧ db.pageSize ≤ 65536 := by
  obtain ⟨k, hlo, hhi, hk⟩ := db.size_valid
  rw [hk]
  exact ⟨Nat.pow_le_pow_right (n := 2) (by decide) hlo,
    Nat.pow_le_pow_right (n := 2) (by decide) hhi⟩

theorem HealthyDatabase.isValidPageSize : isValidPageSize db.pageSize = true := by
  obtain ⟨k, hlo, hhi, hk⟩ := db.size_valid
  rw [hk]
  interval_cases k <;> decide

theorem HealthyDatabase.page_le {n : ℕ} (hn : n ≤ db.pages) : n * db.pageSize ≤ s.len := by
  rw [db.whole]
  exact Nat.mul_le_mul_right _ hn

/-- Every page the walk reaches passes. -/
def HealthyDatabase.PagesPass : Prop :=
  ∀ n, 1 ≤ n → n ≤ min db.pages 512 →
    PassesWalk (pageBytes db.pageSize s.bytes n) (headerStart n)

/-- What the parse says of a healthy database without a WAL file. -/
structure HealthyParse (p : SqliteParse) : Prop where
  magic : p.magicOk = true
  sizeValid : p.pageSizeValid = true
  countMatches : p.pageCountMatches = true
  short : p.truncatedBeforePage2 = decide (db.pages < 2)
  boundary : p.endsOnPageBoundary = true
  trunk : p.freelistTrunkValid = true
  count : p.freelistCountValid = true
  counters : p.fileChangeCounter = p.versionValidFor
  errors : p.btreeErrors = [] ↔ db.PagesPass
  noWal : p.walPresent = false

theorem beNumber_take {k i n : ℕ} (h : i + k ≤ n) (d : Bytes) :
    beNumber k (d.take n) i = beNumber k d i := by
  rw [beNumber, beNumber, List.drop_take, List.take_take, min_eq_left (by omega)]

theorem beNumber_lt (k : ℕ) (d : Bytes) (i : ℕ) : beNumber k d i < 256 ^ k := by
  have hlt := leValue_lt ((d.drop i).take k).reverse
  have hlen : ((d.drop i).take k).reverse.length ≤ k := by
    rw [List.length_reverse]
    exact List.length_take_le _ _
  exact hlt.trans_le (Nat.pow_le_pow_right (by decide) hlen)

theorem HealthyDatabase.freelist_length_le : db.freelist.length ≤ db.pages := by
  have hsub : db.freelist ⊆ List.range' 1 db.pages := by
    intro n hn
    obtain ⟨hlo, hhi⟩ := db.free_range n hn
    exact List.mem_range'_1.mpr (by omega)
  have hle := (db.free_nodup.subperm hsub).length_le
  rwa [List.length_range'] at hle

theorem HealthyDatabase.head_le : beNumber 4 s.bytes 32 = 0 ∨ beNumber 4 s.bytes 32 ≤ db.pages := by
  rcases db.chain.head with hzero | hmem
  · exact .inl hzero
  · exact .inr (db.free_range _ hmem).2

theorem HealthyDatabase.hundred_le (db : HealthyDatabase s) : 100 ≤ s.len := by
  have hrange := db.pageSize_range.1
  have hpage := db.page_le db.one_le
  omega

/-- What the parse takes from the header alone. -/
def headerParse (hdr : Bytes) : SqliteParse where
  magicOk := hdr.take 16 = sqMagic
  pageSizeRaw := beNumber 2 hdr 16
  pageSize := if beNumber 2 hdr 16 = 1 then 65536 else beNumber 2 hdr 16
  pageSizeValid := isValidPageSize (if beNumber 2 hdr 16 = 1 then 65536 else beNumber 2 hdr 16)
  writeVersion := beNumber 1 hdr 18
  readVersion := beNumber 1 hdr 19
  fileChangeCounter := beNumber 4 hdr 24
  declaredPages := beNumber 4 hdr 28
  freelistTrunk := beNumber 4 hdr 32
  freelistCount := beNumber 4 hdr 36
  versionValidFor := beNumber 4 hdr 92

theorem parseHeader_eq {hdr : Bytes} (h : hdr.length = 100) :
    parseHeader hdr = .ok (headerParse hdr) := by
  unfold parseHeader
  refine bind_eq_ok.mpr ⟨_, range_eq (by omega) (by omega), ?_⟩
  refine bind_eq_ok.mpr ⟨_, beAt_eq_beNumber (by omega), ?_⟩
  refine bind_eq_ok.mpr ⟨_, beAt_eq_beNumber (by omega), ?_⟩
  refine bind_eq_ok.mpr ⟨_, beAt_eq_beNumber (by omega), ?_⟩
  refine bind_eq_ok.mpr ⟨_, beAt_eq_beNumber (by omega), ?_⟩
  refine bind_eq_ok.mpr ⟨_, beAt_eq_beNumber (by omega), ?_⟩
  refine bind_eq_ok.mpr ⟨_, beAt_eq_beNumber (by omega), ?_⟩
  refine bind_eq_ok.mpr ⟨_, beAt_eq_beNumber (by omega), ?_⟩
  refine bind_eq_ok.mpr ⟨_, beAt_eq_beNumber (by omega), ?_⟩
  rfl

/-- What the walk over the pages adds. -/
theorem walkPages_eq {p : SqliteParse} {errors : List BtreePageError}
    (hvalid : p.pageSizeValid = true) (hpos : 0 < p.pageSize) (hsmall : p.pageSize ≤ 65536)
    (hrun : walkBtreePages s p.pageSize
      (List.range' 1 (min (s.len / p.pageSize % 2 ^ 32) maxPagesWalk)) = .ok errors) :
    walkPages s p = .ok { p with
      actualPages := some (s.len / p.pageSize)
      endsOnPageBoundary := s.len % p.pageSize = 0
      truncatedBeforePage2 := s.len < p.pageSize * 2
      pageCountMatches := 0 < p.declaredPages && p.declaredPages = s.len / p.pageSize
      freelistTrunkValid := p.freelistTrunk = 0 || p.freelistTrunk ≤ s.len / p.pageSize
      freelistCountValid := p.freelistCount ≤ s.len / p.pageSize
      btreeErrors := errors } := by
  unfold walkPages
  rw [if_pos ⟨hvalid, hpos⟩]
  refine bind_eq_ok.mpr ⟨_, mul_eq (by omega), ?_⟩
  exact bind_eq_ok.mpr ⟨_, hrun, rfl⟩

theorem parse_healthy : Returns (SqliteReader.parse s none) (HealthyParse db) := by
  obtain ⟨hlo, hhi⟩ := db.pageSize_range
  have haddr := s.len_lt
  have hhundred := db.hundred_le
  have hone := db.one_le
  have hpages : db.pages < 2 ^ 32 := by
    rw [← db.declared]
    exact beNumber_lt 4 s.bytes 28
  have hdivide : s.len / db.pageSize = db.pages := by
    rw [db.whole, Nat.mul_div_cancel _ (by omega)]
  have hlen : (s.bytes.take 100).length = 100 := by
    unfold DataSource.len at hhundred
    rw [List.length_take, min_eq_left hhundred]
  have hread : s.readExactAt 0 100 = .ok (some (s.bytes.take 100)) := by
    rw [s.readExactAt_eq (by decide), List.drop_zero, if_neg hlen.not_lt]
  have hsize : (headerParse (s.bytes.take 100)).pageSize = db.pageSize := by
    rw [headerParse, beNumber_take (by decide), db.size_field]
    dsimp only
    split <;> split at * <;> omega
  have hvalid : (headerParse (s.bytes.take 100)).pageSizeValid = true := by
    rw [← db.isValidPageSize, ← hsize]
    rfl
  have hpages' : ∀ n ∈ List.range' 1 (min (db.pages % 2 ^ 32) maxPagesWalk),
      1 ≤ n ∧ n * db.pageSize ≤ s.len := by
    intro n hn
    rw [List.mem_range'_1] at hn
    exact ⟨hn.1, db.page_le (by omega)⟩
  obtain ⟨errors, hrun, herrors⟩ := walkBtreePages_spec hlo hpages'
  rw [SqliteReader.parse, hread]
  change Returns (parseHeader (s.bytes.take 100) >>= _) _
  rw [parseHeader_eq hlen]
  change Returns (walkPages s (headerParse (s.bytes.take 100)) >>= _) _
  rw [walkPages_eq hvalid (by omega) (by omega) (by rw [hsize, hdivide]; exact hrun)]
  refine returns_ok ?_
  rw [hsize, hdivide]
  have hfield : ∀ i, i + 4 ≤ 100 → beNumber 4 (s.bytes.take 100) i = beNumber 4 s.bytes i :=
    fun i hi ↦ beNumber_take hi s.bytes
  have hwalked : min (db.pages % 2 ^ 32) maxPagesWalk = min db.pages 512 := by
    rw [Nat.mod_eq_of_lt hpages, maxPagesWalk]
  exact {
    magic := by
      change decide ((s.bytes.take 100).take 16 = sqMagic) = true
      rw [List.take_take, min_eq_left (by decide)]
      exact decide_eq_true db.magic
    sizeValid := hvalid
    countMatches := by
      change (decide (0 < beNumber 4 (s.bytes.take 100) 28) &&
        decide (beNumber 4 (s.bytes.take 100) 28 = db.pages)) = true
      rw [hfield 28 (by decide), db.declared]
      simp only [decide_true, Bool.and_true, decide_eq_true_eq]
      omega
    short := by
      change decide (s.len < db.pageSize * 2) = _
      rw [db.whole, Nat.mul_comm]
      exact decide_eq_decide.mpr (Nat.mul_lt_mul_left (by omega))
    boundary := by
      change decide (s.len % db.pageSize = 0) = true
      rw [db.whole, Nat.mul_mod_left]
      rfl
    trunk := by
      change (decide (beNumber 4 (s.bytes.take 100) 32 = 0) ||
        decide (beNumber 4 (s.bytes.take 100) 32 ≤ db.pages)) = true
      rw [hfield 32 (by decide), Bool.or_eq_true, decide_eq_true_eq, decide_eq_true_eq]
      exact db.head_le
    count := by
      change decide (beNumber 4 (s.bytes.take 100) 36 ≤ db.pages) = true
      rw [hfield 36 (by decide), db.counted]
      exact decide_eq_true db.freelist_length_le
    counters := by
      change beNumber 4 (s.bytes.take 100) 24 = beNumber 4 (s.bytes.take 100) 92
      rw [hfield 24 (by decide), hfield 92 (by decide), db.counters]
    errors := by
      rw [hwalked] at herrors
      refine herrors.trans (forall_congr' fun n ↦ ?_)
      rw [List.mem_range'_1]
      constructor
      · exact fun h hlow hhigh ↦ h ⟨hlow, by omega⟩
      · exact fun h hmem ↦ h hmem.1 (by omega)
    noWal := rfl }

/-! ## What the detector says -/

variable {db}

theorem guarded_of_fine {max start stop : ℕ} {bad : Bool} (h : bad = false) (kind : DefectKind)
    (actual : Bytes) (expected : Option Bytes) (detail : String) (out : List Detected) :
    guarded max bad kind start stop actual expected detail out = .ok out := by
  refine if_neg ?_
  rw [h]
  exact fun hbad ↦ Bool.false_ne_true hbad.2

theorem eq_of_guarded_fine {max start stop : ℕ} {bad : Bool} (h : bad = false) {kind : DefectKind}
    {actual : Bytes} {expected : Option Bytes} {detail : String} {out out' : List Detected}
    (hout : guarded max bad kind start stop actual expected detail out = .ok out') : out' = out :=
  Except.ok.inj (hout.symm.trans (guarded_of_fine h kind actual expected detail out))

theorem sqPageCountDefect_fine {p : SqliteParse} (h : p.pageCountMatches = true) (max : ℕ)
    (out : List Detected) : sqPageCountDefect s p max out = .ok out := by
  unfold sqPageCountDefect
  split
  · rfl
  · exact guarded_of_fine (by rw [h]; rfl) _ _ _ _ _

/-- A database of two pages or more in which every page passes is clean. -/
theorem sqliteDefects_of_pass {p : SqliteParse} (hp : HealthyParse db p) (htwo : 2 ≤ db.pages)
    (hpass : db.PagesPass) (max : ℕ) : sqliteDefects s p [] max = .ok [] := by
  have hlong : p.truncatedBeforePage2 = false := by
    rw [hp.short]
    exact decide_eq_false htwo.not_gt
  unfold sqliteDefects
  split
  · rfl
  · rw [if_neg (not_not.mpr hp.magic), if_neg (not_not.mpr hp.sizeValid)]
    refine bind_eq_ok.mpr ⟨_, sqPageCountDefect_fine hp.countMatches max [], ?_⟩
    rw [if_neg (by rw [hlong]; simp)]
    refine bind_eq_ok.mpr ⟨_, guarded_of_fine (by rw [hp.boundary]; rfl) _ _ _ _ _, ?_⟩
    refine bind_eq_ok.mpr ⟨_, guarded_of_fine (by rw [hp.trunk]; rfl) _ _ _ _ _, ?_⟩
    refine bind_eq_ok.mpr ⟨_, guarded_of_fine (by rw [hp.count]; rfl) _ _ _ _ _, ?_⟩
    refine bind_eq_ok.mpr ⟨_, guarded_of_fine (by rw [hp.counters]; simp) _ _ _ _ _, ?_⟩
    rw [hp.errors.mpr hpass]
    refine bind_eq_ok.mpr ⟨_, rfl, ?_⟩
    refine bind_eq_ok.mpr ⟨_, guarded_of_fine (by rw [hp.noWal]; rfl) _ _ _ _ _, ?_⟩
    exact guarded_of_fine (by rw [hp.noWal]; rfl) _ _ _ _ _

theorem sqBtreeDefects_extends {pageSize max : ℕ} {errors : List BtreePageError}
    {out r : List Detected} (h : sqBtreeDefects pageSize max errors out = .ok r) : out <+: r := by
  induction errors generalizing out with
  | nil =>
      obtain rfl := Except.ok.inj h
      exact List.prefix_rfl
  | cons e rest ih =>
      rw [sqBtreeDefects] at h
      split at h
      · obtain rfl := Except.ok.inj h
        exact List.prefix_rfl
      · obtain ⟨stop, -, h⟩ := bind_eq_ok.mp h
        obtain ⟨location, -, h⟩ := bind_eq_ok.mp h
        exact (List.prefix_append _ _).trans (ih h)

theorem errors_nil_of_sqBtreeDefects {pageSize : ℕ} {errors : List BtreePageError}
    (h : sqBtreeDefects pageSize 1 errors [] = .ok []) : errors = [] := by
  cases errors with
  | nil => rfl
  | cons e rest =>
      rw [sqBtreeDefects, if_neg (by simp)] at h
      obtain ⟨stop, -, h⟩ := bind_eq_ok.mp h
      obtain ⟨location, -, h⟩ := bind_eq_ok.mp h
      exact absurd (sqBtreeDefects_extends h) (by simp)

/-- A cap of one shows whether a healthy database passes. -/
theorem pass_of_sqliteDefects {p : SqliteParse} (hp : HealthyParse db p)
    (h : sqliteDefects s p [] 1 = .ok []) : 2 ≤ db.pages ∧ db.PagesPass := by
  unfold sqliteDefects at h
  rw [if_neg (by simp), if_neg (not_not.mpr hp.magic), if_neg (not_not.mpr hp.sizeValid)] at h
  obtain ⟨out, hcount, h⟩ := bind_eq_ok.mp h
  rw [sqPageCountDefect_fine hp.countMatches] at hcount
  obtain rfl := Except.ok.inj hcount
  by_cases htwo : 2 ≤ db.pages
  · refine ⟨htwo, ?_⟩
    have hlong : p.truncatedBeforePage2 = false := by
      rw [hp.short]
      exact decide_eq_false htwo.not_gt
    rw [if_neg (by rw [hlong]; simp)] at h
    obtain ⟨out, hout, h⟩ := bind_eq_ok.mp h
    obtain rfl := eq_of_guarded_fine (by rw [hp.boundary]; rfl) hout
    obtain ⟨out, hout, h⟩ := bind_eq_ok.mp h
    obtain rfl := eq_of_guarded_fine (by rw [hp.trunk]; rfl) hout
    obtain ⟨out, hout, h⟩ := bind_eq_ok.mp h
    obtain rfl := eq_of_guarded_fine (by rw [hp.count]; rfl) hout
    obtain ⟨out, hout, h⟩ := bind_eq_ok.mp h
    obtain rfl := eq_of_guarded_fine (by rw [hp.counters]; simp) hout
    obtain ⟨found, hfound, h⟩ := bind_eq_ok.mp h
    obtain ⟨out, hmagic, hsalt⟩ := bind_eq_ok.mp h
    obtain rfl := eq_of_guarded_fine (by rw [hp.noWal]; rfl) hsalt
    obtain rfl := eq_of_guarded_fine (by rw [hp.noWal]; rfl) hmagic
    exact hp.errors.mp (errors_nil_of_sqBtreeDefects hfound)
  · have hshort : p.truncatedBeforePage2 = true := by
      rw [hp.short]
      exact decide_eq_true (Nat.lt_of_not_le htwo)
    rw [if_pos ⟨by simp, hshort⟩] at h
    obtain ⟨location, -, h⟩ := bind_eq_ok.mp h
    obtain ⟨twoPages, -, h⟩ := bind_eq_ok.mp h
    cases Except.ok.inj h

end Healthy

/-- Nothing is found with this companion file, whatever the cap. -/
def FindsNothing (inflate : Bytes → Bytes × Bool) (wal : Option (Option Bytes)) (s : DataSource)
    (format : ArchiveFormat) : Prop :=
  ∀ integrity max, integrity.manifestPresent = false →
    ∃ capped, detect inflate wal s format integrity true max = .ok ([], capped)

theorem HealthyDatabase.pagesPass_iff {s : DataSource} (db : HealthyDatabase s) :
    db.PagesPass ↔ ∀ n ∈ db.freelist, n ≤ 512 →
      PassesWalk (pageBytes db.pageSize s.bytes n) 0 := by
  constructor
  · intro h n hn hwalked
    obtain ⟨hlo, hhi⟩ := db.free_range n hn
    have hpass := h n (by omega) (by omega)
    rwa [headerStart, if_neg (by omega)] at hpass
  · intro h n hone hwalked
    rcases db.roles n hone (by omega) with hfree | hbtree
    · have hlo := (db.free_range n hfree).1
      rw [headerStart, if_neg (by omega)]
      exact h n hfree (by omega)
    · exact hbtree.passesWalk

theorem formatDefects_sqlite {s : DataSource} {p : SqliteParse} {wal : Option (Option Bytes)}
    (hparse : SqliteReader.parse s wal = .ok p) (inflate : Bytes → Bytes × Bool) (max : ℕ) :
    formatDefects inflate wal s .sqlite true max = sqliteDefects s p [] max := by
  rw [formatDefects, hparse]
  rfl

theorem pass_of_findsNothing {s : DataSource} (db : HealthyDatabase s)
    {inflate : Bytes → Bytes × Bool} (h : FindsNothing inflate none s .sqlite) :
    2 ≤ db.pages ∧ db.PagesPass := by
  obtain ⟨p, hparse, hp⟩ := parse_healthy db
  obtain ⟨capped, hdetect⟩ := h ⟨false, none, [], false⟩ 1 rfl
  obtain ⟨out, hout, hrest⟩ := bind_eq_ok.mp hdetect
  rw [manifestDefect_absent s 1 out rfl] at hrest
  have hnone : out.take 1 = [] := (Prod.mk.inj (Except.ok.inj hrest)).1
  cases out with
  | nil => exact pass_of_sqliteDefects hp ((formatDefects_sqlite hparse inflate 1).symm.trans hout)
  | cons d rest => cases hnone

/-- A healthy database is reported healthy exactly if it has a second page and each of its free
pages that the walk reaches looks like a b-tree page. -/
theorem healthyDatabase_findsNothing_iff {s : DataSource} (db : HealthyDatabase s)
    (inflate : Bytes → Bytes × Bool) :
    FindsNothing inflate none s .sqlite ↔ 2 ≤ db.pages ∧
      ∀ n ∈ db.freelist, n ≤ 512 → PassesWalk (pageBytes db.pageSize s.bytes n) 0 := by
  rw [← db.pagesPass_iff]
  constructor
  · exact pass_of_findsNothing db
  · rintro ⟨htwo, hpass⟩ integrity max hmanifest
    obtain ⟨p, hparse, hp⟩ := parse_healthy db
    refine ⟨decide (max ≤ 0), ?_⟩
    rw [detect, formatDefects_sqlite hparse, sqliteDefects_of_pass hp htwo hpass]
    change (manifestDefect s integrity max [] >>= _) = _
    rw [manifestDefect_absent s max [] hmanifest]
    exact congrArg (fun out ↦ Except.ok (out, decide (max ≤ 0))) List.take_nil

/-- The header of a database for pages of 512 bytes, and the empty root of its schema. -/
def schemaStart (pages trunk free : UInt8) : Bytes :=
  sqMagic ++ [0x02, 0x00, 1, 1, 0, 64, 32, 32, 0, 0, 0, 1, 0, 0, 0, pages, 0, 0, 0, trunk,
    0, 0, 0, free] ++ List.replicate 52 0 ++ [0, 0, 0, 1, 0, 0, 0, 0, 13, 0, 0, 0, 0, 2, 0, 0]

def schemaPage (pages trunk free : UInt8) : Bytes :=
  schemaStart pages trunk free ++ List.replicate 404 0

theorem length_schemaPage (pages trunk free : UInt8) :
    (schemaPage pages trunk free).length = 512 := by
  rw [schemaPage, List.length_append, List.length_replicate]
  rfl

theorem schemaPage_btree (pages trunk free : UInt8) :
    IsBtreePage (schemaPage pages trunk free) 100 := by
  have htype : typeByte (schemaPage pages trunk free) 100 = 13 := rfl
  have hcount : cellCount (schemaPage pages trunk free) 100 = 0 := rfl
  refine ⟨?_, ?_, ?_⟩
  · rw [htype]
    decide
  · rw [hcount]
    exact Nat.zero_le _
  · rw [hcount]
    exact fun i hi ↦ absurd hi (Nat.not_lt_zero i)

theorem pageBytes_first (pages trunk free : UInt8) (second : Bytes) :
    pageBytes 512 (schemaPage pages trunk free ++ second) 1 = schemaPage pages trunk free := by
  change (schemaPage pages trunk free ++ second).take 512 = schemaPage pages trunk free
  rw [← length_schemaPage pages trunk free, List.take_left]

theorem pageBytes_second (pages trunk free : UInt8) {second : Bytes} (h : second.length = 512) :
    pageBytes 512 (schemaPage pages trunk free ++ second) 2 = second := by
  change ((schemaPage pages trunk free ++ second).drop 512).take 512 = second
  rw [← length_schemaPage pages trunk free, List.drop_left, length_schemaPage]
  exact List.take_of_length_le h.le

/-- A leaf of one cell. -/
def tablePage : Bytes := [13, 0, 0, 0, 1, 1, 0xF0, 0, 1, 0xF0] ++ List.replicate 502 0

theorem length_tablePage : tablePage.length = 512 := by
  rw [tablePage, List.length_append, List.length_replicate]
  rfl

theorem tablePage_btree : IsBtreePage tablePage 0 := by
  refine ⟨by decide, ?_, ?_⟩
  · rw [length_tablePage]
    decide
  · intro i hi
    obtain rfl : i = 0 := Nat.lt_one_iff.mp hi
    exact ⟨by decide, length_tablePage ▸ by decide⟩

def twoTables : DataSource where
  bytes := schemaPage 2 0 0 ++ tablePage
  addressable := by
    rw [List.length_append, length_schemaPage, length_tablePage]
    decide

/-- A database of two pages with nothing on its freelist. -/
def twoTablesDatabase : HealthyDatabase twoTables where
  pageSize := 512
  pages := 2
  freelist := []
  size_valid := ⟨9, by decide⟩
  one_le := by decide
  whole := by
    change (schemaPage 2 0 0 ++ tablePage).length = 2 * 512
    rw [List.length_append, length_schemaPage, length_tablePage]
  magic := by decide
  size_field := by decide
  declared := by decide
  counters := by decide
  chain := .done
  counted := by decide
  free_range := by simp
  free_nodup := List.nodup_nil
  roles := by
    intro n hone hmax
    rcases Nat.lt_or_ge n 2 with hfirst | hsecond
    · obtain rfl : n = 1 := by omega
      exact .inr (pageBytes_first 2 0 0 tablePage ▸ schemaPage_btree 2 0 0)
    · obtain rfl : n = 2 := by omega
      exact .inr (pageBytes_second 2 0 0 length_tablePage ▸ tablePage_btree)

theorem twoTables_findsNothing : FindsNothing (fun body ↦ (body, true)) none twoTables .sqlite :=
  (healthyDatabase_findsNothing_iff twoTablesDatabase _).mpr ⟨le_rfl, by simp [twoTablesDatabase]⟩

def onePage : DataSource where
  bytes := schemaPage 1 0 0
  addressable := by
    rw [length_schemaPage]
    decide

/-- A database whose only page is its empty schema. -/
def onePageDatabase : HealthyDatabase onePage where
  pageSize := 512
  pages := 1
  freelist := []
  size_valid := ⟨9, by decide⟩
  one_le := le_rfl
  whole := length_schemaPage 1 0 0
  magic := by decide
  size_field := by decide
  declared := by decide
  counters := by decide
  chain := .done
  counted := by decide
  free_range := by simp
  free_nodup := List.nodup_nil
  roles := by
    intro n hone hmax
    obtain rfl : n = 1 := by omega
    have hpage : pageBytes 512 onePage.bytes 1 = schemaPage 1 0 0 :=
      List.take_of_length_le (length_schemaPage 1 0 0).le
    rw [hpage]
    exact .inr (schemaPage_btree 1 0 0)

def freedPage : Bytes := List.replicate 512 0

def onceTwoTables : DataSource where
  bytes := schemaPage 2 2 1 ++ freedPage
  addressable := by
    rw [List.length_append, length_schemaPage, freedPage, List.length_replicate]
    decide

theorem onceTwoTables_second : pageBytes 512 onceTwoTables.bytes 2 = freedPage :=
  pageBytes_second 2 2 1 List.length_replicate

/-- A database whose second page was given up: the one trunk of the freelist. -/
def freedDatabase : HealthyDatabase onceTwoTables where
  pageSize := 512
  pages := 2
  freelist := [2]
  size_valid := ⟨9, by decide⟩
  one_le := by decide
  whole := by
    change (schemaPage 2 2 1 ++ freedPage).length = 2 * 512
    rw [List.length_append, length_schemaPage, freedPage, List.length_replicate]
  magic := by decide
  size_field := by decide
  declared := by decide
  counters := by decide
  chain := by
    refine @FreelistChain.trunk _ _ [] [] (by decide) ?_ ?_ (by simp) ?_
    · change beNumber 4 (pageBytes 512 onceTwoTables.bytes 2) 4 = 0
      rw [onceTwoTables_second]
      decide
    · change 8 ≤ (pageBytes 512 onceTwoTables.bytes 2).length
      rw [onceTwoTables_second, freedPage, List.length_replicate]
      decide
    · change FreelistChain _ (beNumber 4 (pageBytes 512 onceTwoTables.bytes 2) 0) []
      rw [onceTwoTables_second]
      exact .done
  counted := by decide
  free_range := by simp
  free_nodup := List.nodup_singleton 2
  roles := by
    intro n hone hmax
    rcases Nat.lt_or_ge n 2 with hfirst | hsecond
    · obtain rfl : n = 1 := by omega
      exact .inr (pageBytes_first 2 2 1 freedPage ▸ schemaPage_btree 2 2 1)
    · exact .inl (List.mem_singleton.mpr (by omega))

/-- A database of one page and one with a free page are healthy, and both are reported. -/
theorem healthyDatabases_reported :
    (∃ db : HealthyDatabase onePage, db.pages = 1) ∧
      (∃ db : HealthyDatabase onceTwoTables, db.freelist = [2]) ∧
      ∀ inflate, ¬ FindsNothing inflate none onePage .sqlite ∧
        ¬ FindsNothing inflate none onceTwoTables .sqlite := by
  refine ⟨⟨onePageDatabase, rfl⟩, ⟨freedDatabase, rfl⟩, ?_⟩
  intro inflate
  constructor
  · intro h
    exact absurd (pass_of_findsNothing onePageDatabase h).1 (by decide)
  · intro h
    have hpass := (pass_of_findsNothing freedDatabase h).2 2 (by decide) (by decide)
    have hpage : pageBytes freedDatabase.pageSize onceTwoTables.bytes 2 = freedPage :=
      onceTwoTables_second
    rw [hpage] at hpass
    exact absurd hpass.type (by decide)

end VeraqisRecover.Analyze
