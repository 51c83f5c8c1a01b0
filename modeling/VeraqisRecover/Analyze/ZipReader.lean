import VeraqisRecover.Analyze.Source

/-!
# The read-only ZIP reader

The end record is searched for from the back, and the directory it points at
is walked header by header (`reader/zip.rs`).
-/

namespace VeraqisRecover.Analyze

open ByteString Checked LossyUtf8

/-- A logical member of an archive. -/
structure ArchiveEntry where
  path : Text
  size : ℕ
  compressedSize : ℕ
  offset : ℕ
  encrypted : Bool
  storedCrc32 : Option ℕ
  isLink : Bool
  linkTarget : Option Text
  deriving DecidableEq, Repr

/-- Structural facts extracted from a ZIP container. -/
structure ZipParse where
  eocdOffset : Option ℕ := none
  declaredEntries : ℕ := 0
  cdOffset : ℕ := 0
  cdPresent : Bool := false
  localHeadersOk : Bool := true
  entries : List ArchiveEntry := []
  methods : List ℕ := []
  deriving DecidableEq, Repr

namespace ZipReader

def eocdSig : ℕ := 0x06054b50
def cdfhSig : ℕ := 0x02014b50
def lfhSig : ℕ := 0x04034b50
def eocdMinLen : ℕ := 22

/-- Bytes to scan back for the EOCD. -/
def eocdScanWindow : ℕ := 22 + 0xFFFF

/-- The first of these positions that carries the EOCD signature. -/
def findEocdAt (buf : Bytes) : List ℕ → Checked (Option ℕ)
  | [] => return none
  | i :: rest => do
      let sig ← u32Field buf i 0
      if sig = eocdSig then return some i else findEocdAt buf rest

def findEocd (buf : Bytes) : Checked (Option ℕ) :=
  if buf.length < eocdMinLen then return none
  else do
    let last ← sub buf.length 4
    findEocdAt buf (List.range (last + 1)).reverse

/-- The directory header at `pos`, its method, and the position after it. -/
def centralHeaderAt (cd : Bytes) (pos : ℕ) : Checked (Option (ArchiveEntry × ℕ × ℕ)) := do
  let sig ← u32Field cd pos 0
  if sig ≠ cdfhSig then return none else
  let flags ← u16Field cd pos 8
  let method ← u16Field cd pos 10
  let crc ← u32Field cd pos 16
  let compSize ← u32Field cd pos 20
  let uncompSize ← u32Field cd pos 24
  let nameLen ← u16Field cd pos 28
  let extraLen ← u16Field cd pos 30
  let commentLen ← u16Field cd pos 32
  let externalAttrs ← u32Field cd pos 38
  let lfhOffset ← u32Field cd pos 42
  let nameStart ← add 64 pos 46
  let nameEnd ← add 64 nameStart nameLen
  if cd.length < nameEnd then return none else
  let raw ← range cd nameStart nameEnd
  -- symbolic links carry their mode in the high half of the external attributes
  let unixMode := (externalAttrs >>> 16) &&& 0xFFFF
  let extraEnd ← add 64 nameEnd extraLen
  let next ← add 64 extraEnd commentLen
  return some (
    { path := fromUtf8Lossy raw
      size := uncompSize
      compressedSize := compSize
      offset := lfhOffset
      encrypted := flags &&& 0x0001 ≠ 0 || flags &&& 0x0040 ≠ 0
      storedCrc32 := some crc
      isLink := unixMode &&& 0xF000 = 0xA000
      linkTarget := none }, method, next)

theorem centralHeaderAt_next {cd : Bytes} {pos : ℕ} {r : ArchiveEntry × ℕ × ℕ}
    (h : centralHeaderAt cd pos = .ok (some r)) : pos + 46 ≤ r.2.2 := by
  unfold centralHeaderAt at h
  simp only [bind_eq_ok] at h
  obtain ⟨sig, -, h⟩ := h
  split at h
  · cases h
  · simp only [bind_eq_ok] at h
    obtain ⟨_, -, _, -, _, -, _, -, _, -, _, -, _, -, _, -, _, -, _, -, nameStart, hstart, nameEnd,
      hend, h⟩ := h
    split at h
    · cases h
    · simp only [bind_eq_ok] at h
      obtain ⟨_, -, extraEnd, hextra, next, hnext, h⟩ := h
      obtain rfl := Option.some.inj (Except.ok.inj h)
      have h₁ := add_eq_ok hstart
      have h₂ := add_eq_ok hend
      have h₃ := add_eq_ok hextra
      have h₄ := add_eq_ok hnext
      dsimp only
      omega

/-- Walk the directory headers from `pos`; the first malformed one ends it. -/
def centralFrom (cd : Bytes) (pos : ℕ) (members : List (ArchiveEntry × ℕ)) :
    Checked (List (ArchiveEntry × ℕ)) :=
  match hfixed : add 64 pos 46 with
  | .error f => .error f
  | .ok fixedEnd =>
      if cd.length < fixedEnd then .ok members
      else
        match hheader : centralHeaderAt cd pos with
        | .error f => .error f
        | .ok none => .ok members
        | .ok (some (e, method, next)) =>
            have : pos + 46 ≤ next := centralHeaderAt_next hheader
            have := add_eq_ok hfixed
            centralFrom cd next (members ++ [(e, method)])
termination_by cd.length - pos

def parseCentralDirectory (cd : Bytes) : Checked (List ArchiveEntry × List ℕ) := do
  let members ← centralFrom cd 0 []
  return members.unzip

def startsWithHeader (cd : Bytes) : Checked Bool :=
  if 4 ≤ cd.length then do
    let sig ← u32Field cd 0 0
    return decide (sig = cdfhSig)
  else return false

/-- Whether the directory starts with a header, and its members. -/
def readCentralDirectory (s : DataSource) (cdOffset cdSize : ℕ) :
    Checked (Bool × List ArchiveEntry × List ℕ) :=
  if cdOffset < s.len then do
    match ← s.readExactAt cdOffset cdSize with
    | none => return (false, [], [])
    | some cd =>
        let cdPresent ← startsWithHeader cd
        let members ← parseCentralDirectory cd
        return (cdPresent, members)
  else return (false, [], [])

/-- Does a local header stand where each entry points? -/
def localHeadersOk (s : DataSource) : List ArchiveEntry → Checked Bool
  | [] => return true
  | e :: rest => do
      let sig ← s.readAt e.offset 4
      if sig.length < 4 then return false else
      let v ← leAt 4 sig 0
      if v ≠ lfhSig then return false else localHeadersOk s rest

/-- Parse the ZIP structure defensively. -/
def parse (s : DataSource) : Checked ZipParse :=
  if s.len < eocdMinLen then return {}
  else do
    let window := min eocdScanWindow s.len
    let start ← sub s.len window
    match ← s.readExactAt start window with
    | none => return {}
    | some buf =>
        match ← findEocd buf with
        | none => return {}
        | some rel =>
            let eocdAbs ← add 64 start rel
            let eocd ← range buf rel buf.length
            if eocd.length < eocdMinLen then return { eocdOffset := some eocdAbs } else
            let declaredEntries ← u16Field eocd 0 10
            let cdSize ← u32Field eocd 0 12
            let cdOffset ← u32Field eocd 0 16
            let (cdPresent, entries, methods) ← readCentralDirectory s cdOffset cdSize
            let localHeadersOk ← localHeadersOk s entries
            return {
              eocdOffset := some eocdAbs
              declaredEntries, cdOffset, cdPresent, localHeadersOk, entries, methods }

/-! ## The reader returns -/

theorem findEocdAt_returns {buf : Bytes} (hbuf : buf.length < 2 ^ 63) {l : List ℕ}
    (h : ∀ i ∈ l, i + 4 ≤ buf.length) :
    Returns (findEocdAt buf l) fun r ↦ ∀ i ∈ r, i + 4 ≤ buf.length := by
  induction l with
  | nil => exact returns_pure (by simp)
  | cons i rest ih =>
      have hi := h i List.mem_cons_self
      rw [findEocdAt]
      refine (u32Field_returns hbuf (by omega)).bind fun sig _ ↦ ?_
      split
      · exact returns_pure fun j hj ↦ Option.some.inj hj ▸ hi
      · exact ih fun j hj ↦ h j (List.mem_cons_of_mem i hj)

theorem findEocd_returns {buf : Bytes} (hbuf : buf.length < 2 ^ 63) :
    Returns (findEocd buf) fun r ↦ ∀ i ∈ r, i + 4 ≤ buf.length := by
  unfold findEocd
  split
  · exact returns_pure (by simp)
  · rename_i hlen
    unfold eocdMinLen at hlen
    refine (sub_returns (by omega)).bind fun last hlast ↦ ?_
    apply findEocdAt_returns hbuf
    intro i hi
    rw [List.mem_reverse, List.mem_range] at hi
    omega

/-- The fields of a member that come from 32-bit fields. -/
def Narrow (e : ArchiveEntry) : Prop := e.offset < 2 ^ 32 ∧ e.compressedSize < 2 ^ 32

theorem centralHeaderAt_returns {cd : Bytes} {pos : ℕ} (hcd : cd.length < 2 ^ 63)
    (h : pos + 46 ≤ cd.length) :
    Returns (centralHeaderAt cd pos) fun r ↦
      ∀ m ∈ r, Narrow m.1 ∧ m.2.2 ≤ cd.length + 2 ^ 17 := by
  unfold centralHeaderAt
  refine (u32Field_returns hcd (by omega)).bind fun sig _ ↦ ?_
  split
  · exact returns_pure (by simp)
  · refine (u16Field_returns hcd (by omega)).bind fun flags _ ↦ ?_
    refine (u16Field_returns hcd (by omega)).bind fun method _ ↦ ?_
    refine (u32Field_returns hcd (by omega)).bind fun crc _ ↦ ?_
    refine (u32Field_returns hcd (by omega)).bind fun compSize hcomp ↦ ?_
    refine (u32Field_returns hcd (by omega)).bind fun uncompSize _ ↦ ?_
    refine (u16Field_returns hcd (by omega)).bind fun nameLen hname ↦ ?_
    refine (u16Field_returns hcd (by omega)).bind fun extraLen hextra ↦ ?_
    refine (u16Field_returns hcd (by omega)).bind fun commentLen hcomment ↦ ?_
    refine (u32Field_returns hcd (by omega)).bind fun externalAttrs _ ↦ ?_
    refine (u32Field_returns hcd (by omega)).bind fun lfhOffset hlfh ↦ ?_
    refine (add_returns (by omega)).bind fun nameStart hstart ↦ ?_
    refine (add_returns (by omega)).bind fun nameEnd hend ↦ ?_
    split
    · exact returns_pure (by simp)
    · refine (range_returns (by omega) (by omega)).bind fun raw _ ↦ ?_
      refine (add_returns (by omega)).bind fun extraEnd hextraEnd ↦ ?_
      refine (add_returns (by omega)).bind fun next hnext ↦ ?_
      refine returns_pure fun m hm ↦ ?_
      obtain rfl := Option.some.inj hm
      exact ⟨⟨hlfh, hcomp⟩, by dsimp only; omega⟩

theorem centralFrom_returns {cd : Bytes} {pos : ℕ} {members : List (ArchiveEntry × ℕ)}
    (hcd : cd.length < 2 ^ 63) (hpos : pos ≤ cd.length + 2 ^ 17)
    (hmembers : ∀ m ∈ members, Narrow m.1) :
    Returns (centralFrom cd pos members) fun r ↦ ∀ m ∈ r, Narrow m.1 := by
  fun_induction centralFrom cd pos members with
  | case1 pos members f hfixed =>
      rw [add_eq (by omega)] at hfixed
      cases hfixed
  | case2 pos members fixedEnd hfixed hlt => exact returns_ok hmembers
  | case3 pos members fixedEnd hfixed hlt f hheader =>
      have hsum := add_eq_ok hfixed
      exact absurd hheader (centralHeaderAt_returns hcd (by omega)).ne_error
  | case4 pos members fixedEnd hfixed hlt hheader => exact returns_ok hmembers
  | case5 pos members e method next hheader hnext hfixed hlt ih =>
      have hret := (centralHeaderAt_returns hcd (by omega)).of_eq_ok hheader
      obtain ⟨hnarrow, hbound⟩ := hret _ rfl
      refine ih hbound fun m hm ↦ ?_
      rcases List.mem_append.mp hm with hm | hm
      · exact hmembers m hm
      · rw [List.mem_singleton.mp hm]
        exact hnarrow

theorem parseCentralDirectory_returns {cd : Bytes} (hcd : cd.length < 2 ^ 63) :
    Returns (parseCentralDirectory cd) fun r ↦ ∀ e ∈ r.1, Narrow e := by
  refine (centralFrom_returns hcd (Nat.zero_le _) (by simp)).bind fun members hmembers ↦ ?_
  refine returns_pure fun e he ↦ ?_
  rw [List.unzip_fst] at he
  obtain ⟨m, hm, rfl⟩ := List.mem_map.mp he
  exact hmembers m hm

theorem startsWithHeader_returns {cd : Bytes} (hcd : cd.length < 2 ^ 63) :
    Returns (startsWithHeader cd) fun _ ↦ True := by
  unfold startsWithHeader
  split
  · refine (u32Field_returns hcd (by omega)).bind fun sig _ ↦ ?_
    exact returns_pure trivial
  · exact returns_pure trivial

theorem readCentralDirectory_returns (s : DataSource) {cdOffset cdSize : ℕ}
    (hsize : cdSize < 2 ^ 32) :
    Returns (readCentralDirectory s cdOffset cdSize) fun r ↦ ∀ e ∈ r.2.1, Narrow e := by
  unfold readCentralDirectory
  split
  · refine (s.readExactAt_returns (by omega)).bind fun r hr ↦ ?_
    cases r with
    | none => exact returns_pure (by simp)
    | some cd =>
        obtain ⟨hlen, -⟩ := hr cd rfl
        have hcd : cd.length < 2 ^ 63 := by omega
        refine (startsWithHeader_returns hcd).bind fun cdPresent _ ↦ ?_
        refine (parseCentralDirectory_returns hcd).bind fun members hmembers ↦ ?_
        exact returns_pure hmembers
  · exact returns_pure (by simp)

theorem localHeadersOk_returns (s : DataSource) (entries : List ArchiveEntry) :
    Returns (localHeadersOk s entries) fun _ ↦ True := by
  induction entries with
  | nil => exact returns_pure trivial
  | cons e rest ih =>
      rw [localHeadersOk]
      refine (s.readAt_returns e.offset 4).bind fun sig _ ↦ ?_
      split
      · exact returns_pure trivial
      · refine (leAt_returns (by omega)).bind fun v _ ↦ ?_
        split
        · exact returns_pure trivial
        · exact ih

/-- Offsets in a parse are file positions or come from 32-bit fields. -/
structure Bounded (p : ZipParse) : Prop where
  eocdOffset : ∀ o ∈ p.eocdOffset, o < 2 ^ 63
  cdOffset : p.cdOffset < 2 ^ 32
  entries : ∀ e ∈ p.entries, Narrow e

theorem parse_returns (s : DataSource) : Returns (parse s) Bounded := by
  have hlen := s.len_lt
  have hnone : Bounded {} := ⟨by simp, by decide, by simp⟩
  unfold parse eocdMinLen eocdScanWindow
  split
  · exact returns_pure hnone
  · refine (sub_returns (min_le_right _ _)).bind fun start hstart ↦ ?_
    refine (s.readExactAt_returns (by omega)).bind fun r hr ↦ ?_
    cases r with
    | none => exact returns_pure hnone
    | some buf =>
        obtain ⟨hbuf, -⟩ := hr buf rfl
        refine (findEocd_returns (by omega)).bind fun found hfound ↦ ?_
        cases found with
        | none => exact returns_pure hnone
        | some rel =>
            have hrel := hfound rel rfl
            refine (add_returns (by omega)).bind fun eocdAbs habs ↦ ?_
            refine (range_returns (by omega) le_rfl).bind fun eocd heocd ↦ ?_
            have hsome : ∀ o ∈ some eocdAbs, o < 2 ^ 63 := by
              intro o ho
              obtain rfl := Option.some.inj ho
              omega
            split
            · exact returns_pure ⟨hsome, Nat.two_pow_pos 32, by simp⟩
            · refine (u16Field_returns (by omega) (by omega)).bind fun declared _ ↦ ?_
              refine (u32Field_returns (by omega) (by omega)).bind fun cdSize hsize ↦ ?_
              refine (u32Field_returns (by omega) (by omega)).bind fun cdOffset hoffset ↦ ?_
              refine (readCentralDirectory_returns s hsize).bind fun cd hcd ↦ ?_
              refine (localHeadersOk_returns s cd.2.1).bind fun ok _ ↦ ?_
              exact returns_pure ⟨hsome, hoffset, hcd⟩

end ZipReader

end VeraqisRecover.Analyze
