import VeraqisRecover.Analyze.ZipReader
import VeraqisRecover.Support.Octal

/-!
# The read-only TAR reader

The 512-byte blocks are walked from header to header, over the data that each
header declares, up to two zero blocks (`reader/tar.rs`).
-/

namespace VeraqisRecover.Analyze

open ByteString Checked LossyUtf8

/-- Structural facts extracted from a TAR archive. -/
structure TarParse where
  magicOk : Bool := false
  entries : List ArchiveEntry := []
  checksumFailures : List (ℕ × Text) := []
  zeroTerminatorPresent : Bool := false
  truncated : Bool := false
  deriving DecidableEq, Repr

namespace TarReader

def block : ℕ := 512
def magicOffset : ℕ := 257

/-- The sum of all bytes, the checksum field treated as spaces. -/
def unsignedChecksum (b : Bytes) : Checked ℕ :=
  b.zipIdx.foldlM
    (fun sum p ↦ add 64 sum (if 148 ≤ p.2 ∧ p.2 < 156 then 0x20 else p.1.toNat)) 0

/-- The white space among the characters up to U+00FF. -/
def isWhitespace (b : UInt8) : Bool :=
  (9 ≤ b.toNat && b.toNat ≤ 13) || b = 0x20 || b = 0x85 || b = 0xA0

def trim (f : Bytes) : Bytes := (f.dropWhile isWhitespace).rdropWhile isWhitespace

/-- A NUL- or space-terminated octal field.  Its bytes are taken for characters one by one. -/
def parseOctal (f : Bytes) : Option ℕ :=
  let s := f.takeWhile fun b ↦ b ≠ 0 && b ≠ 0x20
  if s = [] then none else Octal.fromStrRadix (trim s)

/-- A NUL-terminated name field. -/
def parseName (f : Bytes) : Text := fromUtf8Lossy (f.takeWhile (· ≠ 0))

def divCeil (a b : ℕ) : ℕ := if 0 < a % b then a / b + 1 else a / b

/-- The magic is looked at in the first header only. -/
def readMagic (b : Bytes) (first known : Bool) : Checked Bool :=
  if first then do
    let m ← range b magicOffset (magicOffset + 5)
    return m = [0x75, 0x73, 0x74, 0x61, 0x72]
  else return known

def readLinkTarget (b : Bytes) (isLink : Bool) : Checked (Option Text) :=
  if isLink then do
    let f ← range b 157 257
    return some (parseName f)
  else return none

/-- The parse after the header block at `offset`, and where its data ends. -/
def memberAt (offset : ℕ) (b : Bytes) (first : Bool) (parse : TarParse) :
    Checked (TarParse × ℕ) := do
  let magicOk ← readMagic b first parse.magicOk
  let checksumField ← range b 148 156
  let computed ← unsignedChecksum b
  let nameField ← range b 0 100
  let name := parseName nameField
  let sizeField ← range b 124 136
  let size := (parseOctal sizeField).getD 0
  let dataOffset ← add 64 offset block
  let typeflag ← index b 156
  let isLink := typeflag = 0x31 || typeflag = 0x32
  let linkTarget ← readLinkTarget b isLink
  let dataLen ← mul 64 (divCeil size block) block
  let next ← add 64 dataOffset dataLen
  return (
    { parse with
      magicOk
      checksumFailures := parse.checksumFailures ++
        if parseOctal checksumField = some computed then [] else [(offset, name)]
      entries := parse.entries ++ [
        { path := name
          size
          compressedSize := size
          offset := dataOffset
          encrypted := false
          storedCrc32 := none
          isLink
          linkTarget }] }, next)

theorem memberAt_next {offset : ℕ} {b : Bytes} {first : Bool} {parse : TarParse}
    {r : TarParse × ℕ} (h : memberAt offset b first parse = .ok r) : offset + 512 ≤ r.2 := by
  unfold memberAt at h
  simp only [bind_eq_ok] at h
  obtain ⟨_, -, _, -, _, -, _, -, _, -, dataOffset, hdata, _, -, _, -, dataLen, -, next, hnext,
    h⟩ := h
  obtain rfl := Except.ok.inj h
  have h₁ := add_eq_ok hdata
  have h₂ := add_eq_ok hnext
  unfold block at h₁
  dsimp only
  omega

theorem lt_blockEnd {offset stop : ℕ} (h : add 64 offset block = .ok stop) : offset < stop := by
  rw [add_eq_ok h]
  unfold block
  omega

set_option maxRecDepth 2000 in
/-- The loop over the blocks. -/
def walkFrom (s : DataSource) (offset zeroBlocks : ℕ) (first : Bool) (parse : TarParse) :
    Checked TarParse :=
  match hstop : add 64 offset block with
  | .error f => .error f
  | .ok stop =>
      if s.len < stop then .ok parse
      else
        match s.readExactAt offset block with
        | .error f => .error f
        | .ok none => .ok { parse with truncated := true }
        | .ok (some b) =>
            if b.all (· = 0) then
              match add 32 zeroBlocks 1 with
              | .error f => .error f
              | .ok zeroBlocks =>
                  if 2 ≤ zeroBlocks then .ok { parse with zeroTerminatorPresent := true }
                  else
                    have := lt_blockEnd hstop
                    walkFrom s stop zeroBlocks first parse
            else
              match hnext : memberAt offset b first parse with
              | .error f => .error f
              | .ok (parse, next) =>
                  if s.len < next then .ok { parse with truncated := true }
                  else
                    have : offset + 512 ≤ next := memberAt_next hnext
                    walkFrom s next 0 false parse
termination_by s.len - offset
decreasing_by all_goals omega

def parse (s : DataSource) : Checked TarParse := walkFrom s 0 0 true {}

/-! ## The reader returns -/

/-- What a byte of a header counts for: the checksum field counts as blanks. -/
def summand (p : UInt8 × ℕ) : ℕ := if 148 ≤ p.2 ∧ p.2 < 156 then 0x20 else p.1.toNat

theorem foldlM_summand (l : List (UInt8 × ℕ)) (sum : ℕ) (h : sum + 256 * l.length < 2 ^ 64) :
    l.foldlM (fun sum p ↦ add 64 sum (summand p)) sum = .ok (sum + (l.map summand).sum) := by
  induction l generalizing sum with
  | nil => rfl
  | cons p l ih =>
      have hbyte : summand p < 256 := by
        unfold summand
        split
        · decide
        · exact p.1.toNat_lt
      rw [List.length_cons] at h
      rw [List.foldlM_cons, add_eq (by omega), List.map_cons, List.sum_cons, ← Nat.add_assoc]
      exact ih _ (by omega)

theorem unsignedChecksum_eq_sum {b : Bytes} (h : b.length ≤ 512) :
    unsignedChecksum b = .ok (b.zipIdx.map summand).sum := by
  have hsum := foldlM_summand b.zipIdx 0 (by rw [List.length_zipIdx]; omega)
  rwa [Nat.zero_add] at hsum

theorem unsignedChecksum_returns {b : Bytes} (h : b.length ≤ 512) :
    Returns (unsignedChecksum b) fun _ ↦ True :=
  ⟨_, unsignedChecksum_eq_sum h, trivial⟩

/-- Twelve characters do not denote more than 36 bits. -/
theorem parseOctal_lt {f : Bytes} {v : ℕ} (hf : f.length ≤ 12) (h : parseOctal f = some v) :
    v < 8 ^ 12 := by
  unfold parseOctal at h
  obtain ⟨-, hv⟩ := Option.ite_none_left_eq_some.mp h
  refine (Octal.fromStrRadix_lt hv).trans_le (Nat.pow_le_pow_right (by decide) ?_)
  calc
    (trim (f.takeWhile fun b ↦ b ≠ 0 && b ≠ 0x20)).length
      ≤ ((f.takeWhile fun b ↦ b ≠ 0 && b ≠ 0x20).dropWhile isWhitespace).length :=
        (List.rdropWhile_prefix _ _).length_le
    _ ≤ (f.takeWhile fun b ↦ b ≠ 0 && b ≠ 0x20).length := (List.dropWhile_sublist _).length_le
    _ ≤ f.length := (List.takeWhile_sublist _).length_le
    _ ≤ 12 := hf

theorem readMagic_returns {b : Bytes} (h : b.length = 512) (first known : Bool) :
    Returns (readMagic b first known) fun _ ↦ True := by
  unfold readMagic magicOffset
  split
  · refine (range_returns (by omega) (by omega)).bind fun m _ ↦ ?_
    exact returns_pure trivial
  · exact returns_pure trivial

theorem readLinkTarget_returns {b : Bytes} (h : b.length = 512) (isLink : Bool) :
    Returns (readLinkTarget b isLink) fun _ ↦ True := by
  unfold readLinkTarget
  split
  · refine (range_returns (by omega) (by omega)).bind fun f _ ↦ ?_
    exact returns_pure trivial
  · exact returns_pure trivial

/-- Every recorded failure stands at a file position. -/
def Bounded (p : TarParse) : Prop := ∀ f ∈ p.checksumFailures, f.1 < 2 ^ 63

theorem memberAt_returns {offset : ℕ} {b : Bytes} {first : Bool} {parse : TarParse}
    (hb : b.length = 512) (hoffset : offset < 2 ^ 63) (hparse : Bounded parse) :
    Returns (memberAt offset b first parse) fun r ↦ Bounded r.1 := by
  unfold memberAt
  refine (readMagic_returns hb first _).bind fun magicOk _ ↦ ?_
  refine (range_returns (by omega) (by omega)).bind fun checksumField _ ↦ ?_
  refine (unsignedChecksum_returns hb.le).bind fun computed _ ↦ ?_
  refine (range_returns (by omega) (by omega)).bind fun nameField _ ↦ ?_
  refine (range_returns (by omega) (by omega)).bind fun sizeField hsize ↦ ?_
  have hlt : (parseOctal sizeField).getD 0 < 8 ^ 12 := by
    cases hv : parseOctal sizeField with
    | none => decide
    | some v => exact parseOctal_lt hsize.2.le hv
  have hblocks : divCeil ((parseOctal sizeField).getD 0) block ≤ 8 ^ 12 := by
    unfold divCeil block
    split <;> omega
  refine (add_returns (by unfold block; omega)).bind fun dataOffset hdata ↦ ?_
  refine (index_returns (by omega)).bind fun typeflag _ ↦ ?_
  refine (readLinkTarget_returns hb _).bind fun linkTarget _ ↦ ?_
  unfold block at *
  refine (mul_returns (by omega)).bind fun dataLen hlen ↦ ?_
  refine (add_returns (by omega)).bind fun next hnext ↦ ?_
  refine returns_pure fun f hf ↦ ?_
  rcases List.mem_append.mp hf with hf | hf
  · exact hparse f hf
  · split at hf
    · cases hf
    · rw [List.mem_singleton.mp hf]
      exact hoffset

set_option maxRecDepth 2000 in
theorem walkFrom_returns (s : DataSource) {offset zeroBlocks : ℕ} {first : Bool} {parse : TarParse}
    (hoffset : offset ≤ s.len) (hzero : zeroBlocks < 2) (hparse : Bounded parse) :
    Returns (walkFrom s offset zeroBlocks first parse) Bounded := by
  have hs := s.len_lt
  fun_induction walkFrom s offset zeroBlocks first parse with
  | case1 offset _ _ _ _ hstop =>
      exact absurd hstop (add_returns (by unfold block; omega)).ne_error
  | case2 => exact returns_ok hparse
  | case3 offset _ _ _ _ _ _ _ hread =>
      exact absurd hread (s.readExactAt_returns (by decide)).ne_error
  | case4 => exact returns_ok hparse
  | case5 offset zeroBlocks _ _ _ _ _ _ _ _ _ hcount =>
      exact absurd hcount (add_returns (by omega)).ne_error
  | case6 => exact returns_ok hparse
  | case7 offset zeroBlocks _ _ stop hstop hle _ _ _ zeroBlocks' hcount hfew hlt ih =>
      exact ih (by omega) (by omega) hparse
  | case8 offset _ first parse _ _ _ b hread _ _ hmember =>
      obtain ⟨hb, -⟩ := (s.readExactAt_returns (by decide)).of_eq_ok hread b rfl
      exact absurd hmember (memberAt_returns hb (by omega) hparse).ne_error
  | case9 offset _ first parse _ _ _ b hread _ parse' next hmember hlt =>
      obtain ⟨hb, -⟩ := (s.readExactAt_returns (by decide)).of_eq_ok hread b rfl
      exact returns_ok ((memberAt_returns hb (by omega) hparse).of_eq_ok hmember)
  | case10 offset _ first parse _ _ _ b hread _ parse' next hmember hle _ ih =>
      obtain ⟨hb, -⟩ := (s.readExactAt_returns (by decide)).of_eq_ok hread b rfl
      exact ih (by omega) (by omega) ((memberAt_returns hb (by omega) hparse).of_eq_ok hmember)

theorem parse_returns (s : DataSource) : Returns (parse s) Bounded :=
  walkFrom_returns s (Nat.zero_le _) (by decide) (by simp [Bounded])

end TarReader

end VeraqisRecover.Analyze
