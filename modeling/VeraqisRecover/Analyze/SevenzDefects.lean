import VeraqisRecover.Analyze.Source
import VeraqisRecover.Crc.Rocksoft

/-!
# Raw defects of a 7z file

The signature, the checksum of the start header, and the end header it points
at.  Whether the end header is inside the file is decided with checked
additions; the report then adds the same numbers without a check.
-/

namespace VeraqisRecover.Analyze

open ByteString Checked Crc

def sevenzSig : Bytes := [0x37, 0x7A, 0xBC, 0xAF, 0x27, 0x1C]

/-- The end header that a CRC-valid start header points at. -/
def sevenzEndHeaderDefect (s : DataSource) (head : Bytes) (out : List Detected) :
    Checked (List Detected) := do
  let nextOff ← leAt 8 head 12
  let nextSize ← leAt 8 head 20
  let stop := (checkedAdd 32 nextOff).bind (checkedAdd · nextSize)
  let truncated := (stop.map fun e ↦ decide (s.len < e)).getD true
  if truncated ∧ 0 < nextSize then
    let location ← CorruptionLocation.stream 12 28
    let start ← add 64 32 nextOff
    return out ++ [
      { kind := .sevenZEndHeaderOob
        location
        detail := s!"7z end header at offset {start} size {nextSize} exceeds file size {s.len}" }]
  else return out

def sevenzStartHeaderDefect (s : DataSource) (head : Bytes) (out : List Detected) :
    Checked (List Detected) := do
  let stored ← leAt 4 head 8
  let startHeader ← range head 12 32
  let computed := (crc32 startHeader).toNat
  if stored = computed then sevenzEndHeaderDefect s head out else
  let location ← CorruptionLocation.stream 8 12
  let field ← range head 8 12
  return out ++ [
    { kind := .sevenZStartHeaderCrcBad
      location
      actualBytes := field
      expectedBytes := some (le32 computed)
      detail := s!"7z Start Header CRC32 0x{hexUpper 8 stored}; " ++
        s!"computed 0x{hexUpper 8 computed}" }]

def sevenzDefects (s : DataSource) (out : List Detected) : Checked (List Detected) := do
  let head := (← s.readExactAt 0 (min s.len 32)).getD []
  let sig := if 6 ≤ head.length then head.take 6 else []
  if sig ≠ sevenzSig then
    let location ← CorruptionLocation.stream 0 6
    return out ++ [
      { kind := .sevenZMagicBad
        location
        actualBytes := sig
        expectedBytes := some sevenzSig
        detail := "7z signature should be 37 7A BC AF 27 1C" }]
  else if 32 ≤ head.length then sevenzStartHeaderDefect s head out
  else return out

/-- The start header is intact and points at a nonempty end header beyond the 64-bit word. -/
def WildEndHeader (data : Bytes) : Prop :=
  32 ≤ data.length ∧ data.take 6 = sevenzSig ∧
    leValue ((data.drop 8).take 4) = (crc32 ((data.drop 12).take 20)).toNat ∧
    2 ^ 64 ≤ 32 + leValue ((data.drop 12).take 8) ∧ 0 < leValue ((data.drop 20).take 8)

/-! ## When the checks return -/

theorem window_take {d : Bytes} {n i k : ℕ} (h : i + k ≤ n) :
    ((d.take n).drop i).take k = (d.drop i).take k := by
  rw [List.drop_take, List.take_take, min_eq_left (by omega)]

theorem sevenz_head_eq (s : DataSource) :
    s.readExactAt 0 (min s.len 32) = .ok (some (s.bytes.take 32)) := by
  have hlen : ((s.bytes.drop 0).take (min s.len 32)).length = min s.len 32 := by
    rw [List.drop_zero, List.length_take]
    exact min_eq_left (min_le_left _ _)
  rw [s.readExactAt_eq (by omega), if_neg (by omega), List.drop_zero, min_comm,
    DataSource.len, ← List.take_eq_take_min]

theorem leAt_head {k i : ℕ} {d : Bytes} (hd : 32 ≤ d.length) (h : i + k ≤ 32) :
    leAt k (d.take 32) i = .ok (leValue ((d.drop i).take k)) := by
  rw [leAt_eq (by rw [List.length_take]; omega), window_take h]

theorem range_head {i j : ℕ} {d : Bytes} (hd : 32 ≤ d.length) (hij : i ≤ j) (h : j ≤ 32) :
    range (d.take 32) i j = .ok ((d.drop i).take (j - i)) := by
  rw [range_eq hij (by rw [List.length_take]; omega), window_take (by omega)]

/-- The checked additions leave an end header beyond the word outside the file. -/
theorem truncated_of_wild {len nextOff nextSize : ℕ} (h : 2 ^ 64 ≤ 32 + nextOff) :
    (((checkedAdd 32 nextOff).bind (checkedAdd · nextSize)).map fun e ↦
      decide (len < e)).getD true = true := by
  rw [checkedAdd, if_neg (by unfold wordMax; omega)]
  rfl

theorem sevenzEndHeaderDefect_overflow (s : DataSource) {data : Bytes} {out : List Detected}
    (hdata : 32 ≤ data.length) (hoff : 2 ^ 64 ≤ 32 + leValue ((data.drop 12).take 8))
    (hsize : 0 < leValue ((data.drop 20).take 8)) :
    sevenzEndHeaderDefect s (data.take 32) out = .error .overflow := by
  unfold sevenzEndHeaderDefect
  rw [leAt_head hdata (by decide), leAt_head hdata (by decide)]
  simp only [bind, Except.bind]
  rw [if_pos ⟨truncated_of_wild hoff, hsize⟩, add_overflow hoff]
  rfl

theorem sevenzEndHeaderDefect_returns (s : DataSource) {data : Bytes} {out : List Detected}
    (hdata : 32 ≤ data.length)
    (htame : 0 < leValue ((data.drop 20).take 8) → 32 + leValue ((data.drop 12).take 8) < 2 ^ 64)
    (hout : AllOrdered out) : Returns (sevenzEndHeaderDefect s (data.take 32) out) AllOrdered := by
  refine (returns_of_eq (leAt_head hdata (by decide)) rfl).bind fun nextOff hoff ↦ ?_
  refine (returns_of_eq (leAt_head hdata (by decide)) rfl).bind fun nextSize hsize ↦ ?_
  dsimp only
  split
  · rename_i hreport
    refine (stream_returns (by decide)).bind fun l hl ↦ ?_
    refine (add_returns ?_).bind fun start _ ↦ ?_
    · rw [← hoff]
      exact htame (hsize ▸ hreport.2)
    · refine returns_pure (hout.append fun d hd ↦ ?_)
      rw [List.mem_singleton.mp hd]
      exact hl
  · exact returns_pure hout

theorem sevenzStartHeaderDefect_overflow (s : DataSource) {data : Bytes} {out : List Detected}
    (hwild : WildEndHeader data) :
    sevenzStartHeaderDefect s (data.take 32) out = .error .overflow := by
  obtain ⟨hlen, -, hcrc, hoff, hsize⟩ := hwild
  unfold sevenzStartHeaderDefect
  rw [leAt_head hlen (by decide), range_head hlen (by decide) (by decide)]
  simp only [bind, Except.bind]
  rw [if_pos hcrc, sevenzEndHeaderDefect_overflow s hlen hoff hsize]

theorem sevenzStartHeaderDefect_returns (s : DataSource) {data : Bytes} {out : List Detected}
    (hlen : 32 ≤ data.length) (hsig : data.take 6 = sevenzSig) (htame : ¬ WildEndHeader data)
    (hout : AllOrdered out) :
    Returns (sevenzStartHeaderDefect s (data.take 32) out) AllOrdered := by
  refine (returns_of_eq (leAt_head hlen (by decide)) rfl).bind fun stored hstored ↦ ?_
  have hrange := range_head hlen (i := 12) (j := 32) (by decide) (by decide)
  refine (returns_of_eq hrange rfl).bind fun startHeader hstart ↦ ?_
  dsimp only
  split
  · rename_i hcrc
    apply sevenzEndHeaderDefect_returns s hlen _ hout
    intro hsize
    by_contra hoff
    rw [← hstored, ← hstart] at hcrc
    exact htame ⟨hlen, hsig, hcrc, not_lt.mp hoff, hsize⟩
  · refine (stream_returns (by decide)).bind fun l hl ↦ ?_
    refine (returns_of_eq (range_head hlen (by decide) (by decide)) rfl).bind fun field _ ↦ ?_
    refine returns_pure (hout.append fun d hd ↦ ?_)
    rw [List.mem_singleton.mp hd]
    exact hl

theorem sevenz_sig_eq {data : Bytes} :
    (if 6 ≤ (data.take 32).length then (data.take 32).take 6 else []) = sevenzSig ↔
      data.take 6 = sevenzSig := by
  rw [List.take_take, min_eq_left (by decide)]
  split
  · rfl
  · rename_i hshort
    rw [List.length_take] at hshort
    constructor
    · intro h
      cases h
    · intro h
      have hlen := congrArg List.length h
      rw [List.length_take, show sevenzSig.length = 6 from rfl] at hlen
      omega

theorem sevenzDefects_overflow (s : DataSource) {out : List Detected}
    (hwild : WildEndHeader s.bytes) : sevenzDefects s out = .error .overflow := by
  have hhead : 32 ≤ (s.bytes.take 32).length := by
    rw [List.length_take]
    exact le_min le_rfl hwild.1
  unfold sevenzDefects
  rw [sevenz_head_eq]
  simp only [bind, Except.bind, Option.getD_some]
  rw [if_neg (not_not.mpr (sevenz_sig_eq.mpr hwild.2.1)), if_pos hhead,
    sevenzStartHeaderDefect_overflow s hwild]

theorem sevenzDefects_returns (s : DataSource) {out : List Detected}
    (htame : ¬ WildEndHeader s.bytes) (hout : AllOrdered out) :
    Returns (sevenzDefects s out) AllOrdered := by
  refine (returns_of_eq (sevenz_head_eq s) rfl).bind fun r hr ↦ ?_
  subst hr
  dsimp only [Option.getD_some]
  by_cases hsig : s.bytes.take 6 = sevenzSig
  · rw [if_neg (not_not.mpr (sevenz_sig_eq.mpr hsig))]
    split
    · rename_i hhead
      rw [List.length_take] at hhead
      exact sevenzStartHeaderDefect_returns s (by omega) hsig htame hout
    · exact returns_pure hout
  · rw [if_pos (mt sevenz_sig_eq.mp hsig)]
    exact push_returns (Nat.zero_le _) hout fun _ ↦ rfl

end VeraqisRecover.Analyze
