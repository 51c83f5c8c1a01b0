import VeraqisRecover.Analyze.GzipDefects
import VeraqisRecover.Recovery.GzTrailer

/-!
# Three walkers over a GZIP header

The detector, the trailer repair and the member salvage each have their own
walk to the first byte of the DEFLATE body.  The first two clamp at the end of
the data; the last one gives up where something is cut off.
-/

namespace VeraqisRecover.Recovery

open ByteString Checked Gzip GzTrailerRecompute

namespace GzHeader

variable {data : Bytes} {pos : ℕ}

/-! ## The detector and the trailer repair -/

theorem bne_zero (b : UInt8) : (b != 0) = decide ¬b = 0 := by
  by_cases h : b = 0
  · simp [h]
  · simp [h]

theorem u16le_eq_none (h : data.length < pos + 2) : u16le data pos = none := by
  cases hread : u16le data pos with
  | none => rfl
  | some v => exact absurd (le_length_of_u16le hread) (by omega)

theorem skipExtra_eq (flags : UInt8) (hpos : pos < 2 ^ 32) :
    Analyze.skipExtra data flags pos =
      .ok (skipIf (flags &&& 0x04 != 0) (Gzip.skipExtra data) pos) := by
  rw [Analyze.skipExtra, bne_zero]
  by_cases hflag : flags &&& 0x04 = 0
  · simp [hflag, skipIf, pure, Except.pure]
  · rw [if_neg hflag, add_eq (by omega)]
    simp only [hflag, not_false_eq_true, decide_true, skipIf, if_true, Gzip.skipExtra]
    by_cases hend : data.length < pos + 2
    · rw [u16le_eq_none hend]
      simp [hend, bind, Except.bind, pure, Except.pure]
    · obtain ⟨v, hlen⟩ := u16le_isSome (Nat.not_lt.mp hend)
      have hv := u16le_lt hlen
      rw [hlen]
      simp [hend, leAt_of_u16le hlen, add_eq (show 2 + v < 2 ^ 64 by omega),
        add_eq (show pos + (2 + v) < 2 ^ 64 by omega), bind, Except.bind, pure, Except.pure,
        Nat.add_assoc]

theorem passNul_of_end (h : data.length ≤ pos) : passNul data pos = pos + 1 := by
  rw [passNul, List.drop_eq_nil_of_le h]
  rfl

theorem passNul_of_lt (h : pos < data.length) :
    passNul data pos = if data[pos] ≠ 0 then passNul data (pos + 1) else pos + 1 := by
  rw [passNul, List.drop_eq_getElem_cons h]
  rfl

theorem skipZeroTerminated_eq (hdata : data.length < 2 ^ 63) (hpos : pos < 2 ^ 63 + 2 ^ 34) :
    Analyze.skipZeroTerminated data pos = .ok (passNul data pos) := by
  fun_induction Analyze.skipZeroTerminated data pos with
  | case1 pos hlt f hindex => exact absurd hindex (index_returns hlt).ne_error
  | case2 pos hlt hindex =>
      have hzero : data[pos] = 0 := Except.ok.inj ((index_eq hlt).symm.trans hindex)
      rw [passNul_of_lt hlt, if_neg (not_not.mpr hzero), add_eq (by omega)]
  | case3 pos hlt b hindex hb f hadd => exact absurd hadd (add_returns (by omega)).ne_error
  | case4 pos hlt b hindex hb hadd ih =>
      have hb' : data[pos] = b := Except.ok.inj ((index_eq hlt).symm.trans hindex)
      rw [passNul_of_lt hlt, if_pos (hb'.symm ▸ hb)]
      exact ih (by omega)
  | case5 pos hle => rw [passNul_of_end (Nat.not_lt.mp hle), add_eq (by omega)]

theorem skipText_eq (hdata : data.length < 2 ^ 63) (flag : UInt8) (hpos : pos < 2 ^ 63 + 2 ^ 34) :
    Analyze.skipText data flag pos = .ok (passIf (flag != 0) (passNul data) pos) := by
  rw [Analyze.skipText, bne_zero]
  by_cases hflag : flag = 0
  · simp [hflag, passIf, pure, Except.pure]
  · rw [if_neg hflag, skipZeroTerminated_eq hdata hpos]
    simp [hflag, passIf]

theorem skipHeaderCrc_eq (flags : UInt8) (hpos : pos < 2 ^ 63 + 2 ^ 34) :
    Analyze.skipHeaderCrc flags pos = .ok (passIf (flags &&& 0x02 != 0) (· + 2) pos) := by
  rw [Analyze.skipHeaderCrc, bne_zero]
  by_cases hflag : flags &&& 0x02 = 0
  · simp [hflag, passIf, pure, Except.pure]
  · rw [if_neg hflag, add_eq (by omega)]
    simp [hflag, passIf]

/-- No arithmetic of the detector's walk overflows on addressable data. -/
theorem analyze_gzBodyStart_eq (hdata : data.length < 2 ^ 63) :
    Analyze.gzBodyStart data = .ok (GzTrailerRecompute.gzBodyStart data) := by
  rw [Analyze.gzBodyStart, GzTrailerRecompute.gzBodyStart]
  by_cases hshort : data.length < 10
  · rw [if_pos hshort, if_pos hshort]
    rfl
  rw [if_neg hshort, if_neg hshort, index_eq (show 3 < data.length by omega),
    List.getElem?_eq_getElem (show 3 < data.length by omega), Option.getD_some]
  generalize data[3] = flags
  have hextra := @skipExtra_eq data 10 flags (by decide)
  have hbound := (@Analyze.skipExtra_returns data flags 10 (by decide)).of_eq_ok hextra
  simp only [bind, Except.bind, hextra]
  cases hskip : skipIf (flags &&& 0x04 != 0) (Gzip.skipExtra data) 10 with
  | none => rfl
  | some pos =>
      have hpos := hbound pos hskip
      have hname := skipText_eq hdata (flags &&& 0x08) (show pos < 2 ^ 63 + 2 ^ 34 by omega)
      have hnamed := (Analyze.skipText_returns hdata _ (by omega)).of_eq_ok hname
      have hcomment := skipText_eq hdata (flags &&& 0x10)
        (show passIf (flags &&& 0x08 != 0) (passNul data) pos < 2 ^ 63 + 2 ^ 34 by omega)
      have hcommented := (Analyze.skipText_returns hdata _ (by omega)).of_eq_ok hcomment
      have hcrc := @skipHeaderCrc_eq
        (passIf (flags &&& 0x10 != 0) (passNul data)
          (passIf (flags &&& 0x08 != 0) (passNul data) pos)) flags (by omega)
      simp only [hname, hcomment, hcrc]
      rfl

/-! ## The member salvage -/

/-- The salvage is where the others are, or has given up where they are past the end. -/
def Tracks (limit : ℕ) (reached : Option ℕ) (pos : ℕ) : Prop :=
  reached = some pos ∨ reached = none ∧ limit < pos

theorem tracks_skipZstring (data : Bytes) (pos : ℕ) :
    Tracks data.length (skipZstring data pos) (passNul data pos) := by
  have hloop : ∀ (bs : Bytes) (pos : ℕ), skipZstringLoop bs pos = some (passNulLoop bs pos) ∨
      skipZstringLoop bs pos = none ∧ pos + bs.length < passNulLoop bs pos := by
    intro bs
    induction bs with
    | nil => exact fun pos ↦ .inr ⟨rfl, Nat.lt_succ_self pos⟩
    | cons b rest ih =>
        intro pos
        rw [skipZstringLoop, passNulLoop]
        split
        · refine (ih (pos + 1)).imp_right fun h ↦ ⟨h.1, ?_⟩
          have hpast := h.2
          rw [List.length_cons]
          omega
        · exact .inl rfl
  refine (hloop (data.drop pos) pos).imp_right fun h ↦ ⟨h.1, ?_⟩
  have hpast := h.2
  rw [List.length_drop] at hpast
  exact lt_of_le_of_lt (by omega) hpast

theorem le_passNul (data : Bytes) (pos : ℕ) : pos ≤ passNul data pos := by
  have hloop : ∀ (bs : Bytes) (pos : ℕ), pos < passNulLoop bs pos := by
    intro bs
    induction bs with
    | nil => exact fun pos ↦ Nat.lt_succ_self pos
    | cons b rest ih =>
        intro pos
        rw [passNulLoop]
        split
        · exact (Nat.lt_succ_self pos).trans (ih (pos + 1))
        · exact Nat.lt_succ_self pos
  exact (hloop _ pos).le

theorem le_passIf {c : Bool} {pass : ℕ → ℕ} (hpass : ∀ pos, pos ≤ pass pos) (pos : ℕ) :
    pos ≤ passIf c pass pos := by
  cases c with
  | false => exact le_refl pos
  | true => exact hpass pos

/-- An optional part keeps the two walks together. -/
theorem Tracks.bind_skipIf {n : ℕ} {reached : Option ℕ} {c : Bool} {skip : ℕ → Option ℕ}
    {pass : ℕ → ℕ} (h : Tracks n reached pos) (hskip : ∀ p, Tracks n (skip p) (pass p))
    (hpass : ∀ p, p ≤ pass p) :
    Tracks n (reached.bind (skipIf c skip)) (passIf c pass pos) := by
  obtain rfl | ⟨rfl, hpast⟩ := h
  · cases c with
    | false => exact .inl rfl
    | true => exact hskip pos
  · exact .inr ⟨rfl, hpast.trans_le (le_passIf hpass pos)⟩

/-- Giving up and clamping at the end come to the same offset. -/
theorem Tracks.clamp {n : ℕ} {reached : Option ℕ} (h : Tracks n reached pos) :
    min pos n = (reached.bind fun p ↦ if n < p then none else some (p - 0)).getD n := by
  obtain rfl | ⟨rfl, hpast⟩ := h
  · rw [Option.bind_some]
    split
    · exact min_eq_right (by omega)
    · exact min_eq_left (by omega)
  · exact min_eq_right hpast.le

theorem isMagic_take {k : ℕ} (hk : 3 ≤ k) (h : isMagic data 0 = true) :
    isMagic (data.take k) 0 = true := by
  have hread : ∀ i < 3, (data.take k)[i]? = data[i]? := fun i hi ↦
    List.getElem?_take_of_lt (by omega)
  rw [isMagic, hread 0 (by decide), hread 1 (by decide), hread 2 (by decide)]
  exact h

theorem gzBodyStart_eq_getD (h : isMagic data 0 = true) :
    GzTrailerRecompute.gzBodyStart data = (gzHeaderLen data 0).getD data.length := by
  rw [GzTrailerRecompute.gzBodyStart, gzHeaderLen, slice?]
  by_cases hshort : data.length < 10
  · rw [if_pos hshort, if_neg (by omega)]
    rfl
  have hflags : data[3]? = some data[3] := List.getElem?_eq_getElem (by omega)
  have hflags' : (data.take 10)[3]? = some data[3] := by
    rw [List.getElem?_take_of_lt (by decide), hflags]
  rw [if_neg hshort, if_pos (by omega), Option.bind_eq_bind, Option.bind_some, List.drop_zero,
    Nat.sub_zero, isMagic_take (by decide) h, hflags, hflags', Option.getD_some]
  generalize data[3] = flags
  simp only [Bool.not_true, Bool.false_eq_true, if_false, Option.bind_eq_bind, Option.bind_some]
  cases skipIf (flags &&& 0x04 != 0) (Gzip.skipExtra data) 10 with
  | none => rfl
  | some pos =>
      have hstart : Tracks data.length (some pos) pos := .inl rfl
      have hname := hstart.bind_skipIf (c := flags &&& 0x08 != 0) (tracks_skipZstring data)
        (le_passNul data)
      have hcomment := hname.bind_skipIf (c := flags &&& 0x10 != 0) (tracks_skipZstring data)
        (le_passNul data)
      have hadd : ∀ p, Tracks data.length (some (p + 2)) (p + 2) := fun p ↦ .inl rfl
      have hcrc := hcomment.bind_skipIf (c := flags &&& 0x02 != 0) hadd
        fun p ↦ Nat.le_add_right p 2
      dsimp only
      rw [hcrc.clamp]
      simp only [Option.bind_assoc, Option.bind_some]

/-! ## All three -/

/-- Behind the magic the three walks come to the same body, with the end of the data for a
header that the salvage does not read. -/
theorem gzBodyStart_agree (s : Analyze.DataSource) (h : isMagic s.bytes 0 = true) :
    Analyze.gzBodyStart s.bytes = .ok (GzTrailerRecompute.gzBodyStart s.bytes) ∧
      GzTrailerRecompute.gzBodyStart s.bytes = (gzHeaderLen s.bytes 0).getD s.bytes.length :=
  ⟨analyze_gzBodyStart_eq s.addressable, gzBodyStart_eq_getD h⟩

/-- A header with all four optional parts, and one byte of the body. -/
def fullHeader : Analyze.DataSource where
  bytes := [0x1F, 0x8B, 8, 0x1E, 0, 0, 0, 0, 0, 3] ++ [1, 0, 0xAA] ++ [0x61, 0] ++ [0x62, 0] ++
    [0x11, 0x22] ++ [3]
  addressable := by decide

theorem fullHeader_agree :
    Analyze.gzBodyStart fullHeader.bytes = .ok 19 ∧ gzHeaderLen fullHeader.bytes 0 = some 19 := by
  have hagree := gzBodyStart_agree fullHeader (by decide)
  have hbody : GzTrailerRecompute.gzBodyStart fullHeader.bytes = 19 := by decide
  exact ⟨hbody ▸ hagree.1, by decide⟩

end GzHeader

end VeraqisRecover.Recovery
