import VeraqisRecover.Analyze.ZipReader
import VeraqisRecover.Recovery.ZipCrcFix
import VeraqisRecover.Support.LastIndex
import VeraqisRecover.Zip.CdScan
import VeraqisRecover.Zip.Parse

/-!
# Four searches for the end record

The analyzer, the recovery parser, the directory scan and the checksum repair
each look backwards for the EOCD signature.  Three of them begin where a whole
end record still fits; the analyzer begins where only its signature does.
-/

namespace VeraqisRecover.Analyze

open ByteString Checked LastIndex

/-- The signature stands at `i`. -/
def eocdAt (d : Bytes) (i : ℕ) : Bool := decide (u32le d i = some Zip.eocdSig)

variable {d : Bytes} {i : ℕ}

/-! ## The recovery side -/

theorem findEocdFrom_eq {scanStart : ℕ} (h : scanStart ≤ i) :
    Zip.findEocdFrom d scanStart i = lastIndex (eocdAt d) scanStart (i + 1) := by
  induction i with
  | zero =>
      obtain rfl := Nat.le_zero.mp h
      rw [lastIndex_succ le_rfl, lastIndex_of_le le_rfl]
      simp only [Zip.findEocdFrom, eocdAt, decide_eq_true_eq]
  | succ i ih =>
      rw [lastIndex_succ h]
      simp only [Zip.findEocdFrom, eocdAt, decide_eq_true_eq]
      split
      · rfl
      · split
        · rename_i hstart
          rw [← hstart, lastIndex_of_le le_rfl]
        · exact ih (by omega)

/-- The parser, the scan and the repair make the same search. -/
theorem findEocd_eq (d : Bytes) :
    Zip.findEocd d = lastIndex (eocdAt d) (d.length - 65557) (d.length - 21) := by
  unfold Zip.findEocd
  split
  · rw [lastIndex_of_le (by omega)]
  · rw [findEocdFrom_eq (by omega), show d.length - 22 + 1 = d.length - 21 by omega]

theorem cdScan_lastEocdIn_eq (d : Bytes) (start stop : ℕ) :
    Zip.CdScan.lastEocdIn d start stop = lastIndex (eocdAt d) start stop := rfl

theorem cdScan_findEocd_eq (d : Bytes) :
    Zip.CdScan.findEocd d = lastIndex (eocdAt d) (d.length - 65557) (d.length - 21) := by
  unfold Zip.CdScan.findEocd checkedSub
  split
  · rw [Option.bind_eq_bind, Option.bind_some, cdScan_lastEocdIn_eq]
  · rw [lastIndex_of_le (by omega)]
    rfl

theorem zipCrcFix_findEocd_eq (d : Bytes) :
    Recovery.ZipCrcFix.findEocd d = lastIndex (eocdAt d) (d.length - 65557) (d.length - 21) := rfl

/-! ## The analyzer -/

theorem zipReader_findEocdAt_eq (hd : d.length < 2 ^ 63) {l : List ℕ}
    (h : ∀ i ∈ l, i + 4 ≤ d.length) : ZipReader.findEocdAt d l = .ok (l.find? (eocdAt d)) := by
  induction l with
  | nil => rfl
  | cons i rest ih =>
      obtain ⟨v, hv⟩ := u32le_isSome (h i List.mem_cons_self)
      have hrest := ih fun j hj ↦ h j (List.mem_cons_of_mem i hj)
      have hat : eocdAt d i = decide (v = ZipReader.eocdSig) := by
        rw [eocdAt, hv]
        exact decide_eq_decide.mpr Option.some_inj
      rw [ZipReader.findEocdAt, @u32Field_eq d i 0 v hd hv, List.find?_cons, hat]
      by_cases hsig : v = ZipReader.eocdSig
      · simp [hsig, bind, Except.bind, pure, Except.pure]
      · simp [hsig, hrest, bind, Except.bind]

theorem zipReader_findEocd_eq (hd : d.length < 2 ^ 63) (hlen : 22 ≤ d.length) :
    ZipReader.findEocd d = .ok (lastIndex (eocdAt d) 0 (d.length - 3)) := by
  have hmin : ¬d.length < ZipReader.eocdMinLen := Nat.not_lt.mpr hlen
  rw [ZipReader.findEocd, if_neg hmin, sub_eq (by omega)]
  refine (zipReader_findEocdAt_eq hd fun i hi ↦ ?_).trans ?_
  · rw [List.mem_reverse, List.mem_range] at hi
    omega
  · rw [lastIndex, List.range_eq_range', Nat.sub_zero,
      show d.length - 4 + 1 = d.length - 3 by omega]

/-- The analyzer searches the window and counts from its start. -/
theorem eocdAt_drop (start : ℕ) : eocdAt (d.drop start) = fun i ↦ eocdAt d (start + i) := by
  funext i
  have hread : u32le (d.drop start) i = u32le d (start + i) := by
    refine u32le_congr fun k _ ↦ ?_
    rw [List.getElem?_drop, Nat.add_assoc]
  rw [eocdAt, eocdAt, hread]

theorem readExactAt_to_end (s : DataSource) {start window : ℕ} (h : start + window = s.len) :
    s.readExactAt start window = .ok (some (s.bytes.drop start)) := by
  have hlen := s.len_lt
  have hdrop : (s.bytes.drop start).length = window := by
    rw [List.length_drop]
    unfold DataSource.len at h
    omega
  have htake : (s.bytes.drop start).take window = s.bytes.drop start :=
    List.take_of_length_le hdrop.le
  rw [s.readExactAt_eq (by omega), htake, if_neg (Nat.not_lt.mpr hdrop.ge)]

/-- Behind the search, the parse goes on with the bytes from the signature on. -/
theorem parse_eq (s : DataSource) (hlen : 22 ≤ s.len) : ZipReader.parse s =
    match lastIndex (eocdAt s.bytes) (s.bytes.length - 65557) (s.bytes.length - 3) with
    | none => .ok {}
    | some eocdAbs => do
        let eocd := s.bytes.drop eocdAbs
        if eocd.length < ZipReader.eocdMinLen then return { eocdOffset := some eocdAbs } else
        let declaredEntries ← u16Field eocd 0 10
        let cdSize ← u32Field eocd 0 12
        let cdOffset ← u32Field eocd 0 16
        let (cdPresent, entries, methods) ← ZipReader.readCentralDirectory s cdOffset cdSize
        let localHeadersOk ← ZipReader.localHeadersOk s entries
        return {
          eocdOffset := some eocdAbs
          declaredEntries, cdOffset, cdPresent, localHeadersOk, entries, methods } := by
  have haddr : s.len < 2 ^ 63 := s.addressable
  have hmin : ¬s.len < ZipReader.eocdMinLen := Nat.not_lt.mpr hlen
  obtain ⟨start, hstart⟩ : ∃ start, start = s.bytes.length - 65557 := ⟨_, rfl⟩
  have hdiff : s.len - min ZipReader.eocdScanWindow s.len = start := by
    rw [hstart]
    unfold ZipReader.eocdScanWindow DataSource.len
    omega
  have hle : start + 22 ≤ s.len := by
    rw [hstart]
    unfold DataSource.len at hlen ⊢
    omega
  have hbuf : (s.bytes.drop start).length = s.len - start := List.length_drop
  have hread : s.readExactAt start (min ZipReader.eocdScanWindow s.len) =
      .ok (some (s.bytes.drop start)) := readExactAt_to_end s (by omega)
  have hfind := @zipReader_findEocd_eq (s.bytes.drop start) (by omega) (by omega)
  have hshift := lastIndex_shift (eocdAt s.bytes) start (s.len - start - 3)
  rw [show start + (s.len - start - 3) = s.bytes.length - 3 by
    unfold DataSource.len at hle ⊢
    omega] at hshift
  rw [eocdAt_drop, hbuf] at hfind
  rw [ZipReader.parse, if_neg hmin, ← hstart]
  dsimp only
  rw [sub_eq (min_le_right _ _), hdiff, ← hshift]
  simp only [bind, Except.bind, hread, hfind, hbuf]
  cases hrel : lastIndex (fun i ↦ eocdAt s.bytes (start + i)) 0 (s.len - start - 3) with
  | none => rfl
  | some rel =>
      have hbound := (lastIndex_sound hrel).2.1
      have hrange : range (s.bytes.drop start) rel (s.len - start) =
          .ok (s.bytes.drop (start + rel)) := by
        rw [range_eq (by omega) hbuf.ge, List.drop_drop,
          List.take_of_length_le (by rw [List.length_drop]; unfold DataSource.len; omega)]
      simp only [Option.map_some, add_eq (show start + rel < 2 ^ 64 by omega), hrange]

/-- What the analyzer reports is found by the search that comes closest to the end. -/
theorem parse_eocdOffset (s : DataSource) (hlen : 22 ≤ s.len) :
    ∃ parse, ZipReader.parse s = .ok parse ∧ parse.eocdOffset =
      lastIndex (eocdAt s.bytes) (s.bytes.length - 65557) (s.bytes.length - 3) := by
  obtain ⟨parse, hparse, -⟩ := ZipReader.parse_returns s
  refine ⟨parse, hparse, ?_⟩
  rw [parse_eq s hlen] at hparse
  cases hlast : lastIndex (eocdAt s.bytes) (s.bytes.length - 65557) (s.bytes.length - 3) with
  | none =>
      rw [hlast] at hparse
      obtain rfl := Except.ok.inj hparse
      rfl
  | some eocdAbs =>
      rw [hlast] at hparse
      dsimp only at hparse
      split at hparse
      · obtain rfl := Except.ok.inj hparse
        rfl
      · simp only [bind_eq_ok] at hparse
        obtain ⟨_, -, _, -, _, -, ⟨_, _, _⟩, -, _, -, hparse⟩ := hparse
        obtain rfl := Except.ok.inj hparse
        rfl

/-! ## All four -/

/-- Diagnosis, recovery and repair are about the same end record, or all find none. -/
structure LocatorsAgree (s : DataSource) : Prop where
  analyzer : ∃ parse, ZipReader.parse s = .ok parse ∧ parse.eocdOffset = Zip.findEocd s.bytes
  scan : Zip.CdScan.findEocd s.bytes = Zip.findEocd s.bytes
  repair : Recovery.ZipCrcFix.findEocd s.bytes = Zip.findEocd s.bytes

/-- The three searches that leave room for an end record always agree with each other. -/
theorem locatorsAgree_of_analyzer {s : DataSource} {parse : ZipParse}
    (hparse : ZipReader.parse s = .ok parse) (h : parse.eocdOffset = Zip.findEocd s.bytes) :
    LocatorsAgree s where
  analyzer := ⟨parse, hparse, h⟩
  scan := by rw [cdScan_findEocd_eq, findEocd_eq]
  repair := by rw [zipCrcFix_findEocd_eq, findEocd_eq]

theorem locatorsAgree_of_short {s : DataSource} (h : s.len < 22) : LocatorsAgree s := by
  have hparse : ZipReader.parse s = .ok {} := if_pos h
  apply locatorsAgree_of_analyzer hparse
  exact (if_pos h).symm

/-- The searches agree just when no signature begins among the last 21 bytes, where no end
record fits. -/
theorem locatorsAgree_iff (s : DataSource) : LocatorsAgree s ↔
    (22 ≤ s.len → ∀ i, s.len - 22 < i → u32le s.bytes i ≠ some Zip.eocdSig) := by
  by_cases hlen : 22 ≤ s.len
  · obtain ⟨parse, hparse, hoffset⟩ := parse_eocdOffset s hlen
    have hlen' : 22 ≤ s.bytes.length := hlen
    have hiff := @lastIndex_eq_iff (eocdAt s.bytes) (s.bytes.length - 65557)
      (s.bytes.length - 3) (s.bytes.length - 21) (by omega) (by omega)
    constructor
    · intro hagree _ i hi hsig
      obtain ⟨parse', hparse', hsame⟩ := hagree.analyzer
      obtain rfl := Except.ok.inj (hparse'.symm.trans hparse)
      rw [hoffset, findEocd_eq] at hsame
      have hfits := le_length_of_u32le hsig
      have hnone := hiff.mp hsame i (by unfold DataSource.len at hi; omega) (by omega)
      exact of_decide_eq_false hnone hsig
    · intro hclear
      apply locatorsAgree_of_analyzer hparse
      rw [hoffset, findEocd_eq]
      refine hiff.mpr fun j hj _ ↦ decide_eq_false (hclear hlen j ?_)
      unfold DataSource.len
      omega
  · exact iff_of_true (locatorsAgree_of_short (Nat.not_le.mp hlen)) fun h ↦ absurd h hlen

/-- An empty archive whose comment is the signature. -/
def signatureComment : DataSource where
  bytes := [0x50, 0x4b, 5, 6] ++ List.replicate 16 0 ++ [4, 0] ++ [0x50, 0x4b, 5, 6]
  addressable := by decide

/-- The analyzer finds the comment, the recovery parser the end record in front of it. -/
theorem signatureComment_not_agree : Zip.findEocd signatureComment.bytes = some 0 ∧
    (∃ parse, ZipReader.parse signatureComment = .ok parse ∧ parse.eocdOffset = some 22) ∧
    ¬LocatorsAgree signatureComment := by
  have hfound : Zip.findEocd signatureComment.bytes = some 0 := by decide
  obtain ⟨parse, hparse, hoffset⟩ := parse_eocdOffset signatureComment (by decide)
  have hlast : parse.eocdOffset = some 22 := hoffset.trans (by decide)
  refine ⟨hfound, ⟨parse, hparse, hlast⟩, fun hagree ↦ ?_⟩
  obtain ⟨parse', hparse', hsame⟩ := hagree.analyzer
  obtain rfl := Except.ok.inj (hparse'.symm.trans hparse)
  rw [hlast, hfound] at hsame
  cases hsame

end VeraqisRecover.Analyze
