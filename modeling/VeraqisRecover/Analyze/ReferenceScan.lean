import VeraqisRecover.Analyze.ReferenceDiff

/-!
# What the reference diff reports

The diff returns unless an ISO image ends inside the magic of its volume descriptor and is
damaged there.  What it returns is empty for equal files only, and lies inside the longer file.
-/

namespace VeraqisRecover.Analyze.Reference

open ByteString Checked

/-! ## Rules -/

/-- The rule ids the diff can choose. -/
def diffRules : List String :=
  ["ZIP_TRUNC_001", "ZIP_TRUNC_002", "ZIP_TRUNC_003", "ZIP_TRUNC_004", "ZIP_FLIP_001",
    "ZIP_FLIP_002", "ZIP_FLIP_003", "ZIP_CD_003", "ZIP_SIZE_001", "ZIP_EXTRA_001",
    "TAR_TRUNC_001", "TAR_TRUNC_002", "TAR_TRUNC_003", "TAR_FLIP_001", "TAR_FLIP_002",
    "TAR_SIZE_001", "TAR_SIZE_002", "TAR_UST_001", "TAR_BLOCK_001", "TAR_GNU_001",
    "ISO_TRUNC_001", "ISO_TRUNC_002", "ISO_TRUNC_003", "ISO_SECTOR_001", "ISO_SECTOR_002",
    "ISO_PVD_001", "ISO_SVD_001", "ISO_DIR_001", "GEN_TRUNC_001", "GEN_FLIP_001",
    "GEN_MISSING_001", "GEN_STRUCT_001", "GZ_MAGIC_001", "BZ2_MAGIC_001", "XZ_MAGIC_001",
    "ZST_MAGIC_001", "LZ4_MAGIC_001", "RAR_MAGIC_001", "7Z_MAGIC_001", "PDF_HDR_001",
    "SQ_MAGIC_001"]

theorem registered_of_mem : ∀ id ∈ diffRules, (rule id).isSome = true := by decide

theorem tailTruncRule_mem (format : String) (pct : ℚ) : tailTruncRule format pct ∈ diffRules := by
  unfold tailTruncRule
  split_ifs <;> decide

theorem headTruncRule_mem (format : String) : headTruncRule format ∈ diffRules := by
  unfold headTruncRule
  split_ifs <;> decide

theorem flipRule_mem (format : String) (header : Bool) (count : ℕ) :
    flipRule format header count ∈ diffRules := by
  unfold flipRule
  split_ifs <;> decide

theorem missingRule_mem (format : String) : missingRule format ∈ diffRules := by
  unfold missingRule
  split_ifs <;> decide

theorem magicRule_mem (format : String) : magicRule format ∈ diffRules := by
  unfold magicRule
  split_ifs <;> decide

/-! ## The walks over the clean file -/

/-- A field map answers with a rule of the diff. -/
def AnswersRule (o : Option String) : Prop := ∀ id ∈ o, id ∈ diffRules

theorem tarOctal_lt {f : Bytes} {v : ℕ} (hf : f.length ≤ 12) (h : tarOctal f = some v) :
    v < 8 ^ 12 := by
  refine TarReader.parseOctal_lt hf ?_
  unfold TarReader.parseOctal
  dsimp only
  split
  · rename_i hempty
    rw [tarOctal, hempty] at h
    cases h
  · exact h

section Walks

variable {clean : Bytes} (hclean : clean.length < 2 ^ 63)

include hclean

theorem findSignature_returns {is : List ℕ} (his : ∀ i ∈ is, i + 4 ≤ clean.length) :
    Returns (findSignature clean is) fun o ↦ ∀ i ∈ o, i + 4 ≤ clean.length := by
  induction is with
  | nil => exact returns_pure (by simp)
  | cons i rest ih =>
      have hi := his i List.mem_cons_self
      rw [findSignature]
      refine (add_returns (by omega)).bind fun stop hstop ↦ ?_
      refine (range_returns (by omega) (by omega)).bind fun window hwindow ↦ ?_
      refine (leAt_returns (by omega)).bind fun word _ ↦ ?_
      split
      · refine returns_pure fun j hj ↦ ?_
        obtain rfl := Option.some.inj hj
        exact hi
      · exact ih fun j hj ↦ his j (List.mem_cons_of_mem i hj)

theorem zipFindEocd_returns :
    Returns (zipFindEocd clean) fun o ↦ ∀ i ∈ o, i + 4 ≤ clean.length := by
  unfold zipFindEocd
  split
  · exact returns_pure (by simp)
  · refine (sub_returns (by omega)).bind fun last hlast ↦ ?_
    apply findSignature_returns hclean
    intro i hi
    rw [List.mem_reverse, List.mem_range] at hi
    omega

theorem zipFieldTurn_returns (offset : ℕ) {pos : ℕ} (hpos : pos < 2 ^ 63 + 2 ^ 20) :
    Returns (zipFieldTurn clean offset pos) (Turn.Meets AnswersRule (· < 2 ^ 63 + 2 ^ 20)) := by
  unfold zipFieldTurn
  refine (add_returns (by omega)).bind fun fixed hfixed ↦ ?_
  split
  · exact returns_pure (show AnswersRule none by simp [AnswersRule])
  · refine (u32Field_returns hclean (by omega)).bind fun signature _ ↦ ?_
    split
    · exact returns_pure (show AnswersRule none by simp [AnswersRule])
    · split
      · exact returns_pure (show AnswersRule _ by simp [AnswersRule, diffRules])
      · split
        · exact returns_pure (show AnswersRule _ by simp [AnswersRule, diffRules])
        · refine (u16Field_returns hclean (by omega)).bind fun nameLen hname ↦ ?_
          refine (u16Field_returns hclean (by omega)).bind fun extraLen hextra ↦ ?_
          refine (u16Field_returns hclean (by omega)).bind fun commentLen hcomment ↦ ?_
          refine (add_returns (by omega)).bind fun next hnext ↦ ?_
          exact returns_pure (show next < 2 ^ 63 + 2 ^ 20 by omega)

theorem zipFieldAt_returns (offset : ℕ) : Returns (zipFieldAt clean offset) AnswersRule := by
  refine (zipFindEocd_returns hclean).bind fun o ho ↦ ?_
  cases o with
  | none => exact returns_pure (by simp [AnswersRule])
  | some eocd =>
      have heocd := ho eocd rfl
      refine (add_returns (by omega)).bind fun first hfirst ↦ ?_
      refine (add_returns (by omega)).bind fun last hlast ↦ ?_
      cases hfield : slice? clean first last with
      | none => exact returns_pure (by simp [AnswersRule])
      | some field =>
          have hlen := length_of_slice? hfield
          refine (leAt_returns (by omega)).bind fun cdOffset hcd ↦ ?_
          refine (zipFieldLoop clean offset).run_returns
            (fun pos hpos ↦ zipFieldTurn_returns hclean offset hpos) ?_
          omega

theorem tarNext_returns {off : ℕ} (hoff : off + 512 ≤ clean.length) :
    Returns (tarNext clean off) (· < 2 ^ 63 + 2 ^ 50) := by
  unfold tarNext
  refine (add_returns (by omega)).bind fun first hfirst ↦ ?_
  refine (add_returns (by omega)).bind fun last hlast ↦ ?_
  refine (range_returns (by omega) (by omega)).bind fun field hfield ↦ ?_
  have hsize : (tarOctal field).getD 0 < 8 ^ 12 := by
    cases hv : tarOctal field with
    | none => decide
    | some v => exact tarOctal_lt (by omega) hv
  have hblocks : TarReader.divCeil ((tarOctal field).getD 0) 512 ≤ 8 ^ 12 := by
    unfold TarReader.divCeil
    split <;> omega
  refine (mul_returns (by omega)).bind fun padded hpadded ↦ ?_
  refine (add_returns (by omega)).bind fun step hstep ↦ ?_
  exact ⟨_, add_eq (by omega), by omega⟩

/-- The walk over the headers answers for a header inside the file. -/
theorem tarLoop_returns {α : Type} (answer : ℕ → Option α) {P : Option α → Prop} (hnone : P none)
    (hanswer : ∀ off a, off + 512 ≤ clean.length → answer off = some a → P (some a)) :
    Returns ((tarLoop clean answer).run 0) P := by
  have hturn : ∀ off, off < 2 ^ 63 + 2 ^ 50 →
      Returns (tarTurn clean answer off) (Turn.Meets P (· < 2 ^ 63 + 2 ^ 50)) := by
    intro off hoff
    unfold tarTurn
    refine (add_returns (by omega)).bind fun stop hstop ↦ ?_
    split
    · exact returns_pure hnone
    · refine (range_returns (by omega) (by omega)).bind fun block _ ↦ ?_
      split
      · exact returns_pure hnone
      · cases ha : answer off with
        | some a => exact returns_pure (hanswer off a (by omega) ha)
        | none =>
            refine (tarNext_returns hclean (by omega)).bind fun next hnext ↦ ?_
            exact returns_pure hnext
  exact (tarLoop clean answer).run_returns hturn (by omega)

theorem tarFieldAt_returns (offset : ℕ) : Returns (tarFieldAt clean offset) AnswersRule := by
  refine tarLoop_returns hclean _ (by simp [AnswersRule]) ?_
  intro off id _ hid
  split_ifs at hid
  · obtain rfl := Option.some.inj hid
    simp [AnswersRule, diffRules]
  · obtain rfl := Option.some.inj hid
    simp [AnswersRule, diffRules]

theorem fieldResolve_returns (format : String) (corrupted : Bytes) (offset : ℕ) :
    Returns (fieldResolve format clean corrupted offset) AnswersRule := by
  unfold fieldResolve
  split
  · exact zipFieldAt_returns hclean offset
  · split
    · exact tarFieldAt_returns hclean offset
    · split
      · refine returns_pure ?_
        unfold isoFieldAt
        dsimp only
        split_ifs <;> simp [AnswersRule, diffRules]
      · exact returns_pure (by simp [AnswersRule])

end Walks

/-! ## Findings -/

/-- A finding the classifier emits, located inside a file of `top` bytes. -/
structure Reported (top : ℕ) (d : Detected) : Prop where
  confidence : d.confidence = none
  rule : ∃ id ∈ diffRules, d.ruleIdOverride = some id
  start_le : d.location.offsetStart ≤ d.location.offsetEnd
  end_le : d.location.offsetEnd ≤ top

/-- The location a stream-level location is made of. -/
theorem stream_eq {a b : ℕ} (h : a ≤ b) : CorruptionLocation.stream a b = .ok ⟨none, a, b⟩ := by
  rw [CorruptionLocation.stream, debugAssert_eq h]
  rfl

theorem reported_finding {id : String} (hid : id ∈ diffRules) {top a b : ℕ} (hab : a ≤ b)
    (hb : b ≤ top) : Reported top (finding id ⟨none, a, b⟩) :=
  ⟨rfl, ⟨id, hid, rfl⟩, hab, hb⟩

/-- Only the confidence, the rule and the location of a finding count. -/
theorem Reported.congr {top : ℕ} {d d' : Detected} (h : Reported top d)
    (hconf : d'.confidence = d.confidence) (hrule : d'.ruleIdOverride = d.ruleIdOverride)
    (hloc : d'.location = d.location) : Reported top d' :=
  ⟨hconf.trans h.confidence, hrule ▸ h.rule, hloc ▸ h.start_le, hloc ▸ h.end_le⟩

theorem countOnes_le (b : UInt8) : countOnes b ≤ 8 :=
  (List.length_filter_le _ _).trans_eq (List.length_range)

theorem totalBitDiff_returns {a b : Bytes} (h : a.length ≤ 64) :
    Returns (totalBitDiff a b) fun _ ↦ True := by
  have hsum : ∀ (l : List (UInt8 × UInt8)) (sum : ℕ), sum + 8 * l.length < 2 ^ 32 →
      Returns (l.foldlM (fun sum p ↦ add 32 sum (countOnes (p.1 ^^^ p.2))) sum)
        fun _ ↦ True := by
    intro l
    induction l with
    | nil => exact fun sum _ ↦ returns_pure trivial
    | cons p l ih =>
        intro sum hlt
        have hones := countOnes_le (p.1 ^^^ p.2)
        rw [List.length_cons] at hlt
        rw [List.foldlM_cons]
        refine (add_returns (by omega)).bind fun sum' hsum' ↦ ih sum' ?_
        omega
  refine hsum _ 0 ?_
  rw [List.length_zip]
  omega

theorem differing_eq {corrupted clean : Bytes} {is : List ℕ}
    (his : ∀ i ∈ is, i < corrupted.length ∧ i < clean.length) :
    differing corrupted clean is = .ok (is.filter fun i ↦ corrupted[i]? ≠ clean[i]?) := by
  induction is with
  | nil => rfl
  | cons i rest ih =>
      obtain ⟨hd, hc⟩ := his i List.mem_cons_self
      rw [differing, index_eq hd, index_eq hc, ih fun j hj ↦ his j (List.mem_cons_of_mem i hj)]
      by_cases heq : corrupted[i] = clean[i]
      · simp [List.getElem?_eq_getElem hd, List.getElem?_eq_getElem hc, heq, bind, Except.bind,
          pure, Except.pure]
      · simp [List.getElem?_eq_getElem hd, List.getElem?_eq_getElem hc, heq, bind, Except.bind,
          pure, Except.pure]

/-! ## Length changes -/

section Lengths

variable (r : Rounding) (tenths : ℚ → String) (format : String) {corrupted clean : Bytes}

theorem cutOf_returns (pct : ℚ) {gone : ℕ} (hgone : gone + corrupted.length = clean.length) :
    Returns (cutOf format pct corrupted clean gone) fun cut ↦
      cut.rule ∈ diffRules ∧ cut.location.offsetStart ≤ cut.location.offsetEnd ∧
        cut.location.offsetEnd ≤ clean.length := by
  unfold cutOf
  refine (range_returns (by omega) (by omega)).bind fun front _ ↦ ?_
  refine (range_returns (by omega) le_rfl).bind fun back _ ↦ ?_
  refine (byteRange_new_returns (by omega)).bind fun removed _ ↦ ?_
  split
  · rw [stream_eq (by omega)]
    refine (byteRange_new_returns (by omega)).bind fun tail _ ↦ ?_
    refine returns_pure ⟨tailTruncRule_mem format pct, ?_, le_rfl⟩
    change corrupted.length ≤ clean.length
    omega
  · split
    · rw [stream_eq (by omega)]
      refine returns_pure ⟨headTruncRule_mem format, Nat.zero_le gone, ?_⟩
      change gone ≤ clean.length
      omega
    · rw [stream_eq (by omega)]
      refine returns_pure ⟨missingRule_mem format, Nat.zero_le gone, ?_⟩
      change gone ≤ clean.length
      omega

/-- A change of length is reported, and only that. -/
theorem lengthFinding_returns :
    Returns (lengthFinding r tenths format corrupted clean) fun out ↦
      (∀ d ∈ out, Reported (max corrupted.length clean.length) d) ∧
        (out = [] ↔ corrupted.length = clean.length) := by
  unfold lengthFinding
  split
  · rename_i hlt
    refine (sub_returns (by omega)).bind fun gone hgone ↦ ?_
    refine (cutOf_returns format _ (by omega)).bind fun cut hcut ↦ ?_
    obtain ⟨hrule, hstart, hend⟩ := hcut
    refine returns_pure ⟨fun d hd ↦ ?_, by simp; omega⟩
    obtain rfl := List.mem_singleton.mp hd
    exact ⟨rfl, ⟨cut.rule, hrule, rfl⟩, hstart, hend.trans (le_max_right _ _)⟩
  · split
    · rename_i hlt
      rw [stream_eq (by omega)]
      refine (sub_returns (by omega)).bind fun grown _ ↦ ?_
      refine returns_pure ⟨fun d hd ↦ ?_, by simp; omega⟩
      obtain rfl := List.mem_singleton.mp hd
      exact (reported_finding (by decide) (by omega) (le_max_left _ _)).congr rfl rfl rfl
    · exact returns_pure ⟨by simp, by simp; omega⟩

end Lengths

/-! ## Special edits -/

theorem blockAt_returns {d : Bytes} (hd : d.length < 2 ^ 63) {i : ℕ} (hi : i < d.length / 512) :
    Returns (blockAt d i) fun _ ↦ True := by
  unfold blockAt
  refine (mul_returns (by omega)).bind fun first hfirst ↦ ?_
  refine (add_returns (by omega)).bind fun after hafter ↦ ?_
  refine (mul_returns (by omega)).bind fun last hlast ↦ ?_
  exact (range_returns (by omega) (by omega)).mono fun _ _ ↦ trivial

section Tar

variable {corrupted clean : Bytes} (hclean : clean.length < 2 ^ 63)

include hclean

theorem changedBlocks_returns (hlen : clean.length = corrupted.length) {is : List ℕ}
    (his : ∀ i ∈ is, i < clean.length / 512) :
    Returns (changedBlocks clean corrupted is) (·.Sublist is) := by
  induction is with
  | nil => exact returns_pure (List.Sublist.refl [])
  | cons i rest ih =>
      have hi := his i List.mem_cons_self
      rw [changedBlocks]
      refine (blockAt_returns hclean hi).bind fun c _ ↦ ?_
      refine (blockAt_returns (hlen ▸ hclean) (hlen ▸ hi)).bind fun d _ ↦ ?_
      refine (ih fun j hj ↦ his j (List.mem_cons_of_mem i hj)).bind fun others hothers ↦ ?_
      split
      · exact returns_pure (hothers.cons_cons i)
      · exact returns_pure (hothers.cons i)

theorem tarBlockSwap_returns :
    Returns (tarBlockSwap clean corrupted) fun o ↦
      ∀ a b, o = some (a, b) → a < b ∧ (b + 1) * 512 ≤ clean.length := by
  unfold tarBlockSwap
  split
  · exact returns_pure fun a b h ↦ nomatch h
  · rename_i hlen
    have hlen : clean.length = corrupted.length := not_not.mp hlen
    have hrange : ∀ i ∈ List.range (clean.length / 512), i < clean.length / 512 :=
      fun i hi ↦ List.mem_range.mp hi
    refine (changedBlocks_returns hclean hlen hrange).bind fun changed hchanged ↦ ?_
    split
    · rename_i htwo
      obtain ⟨a, b, rfl⟩ := List.length_eq_two.mp htwo
      have hb := hrange b (hchanged.subset (by simp))
      have hab : a < b := by
        have hsorted := List.pairwise_lt_range.sublist hchanged
        simpa using hsorted
      refine (returns_of_eq (P := (· = a)) rfl rfl).bind fun a' ha' ↦ ?_
      refine (returns_of_eq (P := (· = b)) rfl rfl).bind fun b' hb' ↦ ?_
      subst ha' hb'
      refine (blockAt_returns hclean (hab.trans hb)).bind fun ca _ ↦ ?_
      refine (blockAt_returns hclean hb).bind fun cb _ ↦ ?_
      refine (blockAt_returns (hlen ▸ hclean) (hlen ▸ hab.trans hb)).bind fun da _ ↦ ?_
      refine (blockAt_returns (hlen ▸ hclean) (hlen ▸ hb)).bind fun db _ ↦ ?_
      refine returns_pure fun x y hxy ↦ ?_
      split at hxy
      · obtain ⟨rfl, rfl⟩ := Prod.mk.inj (Option.some.inj hxy)
        exact ⟨hab, by omega⟩
      · cases hxy
    · exact returns_pure fun a b h ↦ nomatch h

theorem tarGnuLongname_returns :
    Returns (tarGnuLongname clean corrupted) fun o ↦
      ∀ off, o = some off → off + 512 ≤ clean.length := by
  unfold tarGnuLongname
  split
  · exact returns_pure fun off h ↦ nomatch h
  · refine tarLoop_returns hclean _ (fun off h ↦ nomatch h) ?_
    intro off a hoff ha off' hoff'
    obtain rfl := Option.some.inj hoff'
    split at ha
    · obtain rfl := Option.some.inj ha
      exact hoff
    · cases ha

theorem tarFinding_returns :
    Returns (tarFinding corrupted clean) fun o ↦
      ∀ d ∈ o, Reported (max corrupted.length clean.length) d := by
  unfold tarFinding
  refine (tarBlockSwap_returns hclean).bind fun o ho ↦ ?_
  match o, ho with
  | some (a, b), ho =>
      obtain ⟨hab, hb⟩ := ho a b rfl
      refine (mul_returns (by omega)).bind fun first hfirst ↦ ?_
      refine (add_returns (by omega)).bind fun after hafter ↦ ?_
      refine (mul_returns (by omega)).bind fun last hlast ↦ ?_
      rw [stream_eq (by omega)]
      refine (byteRange_new_returns (by omega)).bind fun span _ ↦ ?_
      refine returns_pure fun d hd ↦ ?_
      obtain rfl := Option.some.inj hd
      exact (reported_finding (by decide) (by omega) (by omega)).congr rfl rfl rfl
  | none, _ =>
      refine (tarGnuLongname_returns hclean).bind fun o ho ↦ ?_
      match o, ho with
      | some off, ho =>
          have hoff := ho off rfl
          refine (add_returns (by omega)).bind fun stop hstop ↦ ?_
          rw [stream_eq (by omega)]
          refine (byteRange_new_returns (by omega)).bind fun span _ ↦ ?_
          refine returns_pure fun d hd ↦ ?_
          obtain rfl := Option.some.inj hd
          exact (reported_finding (by decide) (by omega) (by omega)).congr rfl rfl rfl
      | none, _ => exact returns_pure (by simp)

end Tar

/-! ## From the first to the last difference -/

section Span

variable (format : String) {corrupted clean : Bytes}

theorem magicChanged_returns (diffs : List ℕ) (first span : ℕ) {actual : Bytes}
    (hactual : actual.length ≤ 64) (expected : Bytes) :
    Returns (magicChanged format diffs first span actual expected) fun _ ↦ True := by
  unfold magicChanged
  split
  · exact (totalBitDiff_returns hactual).bind fun bits _ ↦ returns_pure trivial
  · exact returns_pure trivial

theorem spanRule_returns (hclean : clean.length < 2 ^ 63) (diffs : List ℕ) (first span : ℕ)
    {actual : Bytes} (hactual : actual.length ≤ 64) (expected : Bytes) :
    Returns (spanRule format corrupted clean diffs first span actual expected)
      (· ∈ diffRules) := by
  unfold spanRule
  refine (magicChanged_returns format diffs first span hactual expected).bind fun magic _ ↦ ?_
  split
  · exact returns_pure (magicRule_mem format)
  · refine (fieldResolve_returns hclean format corrupted first).bind fun o ho ↦ ?_
    cases o with
    | some id => exact returns_pure (ho id rfl)
    | none =>
        refine returns_pure ?_
        split
        · exact missingRule_mem format
        · exact flipRule_mem format _ _

/-- A location spans these offsets: from the least to one past the greatest. -/
def Spans (l : CorruptionLocation) (offsets : Set ℕ) : Prop :=
  IsLeast offsets l.offsetStart ∧ ∃ last, IsGreatest offsets last ∧ l.offsetEnd = last + 1

theorem index_first_returns {l : List ℕ} (hl : l.Pairwise (· < ·)) (h : 0 < l.length) :
    Returns (index l 0) (IsLeast {i | i ∈ l}) := by
  refine returns_of_eq (index_eq h) ⟨List.getElem_mem h, fun i hi ↦ ?_⟩
  obtain ⟨j, hj, rfl⟩ := List.getElem_of_mem hi
  rcases Nat.eq_zero_or_pos j with rfl | hpos
  · exact le_rfl
  · exact (List.pairwise_iff_getElem.mp hl 0 j h hj hpos).le

theorem index_last_returns {l : List ℕ} (hl : l.Pairwise (· < ·)) {n : ℕ} (h : n < l.length)
    (hn : n = l.length - 1) : Returns (index l n) (IsGreatest {i | i ∈ l}) := by
  refine returns_of_eq (index_eq h) ⟨List.getElem_mem h, fun i hi ↦ ?_⟩
  obtain ⟨j, hj, rfl⟩ := List.getElem_of_mem hi
  rcases Nat.lt_or_ge j n with hlt | hge
  · exact (List.pairwise_iff_getElem.mp hl j n hj h hlt).le
  · obtain rfl : j = n := by omega
    exact le_rfl

theorem spanFinding_returns (hclean : clean.length < 2 ^ 63) {diffs : List ℕ}
    (hsorted : diffs.Pairwise (· < ·)) (hne : diffs ≠ [])
    (hin : ∀ i ∈ diffs, i < corrupted.length ∧ i < clean.length) :
    Returns (spanFinding format corrupted clean diffs) fun d ↦
      Reported (max corrupted.length clean.length) d ∧ Spans d.location {i | i ∈ diffs} := by
  have hpos := List.length_pos_of_ne_nil hne
  unfold spanFinding
  refine (index_first_returns hsorted hpos).bind fun first hfirst ↦ ?_
  refine (sub_returns hpos).bind fun lastIndex hindex ↦ ?_
  refine (index_last_returns hsorted (by omega) hindex).bind fun last hlast ↦ ?_
  have hle : first ≤ last := hlast.2 hfirst.1
  obtain ⟨hcorrupted', hclean'⟩ := hin last hlast.1
  refine (sub_returns hle).bind fun width hwidth ↦ ?_
  refine (add_returns (by omega)).bind fun span hspan ↦ ?_
  refine (add_returns (by omega)).bind fun sampled hsampled ↦ ?_
  refine (add_returns (by omega)).bind fun sampleEnd hend ↦ ?_
  refine (range_returns (by omega) (by omega)).bind fun actual hactual ↦ ?_
  refine (range_returns (by omega) (by omega)).bind fun expected _ ↦ ?_
  refine (spanRule_returns format hclean diffs first span (by omega) expected).bind fun id hid ↦ ?_
  refine (add_returns (by omega)).bind fun stop hstop ↦ ?_
  rw [stream_eq (by omega)]
  refine (byteRange_new_returns (by omega)).bind fun byteRange _ ↦ ?_
  refine returns_pure ⟨?_, hfirst, last, hlast, hstop⟩
  exact (reported_finding hid (by omega) (by omega)).congr rfl rfl rfl

end Span

/-! ## The whole diff -/

/-- The offsets at which two files differ. -/
def differences (corrupted clean : Bytes) : Set ℕ := {i | corrupted[i]? ≠ clean[i]?}

/-- Both files reach into the magic of the ISO volume descriptor, one of them ends inside, and
they differ there. -/
def CutInMagic (format : String) (corrupted clean : Bytes) : Prop :=
  format = "ISO" ∧ min corrupted.length clean.length < 32774 ∧
    ∃ i ∈ differences corrupted clean, 32769 ≤ i ∧ i < min corrupted.length clean.length

theorem isoMagicFinding_returns {corrupted clean : Bytes}
    (h : 32774 ≤ min corrupted.length clean.length) :
    Returns (isoMagicFinding corrupted clean) (Reported (max corrupted.length clean.length)) := by
  unfold isoMagicFinding
  refine (range_returns (by omega) (by omega)).bind fun actual _ ↦ ?_
  refine (range_returns (by omega) (by omega)).bind fun expected _ ↦ ?_
  rw [stream_eq (by omega)]
  exact returns_pure ((reported_finding (by decide) (by omega) (by omega)).congr rfl rfl rfl)

theorem isoMagicFinding_error {corrupted clean : Bytes}
    (h : min corrupted.length clean.length < 32774) :
    isoMagicFinding corrupted clean = .error .outOfRange := by
  unfold isoMagicFinding
  by_cases hc : corrupted.length < 32774
  · rw [range, if_neg (by omega)]
    rfl
  · rw [range_eq (by omega) (by omega), range, if_neg (by omega)]
    rfl

/-- The offsets inside both files at which they differ, in order. -/
def commonDifferences (corrupted clean : Bytes) : List ℕ :=
  (List.range (min clean.length corrupted.length)).filter fun i ↦ corrupted[i]? ≠ clean[i]?

section Common

variable {corrupted clean : Bytes}

theorem mem_commonDifferences {i : ℕ} : i ∈ commonDifferences corrupted clean ↔
    i < min corrupted.length clean.length ∧ i ∈ differences corrupted clean := by
  rw [commonDifferences, List.mem_filter, List.mem_range, decide_eq_true_iff, min_comm]
  rfl

theorem differing_common :
    differing corrupted clean (List.range (min clean.length corrupted.length)) =
      .ok (commonDifferences corrupted clean) :=
  differing_eq fun i hi ↦ by
    rw [List.mem_range] at hi
    omega

theorem commonDifferences_sorted : (commonDifferences corrupted clean).Pairwise (· < ·) :=
  List.pairwise_lt_range.filter _

/-- Files of one length differ at common offsets only. -/
theorem setOf_mem_commonDifferences (hlen : corrupted.length = clean.length) :
    {i | i ∈ commonDifferences corrupted clean} = differences corrupted clean := by
  ext i
  refine mem_commonDifferences.trans ⟨And.right, fun hi ↦ ⟨?_, hi⟩⟩
  by_contra hge
  refine hi ?_
  rw [List.getElem?_eq_none (by omega), List.getElem?_eq_none (by omega)]

theorem commonDifferences_eq_nil (hlen : corrupted.length = clean.length) :
    commonDifferences corrupted clean = [] ↔ corrupted = clean := by
  rw [List.eq_nil_iff_forall_not_mem]
  constructor
  · intro h
    refine List.ext_getElem? fun i ↦ ?_
    by_contra hi
    refine h i ?_
    have hmem : i ∈ differences corrupted clean := hi
    rwa [← setOf_mem_commonDifferences hlen] at hmem
  · rintro rfl i hi
    exact (mem_commonDifferences.mp hi).2 rfl

end Common

/-- What the diff says about the files: nothing of equal ones, locations inside the longer one,
and of files of one length exactly where they differ. -/
structure Describes (format : String) (corrupted clean : Bytes) (ls : List CorruptionLocation) :
    Prop where
  nil_iff : ls = [] ↔ corrupted = clean
  within : ∀ l ∈ ls, l.offsetStart ≤ l.offsetEnd ∧
    l.offsetEnd ≤ max corrupted.length clean.length
  spans : corrupted.length = clean.length → format ≠ "TAR" → format ≠ "ISO" →
    corrupted ≠ clean → ∃ l, ls = [l] ∧ Spans l (differences corrupted clean)

/-- What the findings of a diff are like. -/
structure Sound (format : String) (corrupted clean : Bytes) (found : List Detected) : Prop where
  reported : ∀ d ∈ found, Reported (max corrupted.length clean.length) d
  nil_iff : found = [] ↔ corrupted = clean
  spans : corrupted.length = clean.length → format ≠ "TAR" → format ≠ "ISO" →
    corrupted ≠ clean → ∃ d, found = [d] ∧ Spans d.location (differences corrupted clean)

section Whole

variable (r : Rounding) (tenths : ℚ → String) {format : String} {corrupted clean : Bytes}

/-- One finding more than the change of length. -/
theorem sound_append {out : List Detected} {d : Detected}
    (hout : ∀ d ∈ out, Reported (max corrupted.length clean.length) d)
    (hlen : out = [] ↔ corrupted.length = clean.length)
    (hd : Reported (max corrupted.length clean.length) d) (hne : corrupted ≠ clean)
    (hspans : format ≠ "TAR" → format ≠ "ISO" →
      Spans d.location {i | i ∈ commonDifferences corrupted clean}) :
    Sound format corrupted clean (out ++ [d]) where
  reported := by
    intro d' hd'
    rcases List.mem_append.mp hd' with h | h
    · exact hout d' h
    · exact List.mem_singleton.mp h ▸ hd
  nil_iff := ⟨fun h ↦ by simp at h, fun h ↦ absurd h hne⟩
  spans := by
    intro heq htar hiso _
    refine ⟨d, by rw [hlen.mpr heq, List.nil_append], ?_⟩
    rw [← setOf_mem_commonDifferences heq]
    exact hspans htar hiso

theorem diff_returns (hclean : clean.length < 2 ^ 63)
    (hcut : ¬ CutInMagic format corrupted clean) :
    Returns (diff r tenths format corrupted clean) (Sound format corrupted clean) := by
  unfold diff
  refine (lengthFinding_returns r tenths format).bind fun out hout ↦ ?_
  obtain ⟨hreported, hlen⟩ := hout
  rw [differing_common]
  refine (returns_ok (P := (· = commonDifferences corrupted clean)) rfl).bind fun diffs hdiffs ↦ ?_
  subst hdiffs
  split
  · rename_i hnil
    refine returns_pure ⟨hreported, hlen.trans ⟨fun h ↦ ?_, fun h ↦ h ▸ rfl⟩, ?_⟩
    · exact (commonDifferences_eq_nil h).mp hnil
    · exact fun h _ _ hne ↦ absurd ((commonDifferences_eq_nil h).mp hnil) hne
  · rename_i hsome
    have hne : corrupted ≠ clean := by
      rintro rfl
      exact hsome ((commonDifferences_eq_nil rfl).mpr rfl)
    split
    · rename_i hiso
      obtain ⟨hformat, hany⟩ := hiso
      obtain ⟨i, hi, hmagic⟩ := List.any_eq_true.mp hany
      have hmagic : 32769 ≤ i ∧ i < 32774 := by simpa using hmagic
      obtain ⟨hcommon, hdiffer⟩ := mem_commonDifferences.mp hi
      have hlong : 32774 ≤ min corrupted.length clean.length := by
        by_contra hshort
        exact hcut ⟨hformat, by omega, i, hdiffer, hmagic.1, hcommon⟩
      refine (isoMagicFinding_returns hlong).bind fun found hfound ↦ returns_pure ?_
      exact sound_append hreported hlen hfound hne fun _ h ↦ absurd hformat h
    · -- A special edit of a TAR archive, or else the span of all differences.
      have hspan : Returns (do
          let found ← spanFinding format corrupted clean (commonDifferences corrupted clean)
          return out ++ [found]) (Sound format corrupted clean) := by
        have hin : ∀ i ∈ commonDifferences corrupted clean,
            i < corrupted.length ∧ i < clean.length :=
          fun i hi ↦ lt_min_iff.mp (mem_commonDifferences.mp hi).1
        refine (spanFinding_returns format hclean commonDifferences_sorted hsome hin).bind
          fun found hfound ↦ returns_pure ?_
        exact sound_append hreported hlen hfound.1 hne fun _ _ ↦ hfound.2
      dsimp only
      split
      · rename_i htar
        refine (tarFinding_returns hclean).bind fun o ho ↦ ?_
        cases o with
        | some found =>
            exact returns_pure (sound_append hreported hlen (ho found rfl) hne
              fun h _ ↦ absurd htar h)
        | none => exact hspan
      · refine (returns_pure (P := (· = none)) rfl).bind fun o ho ↦ ?_
        subst ho
        exact hspan

theorem diff_error (hcut : CutInMagic format corrupted clean) :
    diff r tenths format corrupted clean = .error .outOfRange := by
  obtain ⟨hformat, hshort, i, hi, hge, hlt⟩ := hcut
  have hmem : i ∈ commonDifferences corrupted clean := mem_commonDifferences.mpr ⟨hlt, hi⟩
  have hany : (commonDifferences corrupted clean).any
      (fun i ↦ 32769 ≤ i && i < 32774) = true :=
    List.any_eq_true.mpr ⟨i, hmem, by simp; omega⟩
  unfold diff
  obtain ⟨out, hout, -⟩ := @lengthFinding_returns r tenths format corrupted clean
  rw [hout, differing_common, isoMagicFinding_error hshort]
  change (if commonDifferences corrupted clean = [] then _ else _) = _
  rw [if_neg (List.ne_nil_of_mem hmem), if_pos ⟨hformat, hany⟩]
  rfl

variable (percent : ℚ → String) (newV4 : ℕ → ℕ)

theorem classifyAll_returns {top : ℕ} {found : List Detected}
    (hfound : ∀ d ∈ found, Reported top d) (n : ℕ) :
    Returns (classifyAll r percent newV4 n found) fun out ↦
      out.map (·.location) = found.map (·.location) := by
  induction found generalizing n with
  | nil => exact returns_pure rfl
  | cons d rest ih =>
      have hd := hfound d List.mem_cons_self
      obtain ⟨id, hid, hrule⟩ := hd.rule
      obtain ⟨entry, hentry⟩ := Option.isSome_iff_exists.mp (registered_of_mem id hid)
      have hnamed : rule (d.ruleIdOverride.getD d.kind.ruleId) = some entry := by
        rw [hrule]
        exact hentry
      obtain ⟨c, hc, hloc⟩ := classify_registered r percent (newV4 n) hd.confidence hnamed
      rw [classifyAll, hc]
      refine (ih (fun d' h ↦ hfound d' (List.mem_cons_of_mem d h)) (n + 1)).bind
        fun others hothers ↦ returns_pure ?_
      change c.location :: others.map (·.location) = d.location :: rest.map (·.location)
      rw [hloc, hothers]

theorem describes_of_sound {found : List Detected} (h : Sound format corrupted clean found)
    {ls : List CorruptionLocation} (hls : ls = found.map (·.location)) :
    Describes format corrupted clean ls where
  nil_iff := by rw [hls, List.map_eq_nil_iff, h.nil_iff]
  within := by
    intro l hl
    rw [hls] at hl
    obtain ⟨d, hd, rfl⟩ := List.mem_map.mp hl
    exact ⟨(h.reported d hd).start_le, (h.reported d hd).end_le⟩
  spans := by
    intro heq htar hiso hne
    obtain ⟨d, hd, hspans⟩ := h.spans heq htar hiso hne
    exact ⟨d.location, by rw [hls, hd]; rfl, hspans⟩

end Whole

/-- The diff fails exactly when a damaged ISO image ends inside the magic it is damaged in. -/
theorem scanReference_describes_iff (r : Rounding) (tenths percent : ℚ → String) (newV4 : ℕ → ℕ)
    (format : String) (corrupted clean : DataSource) :
    Returns (scanReference r tenths format corrupted.bytes clean.bytes percent newV4)
        (fun out ↦ Describes format corrupted.bytes clean.bytes (out.map (·.location))) ↔
      ¬ CutInMagic format corrupted.bytes clean.bytes := by
  constructor
  · intro h hcut
    refine h.ne_error (f := .outOfRange) ?_
    rw [scanReference, diff_error r tenths hcut]
    rfl
  · intro hcut
    refine (diff_returns r tenths clean.addressable hcut).bind fun found hfound ↦ ?_
    exact (classifyAll_returns r percent newV4 hfound.reported 0).mono
      fun out hout ↦ describes_of_sound hfound hout

/-- An image of `32770` bytes, all but the last of them zero. -/
def endsInMagic (last : UInt8) : DataSource where
  bytes := List.replicate 32769 0 ++ [last]
  addressable := by
    rw [List.length_append, List.length_replicate, List.length_singleton]
    norm_num

theorem endsInMagic_length (last : UInt8) : (endsInMagic last).bytes.length = 32770 := by
  rw [endsInMagic, List.length_append, List.length_replicate, List.length_singleton]

theorem endsInMagic_last (last : UInt8) : (endsInMagic last).bytes[32769]? = some last := by
  rw [endsInMagic, List.getElem?_append_right (by rw [List.length_replicate]),
    List.length_replicate]
  rfl

theorem endsInMagic_cut :
    CutInMagic "ISO" (endsInMagic 0).bytes (endsInMagic 0x43).bytes := by
  refine ⟨rfl, ?_, 32769, ?_, le_rfl, ?_⟩
  · rw [endsInMagic_length, endsInMagic_length]
    norm_num
  · change (endsInMagic 0).bytes[32769]? ≠ (endsInMagic 0x43).bytes[32769]?
    rw [endsInMagic_last, endsInMagic_last]
    decide
  · rw [endsInMagic_length, endsInMagic_length]
    norm_num

theorem endsInMagic_undescribed :
    ¬ ∀ (r : Rounding) (tenths percent : ℚ → String) (newV4 : ℕ → ℕ) (format : String)
      (corrupted clean : DataSource),
      Returns (scanReference r tenths format corrupted.bytes clean.bytes percent newV4)
        fun out ↦ Describes format corrupted.bytes clean.bytes (out.map (·.location)) := by
  intro h
  have hscan := h Rounding.exact (fun _ ↦ "") (fun _ ↦ "") id "ISO" (endsInMagic 0)
    (endsInMagic 0x43)
  refine hscan.ne_error (f := .outOfRange) ?_
  rw [scanReference, diff_error _ _ endsInMagic_cut]
  rfl

end VeraqisRecover.Analyze.Reference
