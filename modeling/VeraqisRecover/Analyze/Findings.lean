import VeraqisRecover.Analyze.Detector
import VeraqisRecover.Analyze.ReferenceDiff
import VeraqisRecover.Support.Yields

/-!
# Every finding of the detector becomes a corruption

A finding of any format names a registered rule, with a confidence the classifier lets pass, so
that none is dropped; every such rule costs points, and none is about bit flips, so that none is
merged, or about reordered blocks; and a range that a finding carries is in order and short.
-/

namespace VeraqisRecover.Analyze

open ByteString Checked LossyUtf8

/-- A registered rule that costs points, and that is about neither bit flips, so that its
corruptions are never merged, nor reordered blocks. -/
def Standing (id : String) : Bool :=
  (rule id).any fun entry ↦ entry.category ≠ .bitFlip ∧ entry.category ≠ .blockReorder ∧
    entry.defaultSeverity ≠ .benign

/-- A finding that the classifier emits and the estimator can measure. -/
structure Detected.Emitted (d : Detected) : Prop where
  standing : Standing (d.ruleIdOverride.getD d.kind.ruleId) = true
  confident : ∀ q ∈ d.confidence, 1 / 2 ≤ q
  range : ∀ r ∈ d.byteRange, r.start ≤ r.stop ∧ r.stop - r.start < 2 ^ 32

def AllEmitted (out : List Detected) : Prop := ∀ d ∈ out, d.Emitted

theorem standing_ruleId (kind : DefectKind) : Standing kind.ruleId = true := by
  cases kind <;> decide

/-- A finding of a kind, without anything else that matters. -/
theorem emitted_of_kind {d : Detected} (hid : d.ruleIdOverride = none)
    (hconf : d.confidence = none) (hrange : d.byteRange = none) : d.Emitted where
  standing := by
    rw [hid]
    exact standing_ruleId d.kind
  confident := by simp [hconf]
  range := by simp [hrange]

theorem emitted_of_rule {d : Detected} {id : String} (hid : d.ruleIdOverride = some id)
    (hrule : Standing id = true) (hconf : d.confidence = none) (hrange : d.byteRange = none) :
    d.Emitted where
  standing := by rwa [hid]
  confident := by simp [hconf]
  range := by simp [hrange]

theorem half_le_offsetOutOfBounds (offset fileSize : ℕ) :
    1 / 2 ≤ offsetOutOfBounds offset fileSize := by
  unfold offsetOutOfBounds
  split <;> norm_num

/-- A pointer that leaves the file, with the confidence that belongs to it. -/
theorem emitted_of_pointer {d : Detected} {offset fileSize : ℕ} (hid : d.ruleIdOverride = none)
    (hconf : d.confidence = some (offsetOutOfBounds offset fileSize))
    (hrange : d.byteRange = none) : d.Emitted where
  standing := by
    rw [hid]
    exact standing_ruleId d.kind
  confident := by
    intro q hq
    rw [hconf] at hq
    obtain rfl := Option.some.inj hq
    exact half_le_offsetOutOfBounds offset fileSize
  range := by simp [hrange]

/-! ## One more finding -/

section Push

variable {α : Type} {out : List Detected}

theorem allEmitted_nil : AllEmitted [] := fun _ hd ↦ absurd hd List.not_mem_nil

theorem AllEmitted.append {new : List Detected} (hout : AllEmitted out) (hnew : AllEmitted new) :
    AllEmitted (out ++ new) := by
  intro d hd
  rcases List.mem_append.mp hd with hd | hd
  · exact hout d hd
  · exact hnew d hd

theorem AllEmitted.concat {d : Detected} (hout : AllEmitted out) (hd : d.Emitted) :
    AllEmitted (out ++ [d]) :=
  hout.append fun _ h ↦ List.mem_singleton.mp h ▸ hd

/-- The last step of a check: what it located is appended. -/
theorem push_yields {x : Checked α} {finding : α → Detected} (hout : AllEmitted out)
    (hfinding : ∀ a, (finding a).Emitted) :
    Yields (x >>= fun a ↦ pure (out ++ [finding a])) AllEmitted :=
  yields_bind fun a ↦ yields_pure (hout.concat (hfinding a))

/-- A finding whose kind says everything. -/
theorem push_kind_yields {x : Checked α} {finding : α → Detected} (hout : AllEmitted out)
    (hid : ∀ a, (finding a).ruleIdOverride = none) (hconf : ∀ a, (finding a).confidence = none)
    (hrange : ∀ a, (finding a).byteRange = none) :
    Yields (x >>= fun a ↦ pure (out ++ [finding a])) AllEmitted :=
  push_yields hout fun a ↦ emitted_of_kind (hid a) (hconf a) (hrange a)

end Push

/-! ## The archive formats -/

section Archives

variable (s : DataSource) {out : List Detected} (hout : AllEmitted out)

include hout

theorem magicDefect_yields (magic : Bytes) {id : String} (hid : Standing id = true) :
    Yields (magicDefect s out magic id) AllEmitted := by
  refine yields_bind fun r ↦ yields_ite (fun _ ↦ yields_pure hout) fun _ ↦ ?_
  exact push_yields hout fun _ ↦ emitted_of_rule rfl hid rfl rfl

theorem pdfStubDefects_yields : Yields (pdfStubDefects s out) AllEmitted := by
  refine (magicDefect_yields s hout _ (by decide)).bind fun out hout ↦ yields_bind fun tail ↦ ?_
  refine yields_ite (fun _ ↦ yields_pure hout) fun _ ↦ ?_
  exact push_yields hout fun _ ↦ emitted_of_rule rfl (by decide) rfl rfl

theorem zipDirectoryDefect_yields (parse : ZipParse) (eocd : ℕ) :
    Yields (zipDirectoryDefect s parse eocd out) AllEmitted := by
  refine yields_ite (fun _ ↦ yields_pure hout) fun _ ↦ yields_ite (fun _ ↦ ?_) fun _ ↦ ?_
  · refine yields_bind fun field ↦ yields_bind fun actual ↦ ?_
    exact push_yields hout fun _ ↦ emitted_of_pointer rfl rfl rfl
  · refine yields_bind fun actual ↦ ?_
    exact push_kind_yields hout (fun _ ↦ rfl) (fun _ ↦ rfl) fun _ ↦ rfl

theorem zipCountDefect_yields (parse : ZipParse) (eocd : ℕ) :
    Yields (zipCountDefect parse eocd out) AllEmitted := by
  refine yields_ite (fun _ ↦ ?_) fun _ ↦ yields_pure hout
  exact push_kind_yields hout (fun _ ↦ rfl) (fun _ ↦ rfl) fun _ ↦ rfl

theorem zipLocalHeaderDefect_yields (parse : ZipParse) :
    Yields (zipLocalHeaderDefect s parse out) AllEmitted := by
  refine yields_ite (fun _ ↦ yields_pure hout) fun _ ↦ ?_
  refine yields_bind fun actual ↦ yields_bind fun stop ↦ ?_
  exact push_kind_yields hout (fun _ ↦ rfl) (fun _ ↦ rfl) fun _ ↦ rfl

omit hout in
theorem zipCrcDefect_yields {e : ArchiveEntry} (he : ZipReader.Narrow e)
    (dataOff storedCrc computed : ℕ) :
    Yields (zipCrcDefect e dataOff storedCrc computed) Detected.Emitted := by
  intro d hd
  obtain ⟨stop, hstop, hd⟩ := bind_eq_ok.mp hd
  obtain ⟨range, hrange, hd⟩ := bind_eq_ok.mp hd
  obtain rfl := add_eq_ok hstop
  obtain ⟨-, -, hrange⟩ := bind_eq_ok.mp hrange
  obtain rfl := Except.ok.inj hrange
  obtain rfl := Except.ok.inj hd
  refine ⟨standing_ruleId .zipCrcMismatch, by simp, fun r hr ↦ ?_⟩
  obtain rfl := Option.some.inj hr
  have hsize := he.2
  dsimp only
  omega

omit hout in
theorem zipMemberDefect_yields {e : ArchiveEntry} (he : ZipReader.Narrow e) (method : ℕ) :
    Yields (zipMemberDefect s e method) fun o ↦ ∀ d ∈ o, d.Emitted := by
  have hnone : Yields (pure none : Checked (Option Detected)) fun o ↦ ∀ d ∈ o, d.Emitted :=
    yields_pure (by simp)
  have hstored : Yields (zipStoredDefect s e method) fun o ↦ ∀ d ∈ o, d.Emitted := by
    refine yields_ite (fun _ ↦ hnone) fun _ ↦ ?_
    cases e.storedCrc32 with
    | none => exact hnone
    | some storedCrc =>
        refine yields_bind fun r ↦ ?_
        cases r with
        | none => exact hnone
        | some r =>
            refine yields_ite (fun _ ↦ hnone) fun _ ↦ ?_
            refine (zipCrcDefect_yields he _ _ _).bind fun d hd ↦ yields_pure ?_
            exact fun d' hd' ↦ Option.some.inj hd' ▸ hd
  refine yields_bind fun r ↦ ?_
  cases r with
  | none => exact hstored
  | some lfhSize =>
      refine yields_ite (fun _ ↦ hstored) fun _ ↦ ?_
      have hsize : Yields (zipSizeDefect e lfhSize) Detected.Emitted :=
        yields_bind fun _ ↦ yields_bind fun _ ↦ yields_pure (emitted_of_kind rfl rfl rfl)
      exact hsize.bind fun d hd ↦ yields_pure fun d' hd' ↦ Option.some.inj hd' ▸ hd

theorem zipMemberDefects_yields (max : ℕ) {ms : List (ArchiveEntry × ℕ)}
    (hms : ∀ m ∈ ms, ZipReader.Narrow m.1) :
    Yields (zipMemberDefects s max ms out) AllEmitted := by
  induction ms generalizing out with
  | nil => exact yields_pure hout
  | cons m ms ih =>
      rw [zipMemberDefects]
      refine yields_ite (fun _ ↦ yields_pure hout) fun _ ↦ ?_
      refine (zipMemberDefect_yields s (hms m List.mem_cons_self) m.2).bind fun d hd ↦ ?_
      refine ih (hout.append fun d' hd' ↦ hd d' ?_) fun m' hm' ↦ hms m' (List.mem_cons_of_mem m hm')
      exact Option.mem_toList.mp hd'

theorem zipDefects_yields {parse : ZipParse} (hparse : ZipReader.Bounded parse) (verify : Bool)
    (max : ℕ) : Yields (zipDefects s parse verify out max) AllEmitted := by
  unfold zipDefects
  cases parse.eocdOffset with
  | none => exact push_kind_yields hout (fun _ ↦ rfl) (fun _ ↦ rfl) fun _ ↦ rfl
  | some eocd =>
      refine (zipDirectoryDefect_yields s hout parse eocd).bind fun out hout ↦ ?_
      refine (zipCountDefect_yields hout parse eocd).bind fun out hout ↦ ?_
      refine (zipLocalHeaderDefect_yields s hout parse).bind fun out hout ↦ ?_
      refine yields_ite (fun _ ↦ ?_) fun _ ↦ yields_pure hout
      exact zipMemberDefects_yields s hout max fun m hm ↦
        hparse.entries m.1 (List.of_mem_zip hm).1

theorem tarChecksumDefects_yields (max : ℕ) (failures : List (ℕ × Text)) :
    Yields (tarChecksumDefects s max failures out) AllEmitted := by
  induction failures generalizing out with
  | nil => exact yields_pure hout
  | cons failure rest ih =>
      rw [tarChecksumDefects]
      refine yields_ite (fun _ ↦ yields_pure hout) fun _ ↦ ?_
      refine yields_bind fun field ↦ yields_bind fun actual ↦ yields_bind fun stop ↦ ?_
      exact yields_bind fun location ↦ ih (hout.concat (emitted_of_kind rfl rfl rfl))

theorem tarDefects_yields (parse : TarParse) (max : ℕ) :
    Yields (tarDefects s parse out max) AllEmitted := by
  refine (tarChecksumDefects_yields s hout max parse.checksumFailures).bind fun out hout ↦ ?_
  refine yields_ite (fun _ ↦ ?_) fun _ ↦ yields_ite (fun _ ↦ ?_) fun _ ↦ yields_pure hout
  · exact push_kind_yields hout (fun _ ↦ rfl) (fun _ ↦ rfl) fun _ ↦ rfl
  · exact push_kind_yields hout (fun _ ↦ rfl) (fun _ ↦ rfl) fun _ ↦ rfl

theorem isoDefects_yields (parse : IsoParse) : Yields (isoDefects s parse out) AllEmitted := by
  refine yields_ite (fun _ ↦ ?_) fun _ ↦ yields_ite (fun _ ↦ ?_) fun _ ↦ yields_pure hout
  · refine yields_bind fun actual ↦ ?_
    exact push_kind_yields hout (fun _ ↦ rfl) (fun _ ↦ rfl) fun _ ↦ rfl
  · refine yields_bind fun actual ↦ yields_bind fun location ↦ yields_bind fun pointer ↦ ?_
    exact yields_pure (hout.concat (emitted_of_pointer rfl rfl rfl))

theorem rarDefects_yields : Yields (rarDefects s out) AllEmitted := by
  refine yields_bind fun head ↦ yields_bind fun ok ↦ ?_
  refine yields_ite (fun _ ↦ yields_pure hout) fun _ ↦ ?_
  exact push_kind_yields hout (fun _ ↦ rfl) (fun _ ↦ rfl) fun _ ↦ rfl

end Archives

/-! ## GZIP and 7z -/

section Streams

variable (s : DataSource) {out : List Detected} (hout : AllEmitted out)

include hout

theorem gzBodyDefect_yields (bodyStart : ℕ) (detail : String) :
    Yields (gzBodyDefect s bodyStart detail out) AllEmitted := by
  refine yields_ite (fun _ ↦ ?_) fun _ ↦ yields_pure hout
  exact push_kind_yields hout (fun _ ↦ rfl) (fun _ ↦ rfl) fun _ ↦ rfl

theorem gzCrcDefect_yields (stored : ℕ) (decompressed : Bytes) :
    Yields (gzCrcDefect s stored decompressed out) AllEmitted := by
  refine yields_ite (fun _ ↦ yields_pure hout) fun _ ↦ ?_
  refine yields_bind fun first ↦ yields_bind fun last ↦ ?_
  exact push_kind_yields hout (fun _ ↦ rfl) (fun _ ↦ rfl) fun _ ↦ rfl

theorem gzIsizeDefect_yields (stored : ℕ) (decompressed : Bytes) :
    Yields (gzIsizeDefect s stored decompressed out) AllEmitted := by
  refine yields_ite (fun _ ↦ yields_pure hout) fun _ ↦ yields_bind fun first ↦ ?_
  exact push_kind_yields hout (fun _ ↦ rfl) (fun _ ↦ rfl) fun _ ↦ rfl

theorem gzTrailerDefects_yields (inflate : Bytes → Bytes × Bool) (bodyStart trailerStart : ℕ) :
    Yields (gzTrailerDefects inflate s bodyStart trailerStart out) AllEmitted := by
  refine yields_bind fun crc ↦ yields_bind fun isize ↦ yields_bind fun body ↦ ?_
  refine yields_bind fun decompressed ↦ ?_
  refine yields_ite (fun _ ↦ gzBodyDefect_yields s hout _ _) fun _ ↦ ?_
  exact (gzCrcDefect_yields s hout _ _).bind fun out hout ↦ gzIsizeDefect_yields s hout _ _

theorem gzDefects_yields (inflate : Bytes → Bytes × Bool) :
    Yields (gzDefects inflate s out) AllEmitted := by
  refine yields_ite (fun _ ↦ ?_) fun _ ↦ yields_bind fun head ↦ ?_
  · refine yields_bind fun actual ↦ ?_
    exact push_kind_yields hout (fun _ ↦ rfl) (fun _ ↦ rfl) fun _ ↦ rfl
  · have hmagic : Yields (gzMagicDefect head out) AllEmitted := by
      refine yields_bind fun ok ↦ yields_ite (fun _ ↦ yields_pure hout) fun _ ↦ ?_
      exact push_kind_yields hout (fun _ ↦ rfl) (fun _ ↦ rfl) fun _ ↦ rfl
    refine hmagic.bind fun out hout ↦ yields_bind fun method ↦ ?_
    cases method with
    | some method => exact push_kind_yields hout (fun _ ↦ rfl) (fun _ ↦ rfl) fun _ ↦ rfl
    | none =>
        refine yields_bind fun bodyStart ↦ ?_
        exact yields_ite (fun _ ↦ gzBodyDefect_yields s hout _ _)
          fun _ ↦ gzTrailerDefects_yields s hout inflate _ _

theorem sevenzDefects_yields : Yields (sevenzDefects s out) AllEmitted := by
  refine yields_bind fun head ↦ yields_ite (fun _ ↦ ?_) fun _ ↦ ?_
  · exact push_kind_yields hout (fun _ ↦ rfl) (fun _ ↦ rfl) fun _ ↦ rfl
  · refine yields_ite (fun _ ↦ ?_) fun _ ↦ yields_pure hout
    refine yields_bind fun stored ↦ yields_bind fun startHeader ↦ ?_
    refine yields_ite (fun _ ↦ ?_) fun _ ↦ ?_
    · refine yields_bind fun nextOff ↦ yields_bind fun nextSize ↦ ?_
      refine yields_ite (fun _ ↦ ?_) fun _ ↦ yields_pure hout
      refine yields_bind fun location ↦ ?_
      exact push_kind_yields hout (fun _ ↦ rfl) (fun _ ↦ rfl) fun _ ↦ rfl
    · refine yields_bind fun location ↦ ?_
      exact push_kind_yields hout (fun _ ↦ rfl) (fun _ ↦ rfl) fun _ ↦ rfl

end Streams

/-! ## SQLite -/

section Pages

variable {out : List Detected} (hout : AllEmitted out)

include hout

theorem guarded_yields {start stop max : ℕ} (bad : Bool) (kind : DefectKind) (actual : Bytes)
    (expected : Option Bytes) (detail : String) :
    Yields (guarded max bad kind start stop actual expected detail out) AllEmitted := by
  refine yields_ite (fun _ ↦ ?_) fun _ ↦ yields_pure hout
  exact push_kind_yields hout (fun _ ↦ rfl) (fun _ ↦ rfl) fun _ ↦ rfl

theorem sqBtreeDefects_yields (pageSize max : ℕ) (errors : List BtreePageError) :
    Yields (sqBtreeDefects pageSize max errors out) AllEmitted := by
  induction errors generalizing out with
  | nil => exact yields_pure hout
  | cons e rest ih =>
      rw [sqBtreeDefects]
      refine yields_ite (fun _ ↦ yields_pure hout) fun _ ↦ ?_
      refine yields_bind fun stop ↦ yields_bind fun location ↦ ?_
      exact ih (hout.concat (emitted_of_kind rfl rfl rfl))

theorem sqPageCountDefect_yields (s : DataSource) (p : SqliteParse) (max : ℕ) :
    Yields (sqPageCountDefect s p max out) AllEmitted := by
  unfold sqPageCountDefect
  cases p.actualPages with
  | none => exact yields_pure hout
  | some actual => exact guarded_yields hout _ _ _ _ _

theorem sqliteDefects_yields (s : DataSource) (p : SqliteParse) (max : ℕ) :
    Yields (sqliteDefects s p out max) AllEmitted := by
  refine yields_ite (fun _ ↦ yields_pure hout) fun _ ↦ yields_ite (fun _ ↦ ?_) fun _ ↦ ?_
  · exact push_kind_yields hout (fun _ ↦ rfl) (fun _ ↦ rfl) fun _ ↦ rfl
  refine yields_ite (fun _ ↦ ?_) fun _ ↦ ?_
  · exact push_kind_yields hout (fun _ ↦ rfl) (fun _ ↦ rfl) fun _ ↦ rfl
  -- magic and page size are good
  refine (sqPageCountDefect_yields hout s p max).bind fun out hout ↦ ?_
  refine yields_ite (fun _ ↦ ?_) fun _ ↦ ?_
  · refine yields_bind fun location ↦ ?_
    exact push_kind_yields hout (fun _ ↦ rfl) (fun _ ↦ rfl) fun _ ↦ rfl
  · refine (guarded_yields hout _ _ _ _ _).bind fun out hout ↦ ?_
    refine (guarded_yields hout _ _ _ _ _).bind fun out hout ↦ ?_
    refine (guarded_yields hout _ _ _ _ _).bind fun out hout ↦ ?_
    refine (guarded_yields hout _ _ _ _ _).bind fun out hout ↦ ?_
    refine (sqBtreeDefects_yields hout _ _ _).bind fun out hout ↦ ?_
    refine (guarded_yields hout _ _ _ _ _).bind fun out hout ↦ ?_
    exact guarded_yields hout _ _ _ _ _

end Pages

/-! ## The detector -/

/-- One case per format. -/
theorem formatDefects_yields (inflate : Bytes → Bytes × Bool) (wal : Option (Option Bytes))
    (s : DataSource) (format : ArchiveFormat) (verify : Bool) (max : ℕ) :
    Yields (formatDefects inflate wal s format verify max) AllEmitted := by
  cases format with
  | raw => exact yields_pure allEmitted_nil
  | zip =>
      refine (ZipReader.parse_returns s).yields.bind fun parse hparse ↦ ?_
      exact zipDefects_yields s allEmitted_nil hparse verify max
  | tar => exact yields_bind fun parse ↦ tarDefects_yields s allEmitted_nil parse max
  | iso9660 => exact yields_bind fun parse ↦ isoDefects_yields s allEmitted_nil parse
  | gzip => exact gzDefects_yields s allEmitted_nil inflate
  | sqlite => exact yields_bind fun parse ↦ sqliteDefects_yields allEmitted_nil s parse max
  | sevenZ => exact sevenzDefects_yields s allEmitted_nil
  | rar => exact rarDefects_yields s allEmitted_nil
  | pdf => exact pdfStubDefects_yields s allEmitted_nil
  | bzip2 => exact magicDefect_yields s allEmitted_nil _ (by decide)
  | xz => exact magicDefect_yields s allEmitted_nil _ (by decide)
  | zstd => exact magicDefect_yields s allEmitted_nil _ (by decide)
  | lz4 => exact magicDefect_yields s allEmitted_nil _ (by decide)

theorem manifestDefect_yields (s : DataSource) (integrity : IntegrityResult) (max : ℕ)
    {out : List Detected} (hout : AllEmitted out) :
    Yields (manifestDefect s integrity max out) AllEmitted := by
  refine yields_ite (fun _ ↦ ?_) fun _ ↦ yields_pure hout
  exact push_kind_yields hout (fun _ ↦ rfl) (fun _ ↦ rfl) fun _ ↦ rfl

theorem detect_yields (inflate : Bytes → Bytes × Bool) (wal : Option (Option Bytes))
    (s : DataSource) (format : ArchiveFormat) (integrity : IntegrityResult) (verify : Bool)
    (max : ℕ) : Yields (detect inflate wal s format integrity verify max) fun r ↦
      AllEmitted r.1 ∧ r.1.length ≤ max := by
  refine (formatDefects_yields inflate wal s format verify max).bind fun out hout ↦ ?_
  refine (manifestDefect_yields s integrity max hout).bind fun out hout ↦ ?_
  exact yields_pure ⟨fun d hd ↦ hout d (List.mem_of_mem_take hd), List.length_take_le _ _⟩

/-! ## The classifier -/

/-- A corruption that says what the finding says. -/
structure Corruption.Reports (c : Corruption) (d : Detected) : Prop where
  location : c.location = d.location
  byteRange : c.byteRange = d.byteRange
  named : ∃ entry, rule (d.ruleIdOverride.getD d.kind.ruleId) = some entry ∧
    c.chain.primary.ruleId = entry.id ∧ c.category = entry.category ∧
    c.severity = entry.defaultSeverity

theorem half_le_confidenceOf_of_emitted (r : Rounding) (entry : ClassifierRule) {d : Detected}
    (hd : d.Emitted) : 1 / 2 ≤ confidenceOf r entry d := by
  cases hconf : d.confidence with
  | none => exact half_le_confidenceOf r entry hconf
  | some q =>
      have hq := hd.confident q hconf
      unfold confidenceOf
      rwa [hconf]

theorem classify_emitted (r : Rounding) (percent : ℚ → String) (id : ℕ) {d : Detected}
    (hd : d.Emitted) : ∃ c, classify r percent id d = .ok (some c) ∧ c.Reports d := by
  obtain ⟨entry, hentry, -⟩ := (Option.any_eq_true _ _).mp hd.standing
  have hemit : ¬ (ChainOfEvidence.single r (evidenceOf r entry d)).aggregateConfidence <
      MIN_EMIT_CONFIDENCE :=
    not_lt.mpr (half_le_single r (half_le_clampUnit (half_le_confidenceOf_of_emitted r entry hd)))
  refine ⟨Corruption.fromChain percent id d.location entry.category entry.defaultSeverity
    (ChainOfEvidence.single r (evidenceOf r entry d)) d.byteRange, ?_, rfl, rfl, entry, hentry,
    rfl, rfl, rfl⟩
  refine bind_eq_ok.mpr ⟨entry, ?_, congrArg Except.ok (if_neg hemit)⟩
  rw [hentry]
  rfl

theorem Corruption.Reports.standing {c : Corruption} {d : Detected} (h : c.Reports d)
    (hd : d.Emitted) :
    c.category ≠ .bitFlip ∧ c.category ≠ .blockReorder ∧ c.severity ≠ .benign := by
  obtain ⟨entry, hentry, -, hcategory, hseverity⟩ := h.named
  have hstanding := hd.standing
  rw [Standing, hentry] at hstanding
  rw [hcategory, hseverity]
  exact of_decide_eq_true hstanding

/-- One corruption for each finding, in order. -/
theorem classifyAll_emitted (r : Rounding) (percent : ℚ → String) (newV4 : ℕ → ℕ)
    {found : List Detected} (hfound : AllEmitted found) (n : ℕ) :
    ∃ cs, Reference.classifyAll r percent newV4 n found = .ok cs ∧
      List.Forall₂ Corruption.Reports cs found := by
  induction found generalizing n with
  | nil => exact ⟨[], rfl, .nil⟩
  | cons d rest ih =>
      obtain ⟨c, hc, hreports⟩ := classify_emitted r percent (newV4 n) (hfound d List.mem_cons_self)
      obtain ⟨cs, hcs, hall⟩ := ih (fun d' hd' ↦ hfound d' (List.mem_cons_of_mem d hd')) (n + 1)
      refine ⟨c :: cs, ?_, .cons hreports hall⟩
      rw [Reference.classifyAll, hc, hcs]
      rfl

end VeraqisRecover.Analyze
