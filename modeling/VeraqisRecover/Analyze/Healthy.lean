import VeraqisRecover.Analyze.Detector

/-!
# Files reported as healthy

A file is healthy for the detector when no run over it, with checksums on and
without a manifest, ends in a finding.
-/

namespace VeraqisRecover.Analyze

open ByteString Checked

/-- Whatever the cap, nothing is found. -/
def ReportsNoDefect (inflate : Bytes → Bytes × Bool) (s : DataSource) (format : ArchiveFormat) :
    Prop :=
  ∀ wal integrity max, integrity.manifestPresent = false →
    ∃ capped, detect inflate wal s format integrity true max = .ok ([], capped)

theorem manifestDefect_absent (s : DataSource) {integrity : IntegrityResult} (max : ℕ)
    (out : List Detected) (h : integrity.manifestPresent = false) :
    manifestDefect s integrity max out = .ok out := by
  refine if_neg fun hpresent ↦ ?_
  rw [h] at hpresent
  exact Bool.false_ne_true hpresent.2.1

/-- Without a manifest the findings are those of the format. -/
theorem reportsNoDefect_iff {inflate : Bytes → Bytes × Bool} {s : DataSource}
    {format : ArchiveFormat} : ReportsNoDefect inflate s format ↔
      ∀ wal max, ∃ out, formatDefects inflate wal s format true max = .ok out ∧
        out.take max = [] := by
  constructor
  · intro h wal max
    obtain ⟨capped, hrun⟩ := h wal ⟨false, none, [], false⟩ max rfl
    obtain ⟨out, hout, hrest⟩ := bind_eq_ok.mp hrun
    rw [manifestDefect_absent s max out rfl] at hrest
    exact ⟨out, hout, (Prod.mk.inj (Except.ok.inj hrest)).1⟩
  · intro h wal integrity max hmanifest
    obtain ⟨out, hout, hnone⟩ := h wal max
    refine ⟨decide (max ≤ out.length), ?_⟩
    rw [detect, hout]
    change (manifestDefect s integrity max out >>= _) = _
    rw [manifestDefect_absent s max out hmanifest, ← hnone]
    rfl

/-- A cap of one already shows whether anything is found. -/
theorem ReportsNoDefect.capped {inflate : Bytes → Bytes × Bool} {s : DataSource}
    {format : ArchiveFormat} (h : ReportsNoDefect inflate s format) (wal : Option (Option Bytes)) :
    formatDefects inflate wal s format true 1 = .ok [] := by
  obtain ⟨out, hout, hnone⟩ := reportsNoDefect_iff.mp h wal 1
  cases out with
  | nil => exact hout
  | cons d rest => cases hnone

theorem reportsNoDefect_of_nil {inflate : Bytes → Bytes × Bool} {s : DataSource}
    {format : ArchiveFormat}
    (h : ∀ wal max, formatDefects inflate wal s format true max = .ok []) :
    ReportsNoDefect inflate s format :=
  reportsNoDefect_iff.mpr fun wal max ↦ ⟨[], h wal max, List.take_nil⟩

/-! ## ZIP -/

/-- What a parse and the checks over it have to come to. -/
structure SoundZip (s : DataSource) (parse : ZipParse) : Prop where
  located : parse.eocdOffset.isSome
  directory : parse.cdPresent = true
  count : parse.declaredEntries = parse.entries.length
  localHeaders : parse.localHeadersOk = true
  members : ∀ m ∈ parse.entries.zip parse.methods, zipMemberDefect s m.1 m.2 = .ok none

theorem zipMemberDefects_of_none {s : DataSource} {ms : List (ArchiveEntry × ℕ)} (max : ℕ)
    (h : ∀ m ∈ ms, zipMemberDefect s m.1 m.2 = .ok none) :
    zipMemberDefects s max ms [] = .ok [] := by
  induction ms with
  | nil => rfl
  | cons m ms ih =>
      rw [zipMemberDefects, h m List.mem_cons_self]
      split
      · rfl
      · exact ih fun m' hm' ↦ h m' (List.mem_cons_of_mem m hm')

theorem none_of_zipMemberDefects {s : DataSource} {ms : List (ArchiveEntry × ℕ)}
    (h : zipMemberDefects s 1 ms [] = .ok []) :
    ∀ m ∈ ms, zipMemberDefect s m.1 m.2 = .ok none := by
  induction ms with
  | nil => exact fun m hm ↦ absurd hm List.not_mem_nil
  | cons m ms ih =>
      rw [zipMemberDefects, if_neg (by simp)] at h
      obtain ⟨d, hd, hrest⟩ := bind_eq_ok.mp h
      cases d with
      | none =>
          intro m' hm'
          rcases List.mem_cons.mp hm' with rfl | hm'
          · exact hd
          · exact ih hrest m' hm'
      | some d =>
          -- the cap is reached with the first finding
          cases ms with
          | nil => cases hrest
          | cons m' ms' => cases hrest

theorem zipDefects_of_sound {s : DataSource} {parse : ZipParse} (h : SoundZip s parse) (max : ℕ) :
    zipDefects s parse true [] max = .ok [] := by
  obtain ⟨eocd, heocd⟩ := Option.isSome_iff_exists.mp h.located
  have hdirectory : zipDirectoryDefect s parse eocd [] = .ok [] := if_pos h.directory
  have hcount : zipCountDefect parse eocd [] = .ok [] := if_neg fun hne ↦ hne.2 h.count
  have hlocal : zipLocalHeaderDefect s parse [] = .ok [] := if_pos h.localHeaders
  unfold zipDefects
  rw [heocd]
  dsimp only
  rw [hdirectory]
  change (zipCountDefect parse eocd [] >>= _) = _
  rw [hcount]
  change (zipLocalHeaderDefect s parse [] >>= _) = _
  rw [hlocal]
  exact zipMemberDefects_of_none max h.members

/-- A walk that pushes a finding does not end without one. -/
theorem ne_nil_of_push {a : Checked CorruptionLocation} {out r : List Detected}
    {finding : CorruptionLocation → Detected}
    (h : (a >>= fun l ↦ pure (out ++ [finding l])) = .ok r) : r ≠ [] := by
  obtain ⟨l, -, hr⟩ := bind_eq_ok.mp h
  obtain rfl := Except.ok.inj hr
  exact List.append_ne_nil_of_right_ne_nil _ (List.cons_ne_nil _ _)

theorem zipMemberDefects_extends {s : DataSource} {max : ℕ} {ms : List (ArchiveEntry × ℕ)}
    {out r : List Detected} (h : zipMemberDefects s max ms out = .ok r) : out <+: r := by
  induction ms generalizing out with
  | nil =>
      obtain rfl := Except.ok.inj h
      exact List.prefix_rfl
  | cons m ms ih =>
      rw [zipMemberDefects] at h
      split at h
      · obtain rfl := Except.ok.inj h
        exact List.prefix_rfl
      · obtain ⟨d, -, hrest⟩ := bind_eq_ok.mp h
        exact (List.prefix_append _ _).trans (ih hrest)

theorem zipLocalHeaderDefect_nil {s : DataSource} {parse : ZipParse} {out : List Detected}
    (h : zipLocalHeaderDefect s parse out = .ok []) : parse.localHeadersOk = true ∧ out = [] := by
  unfold zipLocalHeaderDefect at h
  split at h
  · exact ⟨‹_›, Except.ok.inj h⟩
  · obtain ⟨_, -, h⟩ := bind_eq_ok.mp h
    obtain ⟨_, -, h⟩ := bind_eq_ok.mp h
    exact absurd rfl (ne_nil_of_push h)

theorem zipCountDefect_nil {parse : ZipParse} {eocd : ℕ} {out : List Detected}
    (h : zipCountDefect parse eocd out = .ok []) :
    (parse.cdPresent = true → parse.declaredEntries = parse.entries.length) ∧ out = [] := by
  unfold zipCountDefect at h
  split at h
  · exact absurd rfl (ne_nil_of_push h)
  · rename_i hsame
    refine ⟨fun hpresent ↦ ?_, Except.ok.inj h⟩
    by_contra hne
    exact hsame ⟨hpresent, hne⟩

theorem zipDirectoryDefect_nil {s : DataSource} {parse : ZipParse} {eocd : ℕ}
    {out : List Detected} (h : zipDirectoryDefect s parse eocd out = .ok []) :
    parse.cdPresent = true := by
  unfold zipDirectoryDefect at h
  split at h
  · assumption
  · split at h
    · obtain ⟨_, -, h⟩ := bind_eq_ok.mp h
      obtain ⟨_, -, h⟩ := bind_eq_ok.mp h
      exact absurd rfl (ne_nil_of_push h)
    · obtain ⟨_, -, h⟩ := bind_eq_ok.mp h
      exact absurd rfl (ne_nil_of_push h)

theorem sound_of_zipDefects {s : DataSource} {parse : ZipParse}
    (h : zipDefects s parse true [] 1 = .ok []) : SoundZip s parse := by
  unfold zipDefects at h
  cases heocd : parse.eocdOffset with
  | none =>
      rw [heocd] at h
      exact absurd rfl (ne_nil_of_push h)
  | some eocd =>
      rw [heocd] at h
      obtain ⟨out₁, hdirectory, h⟩ := bind_eq_ok.mp h
      obtain ⟨out₂, hcount, h⟩ := bind_eq_ok.mp h
      obtain ⟨out₃, hlocal, hmembers⟩ := bind_eq_ok.mp h
      rw [if_pos rfl] at hmembers
      -- nothing is taken back, so every list on the way is empty
      obtain rfl := List.prefix_nil.mp (zipMemberDefects_extends hmembers)
      obtain ⟨hheaders, rfl⟩ := zipLocalHeaderDefect_nil hlocal
      obtain ⟨hsame, rfl⟩ := zipCountDefect_nil hcount
      have hpresent := zipDirectoryDefect_nil hdirectory
      exact ⟨by rw [heocd]; rfl, hpresent, hsame hpresent, hheaders,
        none_of_zipMemberDefects hmembers⟩

/-- A ZIP file is reported healthy just when its parse and its members are sound. -/
theorem reportsNoDefect_zip_iff {inflate : Bytes → Bytes × Bool} {s : DataSource}
    {parse : ZipParse} (hparse : ZipReader.parse s = .ok parse) :
    ReportsNoDefect inflate s .zip ↔ SoundZip s parse := by
  have hformat : ∀ wal max, formatDefects inflate wal s .zip true max =
      zipDefects s parse true [] max := by
    intro wal max
    change (ZipReader.parse s >>= _) = _
    rw [hparse]
    rfl
  constructor
  · intro h
    exact sound_of_zipDefects ((hformat none 1).symm.trans (h.capped none))
  · intro h
    exact reportsNoDefect_of_nil fun wal max ↦ (hformat wal max).trans (zipDefects_of_sound h max)

end VeraqisRecover.Analyze
