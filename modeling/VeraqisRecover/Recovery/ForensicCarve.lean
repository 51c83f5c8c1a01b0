import VeraqisRecover.Recovery.Engine
import VeraqisRecover.Support.StableSort

/-!
# Forensic carving

The last resort cuts a stream at every known file signature
(`strategies/forensic_carve.rs`) and stages the pieces one after another.  Put
together again they are a suffix of the source, whatever was found in between:
the stage drops what stands before the first signature and nothing else.
-/

namespace VeraqisRecover.Recovery

open ByteString StableSort

namespace ForensicCarving

structure Signature where
  label : String
  magic : Bytes
  deriving DecidableEq, Repr

def SIGNATURES : List Signature := [
  ⟨"zip", [0x50, 0x4B, 0x03, 0x04]⟩,
  ⟨"png", [0x89, 0x50, 0x4E, 0x47, 0x0D, 0x0A, 0x1A, 0x0A]⟩,
  ⟨"jpg", [0xFF, 0xD8, 0xFF]⟩,
  ⟨"pdf", [0x25, 0x50, 0x44, 0x46, 0x2D]⟩,
  ⟨"gzip", [0x1F, 0x8B]⟩,
  ⟨"elf", [0x7F, 0x45, 0x4C, 0x46]⟩]

/-- The signatures that start at an offset. -/
def signaturesAt (data : Bytes) (i : ℕ) : List Signature :=
  SIGNATURES.filter fun sig ↦ sig.magic.isPrefixOf (data.drop i)

/-- Scan for known file signatures, returning `(offset, label)` in offset order. -/
def scanSignatures (data : Bytes) : List (ℕ × String) :=
  sortByKey Prod.fst ((List.range data.length).flatMap fun i ↦
    (signaturesAt data i).map fun sig ↦ (i, sig.label))

/-- The bytes from each hit to the next one, or to the end. -/
def regions (data : Bytes) : List (ℕ × String) → List Bytes
  | [] => []
  | hit :: rest =>
      (data.take ((rest.head?.map Prod.fst).getD data.length)).drop hit.1 :: regions data rest

/-- `{i:04}` -/
def index4 (i : ℕ) : String :=
  String.ofList (List.replicate (4 - (toString i).length) '0') ++ toString i

def name : String := "forensic-carve"

def canApply (result : AnalysisResult) : Bool :=
  (result.archiveFormat = some .raw || result.archiveFormat = none) &&
    (result.corruptions.any (·.severity = .catastrophic) || result.corruptions.isEmpty)

def apply (source : Bytes) : Except RecoveryError (Bytes × RecoveryReport) :=
  let report := { RecoveryReport.empty "" with strategiesApplied := [name] }
  let hits := scanSignatures source
  if hits = [] then
    .ok ([], { report with warnings := ["no known file signatures found to carve"] })
  else
    let carved := ((regions source hits).map List.length).sum
    .ok ((regions source hits).flatten, { report with
      bytesRecovered := carved
      bytesLost := source.length - carved
      success := 0 < carved
      filesRecovered := hits.zipIdx.map fun hit ↦ s!"carved-{index4 hit.2}.{hit.1.2}"
      warnings := [s!"carved {hits.length} region(s) by signature"] })

end ForensicCarving

/-- Carve a stream at the file signatures in it. -/
def forensicCarving : RecoveryStrategy where
  name := ForensicCarving.name
  technique := "ForensicCarve"
  risk := .lossy
  priority := 10
  canApply := ForensicCarving.canApply
  apply := ForensicCarving.apply

theorem forensicCarving_reportsItself : forensicCarving.ReportsItself := by
  intro source staged report hrun
  simp only [forensicCarving, ForensicCarving.apply] at hrun
  split at hrun
  · obtain ⟨-, rfl⟩ := Prod.mk.inj (Except.ok.inj hrun)
    exact ⟨rfl, rfl⟩
  · obtain ⟨-, rfl⟩ := Prod.mk.inj (Except.ok.inj hrun)
    exact ⟨rfl, rfl⟩

namespace ForensicCarving

/-! ## Hits -/

/-- A known file signature starts at the offset. -/
def SignatureAt (data : Bytes) (i : ℕ) : Prop :=
  ∃ sig ∈ SIGNATURES, sig.magic <+: data.drop i

instance (data : Bytes) (i : ℕ) : Decidable (SignatureAt data i) :=
  inferInstanceAs (Decidable (∃ sig ∈ SIGNATURES, sig.magic <+: data.drop i))

theorem mem_signaturesAt {data : Bytes} {i : ℕ} {sig : Signature} :
    sig ∈ signaturesAt data i ↔ sig ∈ SIGNATURES ∧ sig.magic <+: data.drop i := by
  rw [signaturesAt, List.mem_filter, List.isPrefixOf_iff_prefix]

/-- No two signatures begin with the same byte. -/
theorem signatures_apart : SIGNATURES.Pairwise fun a b ↦ a.magic.head? ≠ b.magic.head? := by
  decide

theorem magic_ne_nil : ∀ sig ∈ SIGNATURES, sig.magic ≠ [] := by decide

theorem head?_of_prefix {p l : Bytes} (h : p <+: l) (hp : p ≠ []) : p.head? = l.head? := by
  obtain ⟨t, rfl⟩ := h
  rw [List.head?_append_of_ne_nil p hp]

/-- At most one signature starts at an offset. -/
theorem signaturesAt_length_le (data : Bytes) (i : ℕ) : (signaturesAt data i).length ≤ 1 := by
  have hapart := signatures_apart.filter fun sig ↦ sig.magic.isPrefixOf (data.drop i)
  have hmem : ∀ sig ∈ signaturesAt data i, sig.magic.head? = (data.drop i).head? := by
    intro sig hsig
    obtain ⟨hknown, hprefix⟩ := mem_signaturesAt.mp hsig
    exact head?_of_prefix hprefix (magic_ne_nil sig hknown)
  change (signaturesAt data i).Pairwise _ at hapart
  match hl : signaturesAt data i with
  | [] => exact Nat.zero_le _
  | [_] => exact le_rfl
  | a :: b :: rest =>
      rw [hl] at hapart hmem
      have hab := List.rel_of_pairwise_cons hapart List.mem_cons_self
      exact absurd ((hmem a (by simp)).trans (hmem b (by simp)).symm) hab

theorem lt_of_signatureAt {data : Bytes} {i : ℕ} (h : SignatureAt data i) : i < data.length := by
  obtain ⟨sig, hsig, hprefix⟩ := h
  by_contra hi
  rw [List.drop_eq_nil_of_le (not_lt.mp hi), List.prefix_nil] at hprefix
  exact magic_ne_nil sig hsig hprefix

/-- The offsets at which a signature starts. -/
def starts (data : Bytes) : List ℕ := (List.range data.length).filter (SignatureAt data ·)

theorem mem_starts {data : Bytes} {i : ℕ} : i ∈ starts data ↔ SignatureAt data i := by
  rw [starts, List.mem_filter, List.mem_range, decide_eq_true_iff]
  exact ⟨And.right, fun h ↦ ⟨lt_of_signatureAt h, h⟩⟩

theorem starts_sorted (data : Bytes) : (starts data).Pairwise (· < ·) :=
  List.pairwise_lt_range.filter _

/-- An offset is listed once if a signature starts there, and not at all otherwise. -/
theorem map_fst_signaturesAt (data : Bytes) (i : ℕ) :
    ((signaturesAt data i).map fun sig ↦ (i, sig.label)).map Prod.fst =
      if SignatureAt data i then [i] else [] := by
  have hle := signaturesAt_length_le data i
  cases hl : signaturesAt data i with
  | nil =>
      rw [if_neg]
      · rfl
      rintro ⟨sig, hsig⟩
      simpa [hl] using mem_signaturesAt.mpr hsig
  | cons sig rest =>
      have hsig : sig ∈ signaturesAt data i := by simp [hl]
      rw [hl, List.length_cons] at hle
      obtain rfl : rest = [] := List.length_eq_zero_iff.mp (by omega)
      rw [if_pos ⟨sig, mem_signaturesAt.mp hsig⟩]
      rfl

theorem map_fst_scanSignatures (data : Bytes) :
    (scanSignatures data).map Prod.fst = starts data := by
  have hunsorted : ∀ l : List ℕ, (l.flatMap fun i ↦
      (signaturesAt data i).map fun sig ↦ (i, sig.label)).map Prod.fst =
        l.filter (SignatureAt data ·) := by
    intro l
    induction l with
    | nil => rfl
    | cons i l ih =>
        rw [List.flatMap_cons, List.map_append, map_fst_signaturesAt, ih, List.filter_cons]
        by_cases h : SignatureAt data i
        · simp [h]
        · simp [h]
  have hsorted := (starts_sorted data).imp (S := (· ≤ ·)) fun h ↦ le_of_lt h
  rw [starts, ← hunsorted, List.pairwise_map] at hsorted
  rw [scanSignatures, sortByKey_of_pairwise hsorted, hunsorted, starts]

/-! ## Regions -/

/-- Cut at sorted offsets, a stream falls into pieces that are a suffix of it. -/
theorem flatten_regions {data : Bytes} {hits : List (ℕ × String)}
    (hsorted : (hits.map Prod.fst).Pairwise (· < ·))
    (hin : ∀ i ∈ hits.map Prod.fst, i ≤ data.length) :
    (regions data hits).flatten =
      data.drop (((hits.map Prod.fst).head?).getD data.length) := by
  induction hits with
  | nil => exact (List.drop_length).symm
  | cons hit rest ih =>
      rw [List.map_cons] at hsorted hin
      obtain ⟨hfirst, hrest⟩ := List.pairwise_cons.mp hsorted
      have ih := ih hrest fun i hi ↦ hin i (List.mem_cons_of_mem _ hi)
      rw [regions, List.flatten_cons, ih, List.map_cons, List.head?_cons, Option.getD_some,
        ← List.head?_map]
      have hnext : hit.1 ≤ ((rest.map Prod.fst).head?).getD data.length := by
        cases hr : rest.map Prod.fst with
        | nil => exact hin hit.1 List.mem_cons_self
        | cons j _ => exact (hfirst j (by simp [hr])).le
      rw [List.drop_take]
      calc _ = (data.drop hit.1).take _ ++ (data.drop hit.1).drop
            (((rest.map Prod.fst).head?).getD data.length - hit.1) := by
            rw [List.drop_drop, Nat.add_sub_cancel' hnext]
        _ = data.drop hit.1 := List.take_append_drop _ _

/-- What a carving makes of a source whose first signature starts at `first`. -/
structure Carves (source : Bytes) (first : ℕ) (staged : Bytes) (report : RecoveryReport) :
    Prop where
  signature : SignatureAt source first
  least : ∀ i < first, ¬ SignatureAt source i
  staged : staged = source.drop first
  accounted : report.bytesLost = first ∧ report.bytesRecovered + report.bytesLost = source.length
  files : report.filesRecovered.length = (starts source).length
  success : report.success = true

theorem carves_of_head {source : Bytes} {first : ℕ} (h : (starts source).head? = some first) :
    ∃ staged report, apply source = .ok (staged, report) ∧ Carves source first staged report := by
  have hne : scanSignatures source ≠ [] := by
    intro hnil
    rw [← map_fst_scanSignatures, hnil] at h
    cases h
  have hin : ∀ i ∈ (scanSignatures source).map Prod.fst, i ≤ source.length := by
    rw [map_fst_scanSignatures]
    exact fun i hi ↦ (lt_of_signatureAt (mem_starts.mp hi)).le
  have hflat := flatten_regions (map_fst_scanSignatures source ▸ starts_sorted source) hin
  rw [map_fst_scanSignatures, h, Option.getD_some] at hflat
  have hfirst : SignatureAt source first := mem_starts.mp (List.mem_of_mem_head? h)
  have hlt := lt_of_signatureAt hfirst
  have hsum : ((regions source (scanSignatures source)).map List.length).sum =
      source.length - first := by
    rw [← List.length_flatten, hflat, List.length_drop]
  refine ⟨_, _, if_neg hne, hfirst, ?_, hflat, ?_, ?_, ?_⟩
  · intro i hi hsig
    obtain ⟨rest, hstarts⟩ := List.head?_eq_some_iff.mp h
    have hmem := mem_starts.mpr hsig
    have hsorted := starts_sorted source
    rw [hstarts] at hmem hsorted
    rcases List.mem_cons.mp hmem with rfl | hmem
    · exact lt_irrefl i hi
    · exact lt_asymm hi (List.rel_of_pairwise_cons hsorted hmem)
  · dsimp only
    rw [hsum]
    omega
  · dsimp only
    rw [List.length_map, List.length_zipIdx, ← map_fst_scanSignatures, List.length_map]
  · dsimp only
    rw [hsum]
    exact decide_eq_true (by omega)

theorem signatureAt_drop {source : Bytes} {first i : ℕ} :
    SignatureAt (source.drop first) i ↔ SignatureAt source (first + i) := by
  unfold SignatureAt
  rw [List.drop_drop]

/-- A carving that stages anything stages the source from its first signature on and accounts for
every byte; carving its output again loses nothing. -/
theorem carving_accounts (source : Bytes) :
    (∃ report, apply source = .ok ([], report) ∧ report.success = false ∧
      ∀ i, ¬ SignatureAt source i) ∨
    ∃ first staged report, apply source = .ok (staged, report) ∧
      Carves source first staged report ∧
      ∃ again, apply staged = .ok (staged, again) ∧ again.bytesLost = 0 := by
  cases h : (starts source).head? with
  | none =>
      have hnone : starts source = [] := List.head?_eq_none_iff.mp h
      refine .inl ⟨_, if_pos ?_, rfl, fun i hi ↦ ?_⟩
      · rw [← List.map_eq_nil_iff (f := Prod.fst), map_fst_scanSignatures, hnone]
      · simpa [hnone] using mem_starts.mpr hi
  | some first =>
      obtain ⟨staged, report, happly, hcarves⟩ := carves_of_head h
      refine .inr ⟨first, staged, report, happly, hcarves, ?_⟩
      have hzero : SignatureAt staged 0 := by
        rw [hcarves.staged, signatureAt_drop, Nat.add_zero]
        exact hcarves.signature
      have hhead : (starts staged).head? = some 0 := by
        have hmem := mem_starts.mpr hzero
        cases hs : starts staged with
        | nil => simp [hs] at hmem
        | cons j rest =>
            have hsorted := starts_sorted staged
            rw [hs] at hmem hsorted
            rcases List.mem_cons.mp hmem with rfl | hmem
            · rfl
            · exact absurd (List.rel_of_pairwise_cons hsorted hmem) (Nat.not_lt_zero j)
      obtain ⟨staged', again, hagain, hcarves'⟩ := carves_of_head hhead
      obtain rfl : staged' = staged := hcarves'.staged.trans List.drop_zero
      exact ⟨again, hagain, hcarves'.accounted.1⟩

end ForensicCarving

end VeraqisRecover.Recovery
