import VeraqisRecover.Zip.IndexLookup
import VeraqisRecover.Zip.Layout

/-!
# Walks over headers in place

When local-header signatures stand nowhere but at a tiling list of headers, the
index holds exactly those headers in order, and the scan reports nothing that
does not start at one of them.  An EOCD whose record ends the file proves no
embedded archive.
-/

namespace VeraqisRecover.Zip

open ByteString LossyUtf8

variable {fl : Flate2}

/-- The index record of a header written for `q.1` at `q.2`. -/
def indexRecord (fl : Flate2) (q : Part × ℕ) : LocalHeaderRecord where
  offset := q.2
  nameStart := q.2 + 30
  nameLen := q.1.rawName.length
  method := q.1.method fl
  flags := 0
  crc32 := q.1.crc fl
  compSize := (q.1.payload fl).length
  uncompSize := q.1.data.length
  dataStart := q.2 + 30 + q.1.rawName.length

/-- Headers of named parts, at the offsets they are listed with. -/
def InPlace (fl : Flate2) (data : Bytes) (hs : List (Part × ℕ)) : Prop :=
  ∀ q ∈ hs, HeaderAt fl data q.2 q.1 ∧ 0 < q.1.rawName.length ∧ q.1.rawName.length ≤ 65535

/-- Each header's record ends before the next one begins. -/
def Tiling (fl : Flate2) (hs : List (Part × ℕ)) : Prop :=
  hs.Pairwise fun q q' ↦ q.2 + (localRecord fl q.1).length ≤ q'.2

namespace HeaderAt

variable {d : Bytes} {o : ℕ} {p : Part}

theorem plausibleHeader (h : HeaderAt fl d o p) (hd : d.length ≤ wordMax)
    (policy : ZipRecoveryPolicy) (hpos : 0 < p.rawName.length)
    (hname : p.rawName.length ≤ policy.maxNameBytes) :
    LocalHeaderIndex.plausibleHeader d policy o = some (p.rawName, indexRecord fl (p, o)) := by
  have hlen := h.length_le
  rw [length_localRecord] at hlen
  have hslice := h.name.slice?_of_le (by omega)
  simp only [LocalHeaderIndex.plausibleHeader, h.nameLen, h.extraLen, h.method, h.flags, h.crc,
    h.comp, h.uncomp, Option.getD_some, Option.bind_eq_bind]
  rw [if_neg (by omega), checkedAdd_of_le (by omega), Option.bind_some,
    checkedAdd_of_le (by omega), Option.bind_some, if_neg (by omega), hslice]
  rfl

/-- A header written for a part is named as the part and nothing else. -/
theorem rawName_of_named (h : HeaderAt fl d o p) {name : Bytes}
    (hn : headerNamedAt d o name = true) : p.rawName = name := by
  have hlen := h.length_le
  rw [length_localRecord] at hlen
  simp only [headerNamedAt, h.nameLen, Bool.and_eq_true, decide_eq_true_eq,
    Option.some.injEq] at hn
  obtain ⟨⟨-, hsame⟩, hslice⟩ := hn
  rw [← hsame, h.name.slice?_of_le (by omega), Option.some.injEq] at hslice
  exact hslice

end HeaderAt

/-- Past an indexed header the walk stands at the end of its record. -/
theorem indexRecord_next (q : Part × ℕ) (h : q.2 + (localRecord fl q.1).length ≤ wordMax) :
    (indexRecord fl q).next = q.2 + (localRecord fl q.1).length := by
  rw [length_localRecord] at h ⊢
  unfold LocalHeaderRecord.next indexRecord
  dsimp only
  split
  · rw [saturatingAdd_of_le (by omega)]
    omega
  · omega

namespace LocalHeaderIndex

/-- The forward pass over headers in place pushes each of them once, in order. -/
theorem buildFrom_records {data : Bytes} {policy : ZipRecoveryPolicy} {i reads : ℕ}
    {idx : LocalHeaderIndex} {hs : List (Part × ℕ)} (hd : data.length ≤ wordMax)
    (hplace : InPlace fl data hs) (htile : Tiling fl hs) (hle : ∀ q ∈ hs, i ≤ q.2)
    (hsig : ∀ p, i ≤ p → u32le data p = some lfhSig → ∃ q ∈ hs, q.2 = p)
    (hnames : 65535 ≤ policy.maxNameBytes)
    (hcap : idx.records.length + hs.length ≤ policy.maxCandidateRecords) :
    (buildFrom data policy data.length i reads idx).1.records =
      idx.records ++ hs.map (indexRecord fl) := by
  fun_induction buildFrom data policy data.length i reads idx generalizing hs with
  | case1 i reads idx _ hno ih =>
      refine ih hplace htile (fun q hq ↦ ?_) (fun p hp ↦ hsig p (by omega)) hcap
      have hi := hle q hq
      have hne : i ≠ q.2 := fun heq ↦ hno (heq ▸ (hplace q hq).1.sig)
      omega
  | case2 i reads idx _ hyes hfull =>
      obtain ⟨q, hq, -⟩ := hsig i (le_refl i) (not_not.mp hyes)
      have hpos := List.length_pos_of_mem hq
      omega
  | case3 i reads idx _ hyes _ hnone ih =>
      obtain ⟨q, hq, rfl⟩ := hsig i (le_refl i) (not_not.mp hyes)
      obtain ⟨hat, hpos, hlen⟩ := hplace q hq
      rw [hat.plausibleHeader hd policy hpos (by omega)] at hnone
      simp at hnone
  | case4 i reads idx _ hyes _ name r hsome ih =>
      obtain ⟨q, hq, rfl⟩ := hsig i (le_refl i) (not_not.mp hyes)
      -- the header at the cursor is the first of the list
      obtain ⟨q₀, rest, rfl⟩ := List.exists_cons_of_ne_nil (List.ne_nil_of_mem hq)
      obtain ⟨hfirst, hrest⟩ := List.pairwise_cons.mp htile
      have hq₀ : q = q₀ := by
        rcases List.mem_cons.mp hq with h | h
        · exact h
        · have hlt := hfirst q h
          have hge := hle q₀ List.mem_cons_self
          rw [length_localRecord] at hlt
          omega
      subst hq₀
      obtain ⟨hat, hpos, hlen⟩ := hplace q hq
      have hend := hat.length_le
      have hpl := hat.plausibleHeader hd policy hpos (by omega)
      rw [hsome, Option.some.injEq, Prod.mk.injEq] at hpl
      obtain ⟨rfl, rfl⟩ := hpl
      have hnext : (indexRecord fl (q.1, q.2)).next = q.2 + (localRecord fl q.1).length :=
        indexRecord_next q (by omega)
      have hgt : q.2 < q.2 + (localRecord fl q.1).length := by
        rw [length_localRecord]
        omega
      rw [hnext, dif_pos hgt] at ih
      rw [hnext, if_pos hgt]
      rw [ih (fun q' hq' ↦ hplace q' (List.mem_cons_of_mem q hq')) hrest hfirst ?_ ?_]
      · simp [LocalHeaderIndex.push]
      · intro p hp hpsig
        obtain ⟨q', hq', rfl⟩ := hsig p (by omega) hpsig
        rcases List.mem_cons.mp hq' with rfl | hq'
        · omega
        · exact ⟨q', hq', rfl⟩
      · rw [List.length_cons] at hcap
        simp only [LocalHeaderIndex.push, List.length_append, List.length_singleton]
        omega
  | case5 i reads idx hshort =>
      cases hs with
      | nil => simp
      | cons q rest =>
          have hend := (hplace q List.mem_cons_self).1.length_le
          have hi := hle q List.mem_cons_self
          rw [length_localRecord] at hend
          omega

/-- The index of a file whose headers are in place holds them, in order. -/
theorem build_records {data : Bytes} {policy : ZipRecoveryPolicy} {hs : List (Part × ℕ)}
    (hd : data.length ≤ wordMax) (hscan : data.length ≤ policy.maxScanBytes)
    (hplace : InPlace fl data hs) (htile : Tiling fl hs)
    (hsig : ∀ p, u32le data p = some lfhSig → ∃ q ∈ hs, q.2 = p)
    (hnames : 65535 ≤ policy.maxNameBytes) (hcap : hs.length ≤ policy.maxCandidateRecords) :
    (build data policy).records = hs.map (indexRecord fl) := by
  have h : (buildFrom data policy data.length 0 0 empty).1.records =
      empty.records ++ hs.map (indexRecord fl) :=
    buildFrom_records hd hplace htile (fun _ _ ↦ Nat.zero_le _) (fun p _ ↦ hsig p) hnames
      (by simpa [empty] using hcap)
  rw [build, min_eq_left hscan]
  simpa [empty] using h

end LocalHeaderIndex

/-! ## The scan -/

/-- Everything the scan reports is read off a signature it stands on. -/
theorem scanLocalFrom_sound {data : Bytes} {policy : ZipRecoveryPolicy} {horizon i : ℕ}
    {entries : List ZipEntry}
    (h : ∀ e ∈ entries, u32le data e.localHeaderOffset = some lfhSig ∧
      e = (scannedHeaderAt data e.localHeaderOffset).1) :
    ∀ e ∈ (scanLocalFrom data policy horizon i entries).1,
      u32le data e.localHeaderOffset = some lfhSig ∧
        e = (scannedHeaderAt data e.localHeaderOffset).1 := by
  fun_induction scanLocalFrom data policy horizon i entries with
  | case1 => exact h
  | case2 i entries _ _ _ ih => exact ih h
  | case3 i entries _ _ hsig e next hscan ih =>
      refine ih fun e' he' ↦ ?_
      rcases List.mem_append.mp he' with he' | he'
      · exact h e' he'
      · obtain rfl := List.mem_singleton.mp he'
        have hfst : e' = (scannedHeaderAt data i).1 := (congrArg Prod.fst hscan).symm
        have hoff : e'.localHeaderOffset = i := by rw [hfst]; rfl
        rw [hoff]
        exact ⟨not_not.mp hsig, hfst⟩
  | case4 => exact h

theorem scanLocalHeadersBounded_sound {data : Bytes} {policy : ZipRecoveryPolicy} :
    ∀ e ∈ (scanLocalHeadersBounded data policy).1,
      u32le data e.localHeaderOffset = some lfhSig ∧
        e = (scannedHeaderAt data e.localHeaderOffset).1 :=
  scanLocalFrom_sound (by simp)

/-- A scanned header written for a part carries the part's name. -/
theorem HeaderAt.scanned_name {d : Bytes} {o : ℕ} {p : Part} (h : HeaderAt fl d o p) :
    (scannedHeaderAt d o).1.name = p.name := by
  have hlen := h.length_le
  rw [length_localRecord] at hlen
  have hslice := h.name.slice?_of_le (by omega)
  simp only [scannedHeaderAt, h.nameLen, Option.getD_some, hslice, Option.map_some]
  exact fromUtf8Lossy_asBytes p.name

/-! ## Container detection -/

theorem detectFrom_of_none {data : Bytes} {policy : ZipRecoveryPolicy} {horizon p : ℕ}
    {archives : List EmbeddedArchive}
    (h : ∀ q, u32le data q = some eocdSig → validateEmbedded data q policy = none) :
    detectFrom data policy horizon p archives = archives := by
  fun_induction detectFrom data policy horizon p archives with
  | case1 p archives _ _ ih => exact ih
  | case2 => rfl
  | case3 p archives _ hsig _ a hval ih =>
      rw [h p (not_not.mp hsig)] at hval
      simp at hval
  | case4 p archives _ _ _ _ ih => exact ih
  | case5 => rfl

/-- No embedded archive is proven where every EOCD candidate fails. -/
theorem detect_eq_empty {data : Bytes} {policy : ZipRecoveryPolicy}
    (h : ∀ q, u32le data q = some eocdSig → validateEmbedded data q policy = none) :
    ContainerOwnershipMap.detect data policy = ⟨[]⟩ := by
  unfold ContainerOwnershipMap.detect
  split
  · rfl
  · simp [detectFrom_of_none h]

/-- An EOCD record that ends the file belongs to the file itself. -/
theorem validateEmbedded_at_end {data : Bytes} {policy : ZipRecoveryPolicy} {eocd : ℕ}
    (h : data.length ≤ eocd + eocdLen) : validateEmbedded data eocd policy = none := by
  by_contra hne
  obtain ⟨a, ha⟩ := Option.ne_none_iff_exists'.mp hne
  simp only [validateEmbedded, Option.bind_eq_bind, Option.bind_eq_some_iff,
    Option.ite_none_left_eq_some, checkedAdd_eq_some] at ha
  obtain ⟨_, -, _, -, _, -, commentLen, -, -, -, _, -, -, _, -, -, _, -, -, _, ⟨-, rfl⟩, _,
    ⟨-, rfl⟩, hstop, -⟩ := ha
  omega

@[simp] theorem ownerOf_empty (o : ℕ) : (ContainerOwnershipMap.mk []).ownerOf o = none := rfl

end VeraqisRecover.Zip
