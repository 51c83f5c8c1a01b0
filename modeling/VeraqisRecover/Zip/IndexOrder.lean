import VeraqisRecover.Zip.IndexLookup

/-!
# What the header index answers

The forward pass never returns to a position it has left, so the records stand
in physical order and no two share an offset.  With the tables agreeing with the
records, both lookups are then exact.
-/

namespace VeraqisRecover.Zip

open ByteString

namespace LocalHeaderIndex

/-- The records found before position `i`, each at a signature and with its name inside the
source. -/
structure ScannedBefore (data : Bytes) (i : ℕ) (idx : LocalHeaderIndex) : Prop where
  ordered : idx.records.Pairwise (·.offset < ·.offset)
  before : ∀ r ∈ idx.records, r.offset < i
  signed : ∀ r ∈ idx.records, u32le data r.offset = some lfhSig
  inside : ∀ r ∈ idx.records, r.nameStart + r.nameLen ≤ data.length

variable {data : Bytes} {idx : LocalHeaderIndex} {policy : ZipRecoveryPolicy} {i : ℕ}

theorem empty_scannedBefore : ScannedBefore data 0 empty :=
  ⟨List.Pairwise.nil, by simp [empty], by simp [empty], by simp [empty]⟩

theorem ScannedBefore.mono (h : ScannedBefore data i idx) {j : ℕ} (hij : i ≤ j) :
    ScannedBefore data j idx :=
  ⟨h.ordered, fun r hr ↦ (h.before r hr).trans_le hij, h.signed, h.inside⟩

theorem plausibleHeader_inside {name : Bytes} {r : LocalHeaderRecord}
    (h : plausibleHeader data policy i = some (name, r)) :
    r.nameStart + r.nameLen ≤ data.length := by
  obtain ⟨hraw, -⟩ := plausibleHeader_rawName h
  obtain ⟨_, hend, hslice⟩ := Option.bind_eq_some_iff.mp hraw
  obtain ⟨-, rfl⟩ := checkedAdd_eq_some.mp hend
  exact (slice?_eq_some.mp hslice).1.2

/-- A header recorded at the cursor comes after all the others. -/
theorem ScannedBefore.push (h : ScannedBefore data i idx) {name : Bytes} {r : LocalHeaderRecord}
    (hsig : u32le data i = some lfhSig) (hp : plausibleHeader data policy i = some (name, r)) :
    ScannedBefore data (i + 1) (idx.push name r) := by
  obtain ⟨-, rfl⟩ := plausibleHeader_rawName hp
  have hall : ∀ P : LocalHeaderRecord → Prop, (∀ x ∈ idx.records, P x) → P r →
      ∀ x ∈ (idx.push name r).records, P x := by
    intro P hold hnew x hx
    rcases List.mem_append.mp hx with hx | hx
    · exact hold x hx
    · rw [List.mem_singleton.mp hx]
      exact hnew
  refine ⟨?_, ?_, ?_, ?_⟩
  · apply List.pairwise_append.mpr
    refine ⟨h.ordered, List.pairwise_singleton _ _, fun x hx y hy ↦ ?_⟩
    rw [List.mem_singleton.mp hy]
    exact h.before x hx
  · exact hall _ (fun x hx ↦ Nat.lt_succ_of_lt (h.before x hx)) (Nat.lt_succ_self _)
  · exact hall _ h.signed hsig
  · exact hall _ h.inside (plausibleHeader_inside hp)

theorem buildFrom_scannedBefore {horizon reads : ℕ} (h : ScannedBefore data i idx) :
    ∃ j, ScannedBefore data j (buildFrom data policy horizon i reads idx).1 := by
  fun_induction buildFrom data policy horizon i reads idx with
  | case1 i reads idx _ _ ih => exact ih (h.mono (Nat.le_succ i))
  | case2 => exact ⟨_, h⟩
  | case3 i reads idx _ _ _ _ ih => exact ih (h.mono (Nat.le_succ i))
  | case4 i reads idx _ hsig _ name r hp ih =>
      apply ih
      refine (h.push (not_not.mp hsig) hp).mono ?_
      split <;> omega
  | case5 => exact ⟨_, h⟩

theorem build_scannedBefore (data : Bytes) (policy : ZipRecoveryPolicy) :
    ∃ j, ScannedBefore data j (build data policy) := by
  have hempty : ScannedBefore data 0 empty := empty_scannedBefore
  obtain ⟨j, h₁, h₂, h₃, h₄⟩ :=
    @buildFrom_scannedBefore data empty policy 0 (min data.length policy.maxScanBytes) 0 hempty
  exact ⟨j, h₁, h₂, h₃, h₄⟩

/-- No two records of a build share an offset. -/
theorem ScannedBefore.eq_of_offset_eq (h : ScannedBefore data i idx) {r r' : LocalHeaderRecord}
    (hr : r ∈ idx.records) (hr' : r' ∈ idx.records) (heq : r.offset = r'.offset) : r = r' := by
  have hnodup : (idx.records.map (·.offset)).Nodup :=
    (List.pairwise_map.mpr h.ordered).imp fun hlt ↦ Nat.ne_of_lt hlt
  exact List.inj_on_of_nodup_map hnodup hr hr' heq

/-- A lookup by offset finds exactly the record indexed there. -/
theorem atOffset_eq_some_iff (hw : WellIndexed data idx) (hs : ScannedBefore data i idx) {o : ℕ}
    {r : LocalHeaderRecord} : idx.atOffset o = some r ↔ r ∈ idx.records ∧ r.offset = o := by
  constructor
  · exact atOffset_some hw
  · rintro ⟨hr, rfl⟩
    obtain ⟨r', hr'⟩ := atOffset_of_mem hw hr
    obtain ⟨hmem, hoff⟩ := atOffset_some hw hr'
    rw [hr', hs.eq_of_offset_eq hmem hr hoff]

/-- Both lookups of a freshly built index are exact, whatever the names hash to: by name, the
records whose raw bytes equal the name, in physical order; by offset, the record indexed there,
which stands at a signature and has its name inside the source.  A lookup by name leaves the
tables as they are. -/
theorem build_lookups_exact (data : Bytes) (policy : ZipRecoveryPolicy) (name : Bytes) (o : ℕ) :
    ((build data policy).candidatesNamed data name).1 =
        (build data policy).records.filter (fun r ↦ r.rawName data = some name) ∧
      ((build data policy).candidatesNamed data name).1.Pairwise (·.offset < ·.offset) ∧
      (build data policy).SameTables ((build data policy).candidatesNamed data name).2 ∧
      (∀ r, (build data policy).atOffset o = some r ↔
        r ∈ (build data policy).records ∧ r.offset = o) ∧
      ∀ r, (build data policy).atOffset o = some r →
        r.offset = o ∧ u32le data o = some lfhSig ∧ r.nameStart + r.nameLen ≤ data.length := by
  have hw := build_wellIndexed data policy
  obtain ⟨j, hs⟩ := build_scannedBefore data policy
  have hnamed := candidatesNamed_eq hw name
  refine ⟨hnamed, ?_, ⟨rfl, rfl, rfl⟩, fun r ↦ atOffset_eq_some_iff hw hs, fun r hr ↦ ?_⟩
  · rw [hnamed]
    exact hs.ordered.filter _
  · obtain ⟨hmem, rfl⟩ := (atOffset_eq_some_iff hw hs).mp hr
    exact ⟨rfl, hs.signed r hmem, hs.inside r hmem⟩

end LocalHeaderIndex

end VeraqisRecover.Zip
