import VeraqisRecover.Zip.Admission
import VeraqisRecover.Zip.Order

/-!
# Merging a merged list again

The merged list is merged with the same scan a second time.  Claims made for a
directory record that an embedded archive owns are on the books of the first
run only, since the record itself is withheld.  A header whose payload runs
past the end of the file claims the rest of the file in the first run, and no
more than a record without a readable payload in the second.
-/

namespace VeraqisRecover.Zip

open ByteString Interval

/-! ## Declared offsets -/

theorem declaredOffsets_pairwise (central : List ZipEntry) :
    (declaredOffsets central).Pairwise (· ≤ ·) :=
  (List.pairwise_insertionSort (· ≤ ·) _).sublist (List.destutter_sublist _ _)

theorem mem_declaredOffsets {central : List ZipEntry} {o : ℕ} :
    o ∈ declaredOffsets central ↔ o ≠ offsetMax ∧ ∃ d ∈ central, d.localHeaderOffset = o := by
  have hsorted := List.pairwise_insertionSort (· ≤ ·)
    ((central.map (·.localHeaderOffset)).filter (· ≠ offsetMax))
  rw [declaredOffsets, hsorted.destutter_eq_dedup, List.mem_dedup, List.mem_insertionSort,
    List.mem_filter, List.mem_map]
  simp only [decide_eq_true_eq]
  exact and_comm

/-- The next declared offset is the least one beyond. -/
theorem find?_declaredOffsets {central : List ZipEntry} {start o : ℕ}
    (h : (declaredOffsets central).find? (start < ·) = some o) :
    o ∈ declaredOffsets central ∧ start < o ∧
      ∀ p ∈ declaredOffsets central, start < p → o ≤ p := by
  obtain ⟨hlt, before, after, hsplit, hbefore⟩ := List.find?_eq_some_iff_append.mp h
  have hsorted := declaredOffsets_pairwise central
  rw [hsplit] at hsorted
  refine ⟨by simp [hsplit], by simpa using hlt, fun p hp hstart ↦ ?_⟩
  rw [hsplit, List.mem_append, List.mem_cons] at hp
  rcases hp with hp | rfl | hp
  · have hstop := hbefore p hp
    simp [hstart] at hstop
  · exact le_rfl
  · exact List.rel_of_pairwise_cons (List.pairwise_append.mp hsorted).2.1 hp

theorem head?_declaredOffsets {central : List ZipEntry} {o : ℕ}
    (h : (declaredOffsets central).head? = some o) :
    o ∈ declaredOffsets central ∧ ∀ p ∈ declaredOffsets central, o ≤ p := by
  obtain ⟨rest, hrest⟩ := List.head?_eq_some_iff.mp h
  have hsorted := declaredOffsets_pairwise central
  rw [hrest] at hsorted
  refine ⟨by simp [hrest], fun p hp ↦ ?_⟩
  rw [hrest] at hp
  rcases List.mem_cons.mp hp with rfl | hp
  · exact le_rfl
  · exact List.rel_of_pairwise_cons hsorted hp

/-- Where the region of an unreadable record that begins at `start` ends. -/
def regionStop (central : List ZipEntry) (horizon start : ℕ) : ℕ :=
  ((declaredOffsets central).find? (start < ·)).getD horizon

theorem declaredRegion_eq_some {data : Bytes} {central : List ZipEntry} {horizon : ℕ}
    {d : ZipEntry} {q : ℕ × ℕ} :
    declaredRegion data (declaredOffsets central) horizon d = some q ↔
      d.localHeaderOffset ≠ offsetMax ∧ payloadRange data d = none ∧
        d.localHeaderOffset < regionStop central horizon d.localHeaderOffset ∧
        q = (d.localHeaderOffset, regionStop central horizon d.localHeaderOffset) := by
  rw [declaredRegion, Option.ite_none_left_eq_some, not_or, Option.not_isSome_iff_eq_none]
  dsimp only
  rw [Option.ite_none_right_eq_some, Option.some.injEq, and_assoc]
  exact and_congr Iff.rfl (and_congr Iff.rfl (and_congr Iff.rfl eq_comm))

/-- What is claimed, and on whose behalf. -/
theorem mem_claimedRanges {data : Bytes} {central : List ZipEntry} {horizon : ℕ} {q : ℕ × ℕ} :
    q ∈ claimedRanges data central horizon ↔
      (∃ d ∈ central, payloadRange data d = some q) ∨
        (∃ d ∈ central, declaredRegion data (declaredOffsets central) horizon d = some q) ∨
        (∃ d ∈ central, d.localHeaderOffset = offsetMax) ∧
          ∃ first, (declaredOffsets central).head? = some first ∧ 0 < first ∧ q = (0, first) := by
  rw [claimedRanges, List.mem_append, List.mem_append, List.mem_filterMap, List.mem_filterMap,
    or_assoc]
  refine or_congr Iff.rfl (or_congr Iff.rfl ?_)
  simp only [List.any_eq_true, decide_eq_true_eq]
  split
  · rename_i hany
    cases hfirst : (declaredOffsets central).head? with
    | none => simp
    | some first =>
        by_cases hpos : 0 < first
        · simp [hany, hpos]
        · simp [hpos]
  · rename_i hany
    simp [hany]

namespace ReconcileState

variable {data : Bytes} {containers : ContainerOwnershipMap} {policy : ZipRecoveryPolicy}
  {s t : ReconcileState}

theorem Refuses.congr {cand : ZipEntry} (hoff : t.byOffset = s.byOffset)
    (hclaimed : t.claimed = s.claimed) (h : Refuses data containers t cand) :
    Refuses data containers s cand :=
  fun r hr ↦ h r (hr.of_grown (fun _ ho ↦ hoff ▸ ho) fun _ hq ↦ hclaimed ▸ hq)

/-- A run adds nothing exactly when the cap is reached at its start or every candidate is refused
there. -/
theorem Run.added_eq_nil_iff {scanned added : List ZipEntry}
    (h : Run data containers policy s scanned added
      (considerAll data containers policy s scanned)) :
    added = [] ↔ policy.maxCandidateRecords ≤ s.entries.length ∨
      ∀ cand ∈ scanned, Refuses data containers s cand := by
  constructor
  · rintro rfl
    rcases h.settled with hcap | hsettled
    · exact .inl (by simpa [h.entries] using hcap)
    · exact .inr fun cand hc ↦ (hsettled cand hc).congr (by simp [h.byOffset]) (by simp [h.claimed])
  · rintro (hcap | hrefused)
    · have hentries := h.entries
      cases scanned with
      | nil => exact List.sublist_nil.mp h.sublist
      | cons cand rest =>
          rw [considerAll, if_pos hcap] at hentries
          exact List.self_eq_append_right.mp hentries
    · refine List.eq_nil_iff_forall_not_mem.mpr fun a ha ↦ ?_
      obtain ⟨r, hr⟩ := h.admitted a ha
      exact hrefused a (h.sublist.subset ha) r hr

end ReconcileState

/-- The arguments of one merge. -/
structure MergeInput where
  data : Bytes
  central : List ZipEntry
  scanned : List ZipEntry
  cdRegionStart : Option ℕ
  containers : ContainerOwnershipMap
  policy : ZipRecoveryPolicy

namespace MergeInput

variable (m : MergeInput)

/-- The merge with `central` as the directory records. -/
def mergeOf (central : List ZipEntry) : ReconcileReport :=
  reconcileCdAndScan m.data central m.scanned m.cdRegionStart m.containers m.policy

def merged : List ZipEntry := (m.mergeOf m.central).entries

/-- Merged with the same scan a second time, the merged list comes back as it is. -/
structure Idempotent : Prop where
  entries : (m.mergeOf m.merged).entries = m.merged
  scanOnly : (m.mergeOf m.merged).scanOnly = 0

def horizon : ℕ := m.cdRegionStart.getD m.data.length

def Owned (e : ZipEntry) : Prop := (m.containers.ownerOf e.localHeaderOffset).isSome = true

/-- The books at the end of the first run. -/
def books : ReconcileState :=
  ReconcileState.considerAll m.data m.containers m.policy
    (reconcileStart m.data m.central m.cdRegionStart m.containers) m.scanned

/-- A claim of the first run that the merged list need not make: one on behalf of a directory
record that is withheld, or that of a header whose payload runs past the end of the file. -/
inductive Vanishes : ℕ × ℕ → Prop
  | record {d : ZipEntry} {q : ℕ × ℕ} (hd : d ∈ m.central) (howned : m.Owned d)
      (hq : payloadRange m.data d = some q) : Vanishes q
  | region {d e : ZipEntry} {q : ℕ × ℕ} (hd : d ∈ m.central)
      (hq : declaredRegion m.data (declaredOffsets m.central) m.horizon d = some q)
      (he : e ∈ m.central) (howned : m.Owned e)
      (hbound : e.localHeaderOffset = q.1 ∨ e.localHeaderOffset = q.2) : Vanishes q
  | head {d : ZipEntry} {first : ℕ} (hd : d ∈ m.central) (howned : m.Owned d)
      (hfirst : d.localHeaderOffset = first ∨ d.localHeaderOffset = offsetMax) :
      Vanishes (0, first)
  | truncated {a : ZipEntry} {start stop : ℕ} (ha : a ∈ m.scanned)
      (hr : payloadRangeLenient m.data a = some (start, stop, true)) : Vanishes (start, stop)

/-- A scanned header that only the claims of the first run keep out. -/
structure TurnedAway (cand : ZipEntry) (r : ℕ × ℕ) : Prop where
  scanned : cand ∈ m.scanned
  unowned : ¬ m.Owned cand
  fresh : cand.localHeaderOffset ∉ m.books.byOffset
  extent : extent m.data cand = some r

/-- The first run stops at its cap, or every header that vanishing claims alone kept out meets a
claim of the merged list. -/
def NoneLetIn : Prop :=
  m.policy.maxCandidateRecords ≤ m.books.entries.length ∨
    ∀ cand r, m.TurnedAway cand r → (∀ q ∈ m.books.claimed, Meets r q → m.Vanishes q) →
      ∃ q ∈ claimedRanges m.data m.merged m.horizon, Meets r q

variable {m}

/-- The first run, with what it added. -/
theorem exists_run (m : MergeInput) : ∃ added, ReconcileState.Run m.data m.containers m.policy
    (reconcileStart m.data m.central m.cdRegionStart m.containers) m.scanned added m.books :=
  ReconcileState.considerAll_run _ _ _ _ _

theorem mem_merged_iff {added : List ZipEntry}
    (h : ReconcileState.Run m.data m.containers m.policy
      (reconcileStart m.data m.central m.cdRegionStart m.containers) m.scanned added m.books)
    {e : ZipEntry} : e ∈ m.merged ↔ e ∈ m.central ∧ ¬ m.Owned e ∨ e ∈ added := by
  have hperm : m.merged.Perm m.books.entries := List.perm_insertionSort ZipEntry.Before _
  rw [hperm.mem_iff, h.entries, List.mem_append]
  simp [reconcileStart, Owned]

theorem length_merged (m : MergeInput) : m.merged.length = m.books.entries.length :=
  (List.perm_insertionSort ZipEntry.Before _).length_eq

theorem not_owned_of_mem_merged {e : ZipEntry} (he : e ∈ m.merged) : ¬ m.Owned e := by
  obtain ⟨added, hrun⟩ := m.exists_run
  rcases (mem_merged_iff hrun).mp he with ⟨-, hunowned⟩ | hadded
  · exact hunowned
  · obtain ⟨r, hr⟩ := hrun.admitted e hadded
    simp [Owned, hr.unowned]

/-- An unowned header stands on the books' offsets exactly when the merged list has its offset. -/
theorem mem_byOffset_iff {cand : ZipEntry} (h : ¬ m.Owned cand) :
    cand.localHeaderOffset ∈ m.books.byOffset ↔
      cand.localHeaderOffset ∈ m.merged.map (·.localHeaderOffset) := by
  obtain ⟨added, hrun⟩ := m.exists_run
  rw [hrun.byOffset, List.mem_append, List.mem_map, List.mem_map]
  simp only [reconcileStart, List.mem_map]
  constructor
  · rintro (⟨d, hd, hoff⟩ | ⟨a, ha, hoff⟩)
    · refine ⟨d, (mem_merged_iff hrun).mpr (.inl ⟨hd, fun howned ↦ h ?_⟩), hoff⟩
      rwa [Owned, ← hoff]
    · exact ⟨a, (mem_merged_iff hrun).mpr (.inr ha), hoff⟩
  · rintro ⟨e, he, hoff⟩
    rcases (mem_merged_iff hrun).mp he with ⟨hd, -⟩ | ha
    · exact .inl ⟨e, hd, hoff⟩
    · exact .inr ⟨e, ha, hoff⟩

/-! ## Claims that last -/

/-- A region that begins and ends at no withheld record keeps at least its length. -/
theorem le_regionStop {d : ZipEntry} (hd : d ∈ m.central) {q : ℕ × ℕ}
    (hq : declaredRegion m.data (declaredOffsets m.central) m.horizon d = some q)
    (hlasts : ¬ m.Vanishes q) :
    q.2 ≤ regionStop m.merged m.horizon d.localHeaderOffset := by
  obtain ⟨added, hrun⟩ := m.exists_run
  obtain ⟨hmax, -, hlt, hq'⟩ := declaredRegion_eq_some.mp hq
  have hclaim : q ∈ m.books.claimed :=
    hrun.claimed_mono q (mem_claimedRanges.mpr (.inr (.inl ⟨d, hd, hq⟩)))
  rw [regionStop]
  cases hfind : (declaredOffsets m.merged).find? (d.localHeaderOffset < ·) with
  | none =>
      rw [hq', regionStop]
      cases hnext : (declaredOffsets m.central).find? (d.localHeaderOffset < ·) with
      | none => exact le_rfl
      | some p =>
          -- the record that ends the region is not withheld, so the merged list declares it too
          obtain ⟨hp, hstart, -⟩ := find?_declaredOffsets hnext
          obtain ⟨hpmax, e, he, hep⟩ := mem_declaredOffsets.mp hp
          have hstop : e.localHeaderOffset = q.2 := by simp [hq', regionStop, hnext, hep]
          have hmem : e ∈ m.merged :=
            (mem_merged_iff hrun).mpr (.inl ⟨he, fun h ↦ hlasts (.region hd hq he h (.inr hstop))⟩)
          have hnot := List.find?_eq_none.mp hfind p
            (mem_declaredOffsets.mpr ⟨hpmax, e, hmem, hep⟩)
          exact absurd hstart (by simpa using hnot)
  | some o =>
      obtain ⟨ho, hstart, -⟩ := find?_declaredOffsets hfind
      obtain ⟨homax, e, he, rfl⟩ := mem_declaredOffsets.mp ho
      rcases (mem_merged_iff hrun).mp he with ⟨hc, -⟩ | ha
      · rw [hq', regionStop]
        cases hnext : (declaredOffsets m.central).find? (d.localHeaderOffset < ·) with
        | none =>
            have hnot := List.find?_eq_none.mp hnext _
              (mem_declaredOffsets.mpr ⟨homax, e, hc, rfl⟩)
            exact absurd hstart (by simpa using hnot)
        | some p =>
            exact (find?_declaredOffsets hnext).2.2 _
              (mem_declaredOffsets.mpr ⟨homax, e, hc, rfl⟩) hstart
      · -- an added header keeps clear of the region
        obtain ⟨r, hr⟩ := hrun.admitted e ha
        obtain ⟨hoff, hne, -⟩ := payloadRangeLenient_eq_some hr.range
        have hclear := hr.clear q (mem_claimedRanges.mpr (.inr (.inl ⟨d, hd, hq⟩)))
        have hbegin : q.1 = d.localHeaderOffset := by rw [hq']
        simp only [Meets, not_and] at hclear
        dsimp only [Option.getD_some]
        omega

/-- A claim of the first run that does not vanish is covered by a claim of the merged list. -/
theorem exists_lasting {q : ℕ × ℕ} (hq : q ∈ m.books.claimed) (hlasts : ¬ m.Vanishes q) :
    ∃ q' ∈ claimedRanges m.data m.merged m.horizon, q'.1 ≤ q.1 ∧ q.2 ≤ q'.2 := by
  obtain ⟨added, hrun⟩ := m.exists_run
  rw [hrun.claimed, List.mem_append, List.mem_filterMap] at hq
  rcases hq with hq | ⟨a, ha, hq⟩
  · have hclaim : q ∈ claimedRanges m.data m.central m.horizon := hq
    rcases mem_claimedRanges.mp hclaim with
      ⟨d, hd, hr⟩ | ⟨d, hd, hr⟩ | ⟨⟨z, hz, hzmax⟩, first, hfirst, hpos, rfl⟩
    · have hmem : d ∈ m.merged :=
        (mem_merged_iff hrun).mpr (.inl ⟨hd, fun h ↦ hlasts (.record hd h hr)⟩)
      exact ⟨q, mem_claimedRanges.mpr (.inl ⟨d, hmem, hr⟩), le_rfl, le_rfl⟩
    · obtain ⟨hmax, hnone, hlt, hq'⟩ := declaredRegion_eq_some.mp hr
      have hbegin : d.localHeaderOffset = q.1 := by rw [hq']
      have hmem : d ∈ m.merged :=
        (mem_merged_iff hrun).mpr
          (.inl ⟨hd, fun h ↦ hlasts (.region hd hr hd h (.inl hbegin))⟩)
      have hstop := le_regionStop hd hr hlasts
      have hend : q.2 = regionStop m.central m.horizon d.localHeaderOffset := by rw [hq']
      have hregion : declaredRegion m.data (declaredOffsets m.merged) m.horizon d =
          some (d.localHeaderOffset, regionStop m.merged m.horizon d.localHeaderOffset) :=
        declaredRegion_eq_some.mpr ⟨hmax, hnone, by omega, rfl⟩
      exact ⟨_, mem_claimedRanges.mpr (.inr (.inl ⟨d, hmem, hregion⟩)), hbegin.le, hstop⟩
    · obtain ⟨hmem, hleast⟩ := head?_declaredOffsets hfirst
      obtain ⟨hmax, d, hd, hdoff⟩ := mem_declaredOffsets.mp hmem
      have hz' : z ∈ m.merged :=
        (mem_merged_iff hrun).mpr (.inl ⟨hz, fun h ↦ hlasts (.head hz h (.inr hzmax))⟩)
      have hd' : d ∈ m.merged :=
        (mem_merged_iff hrun).mpr (.inl ⟨hd, fun h ↦ hlasts (.head hd h (.inl hdoff))⟩)
      have hdeclared : first ∈ declaredOffsets m.merged :=
        mem_declaredOffsets.mpr ⟨hmax, d, hd', hdoff⟩
      cases hhead : (declaredOffsets m.merged).head? with
      | none => simp [List.head?_eq_none_iff.mp hhead] at hdeclared
      | some first' =>
          have hle : first ≤ first' := by
            obtain ⟨hmax', e, he, rfl⟩ := mem_declaredOffsets.mp (head?_declaredOffsets hhead).1
            rcases (mem_merged_iff hrun).mp he with ⟨hc, -⟩ | ha
            · exact hleast _ (mem_declaredOffsets.mpr ⟨hmax', e, hc, rfl⟩)
            · -- an added header keeps clear of the head
              obtain ⟨r, hr⟩ := hrun.admitted e ha
              obtain ⟨hoff, hne, -⟩ := payloadRangeLenient_eq_some hr.range
              have hclear := hr.clear _ hq
              simp only [Meets, not_and] at hclear
              omega
          refine ⟨(0, first'), mem_claimedRanges.mpr (.inr (.inr ⟨⟨z, hz', hzmax⟩, first', hhead,
            by omega, rfl⟩)), le_rfl, hle⟩
  · obtain ⟨⟨start, stop, truncated⟩, hr, rfl⟩ := Option.map_eq_some_iff.mp hq
    cases truncated with
    | true => exact absurd (.truncated (hrun.sublist.subset ha) hr) hlasts
    | false =>
        have hexact := (payloadRangeLenient_eq_some hr).2.2.2.1 rfl
        have hmem : a ∈ m.merged := (mem_merged_iff hrun).mpr (.inr ha)
        exact ⟨_, mem_claimedRanges.mpr (.inl ⟨a, hmem, hexact⟩), le_rfl, le_rfl⟩

/-! ## The second run -/

/-- No entry of the merged list is withheld. -/
theorem reconcileStart_merged_entries (m : MergeInput) :
    (reconcileStart m.data m.merged m.cdRegionStart m.containers).entries = m.merged := by
  refine List.filter_eq_self.mpr fun e he ↦ ?_
  simpa [Owned] using not_owned_of_mem_merged he

/-- The second run returns the merged list exactly when it adds nothing. -/
theorem idempotent_iff_adds_nothing {added : List ZipEntry}
    (h : ReconcileState.Run m.data m.containers m.policy
      (reconcileStart m.data m.merged m.cdRegionStart m.containers) m.scanned added
      (ReconcileState.considerAll m.data m.containers m.policy
        (reconcileStart m.data m.merged m.cdRegionStart m.containers) m.scanned)) :
    m.Idempotent ↔ added = [] := by
  have hcount : (m.mergeOf m.merged).scanOnly = added.length := h.scanOnly.trans (Nat.zero_add _)
  constructor
  · intro hi
    exact List.length_eq_zero_iff.mp (hcount ▸ hi.scanOnly)
  · rintro rfl
    refine ⟨?_, hcount⟩
    have hentries := h.entries
    rw [reconcileStart_merged_entries, List.append_nil] at hentries
    have hsorted : m.merged.Pairwise ZipEntry.Before :=
      reconcile_pairwise_before m.data m.central m.scanned m.cdRegionStart m.containers m.policy
    calc
      (m.mergeOf m.merged).entries = m.merged.insertionSort ZipEntry.Before := by
        rw [mergeOf, reconcileCdAndScan]
        dsimp only
        rw [hentries]
      _ = m.merged := hsorted.insertionSort_eq

/-- A header is refused in the second run exactly when, if turned away in the first, it meets a
claim of the merged list. -/
theorem refuses_iff {cand : ZipEntry} (hc : cand ∈ m.scanned) :
    ReconcileState.Refuses m.data m.containers
        (reconcileStart m.data m.merged m.cdRegionStart m.containers) cand ↔
      ∀ r, m.TurnedAway cand r → ∃ q ∈ claimedRanges m.data m.merged m.horizon, Meets r q := by
  constructor
  · intro hrefuses r hr
    by_contra hnone
    obtain ⟨r', hrange, rfl⟩ := Option.map_eq_some_iff.mp hr.extent
    refine hrefuses r' ⟨by simpa [Owned] using hr.unowned, fun hmem ↦ ?_, hrange,
      fun q hq hm ↦ hnone ⟨q, hq, hm⟩⟩
    exact hr.fresh ((mem_byOffset_iff hr.unowned).mpr hmem)
  · intro hall r hr
    have hunowned : ¬ m.Owned cand := by simp [Owned, hr.unowned]
    obtain ⟨q, hq, hm⟩ := hall _ ⟨hc, hunowned,
      fun hmem ↦ hr.fresh ((mem_byOffset_iff hunowned).mp hmem), hr.extent_eq⟩
    exact hr.clear q hq hm

/-- Merging is idempotent exactly when no header slips in where vanished claims alone kept it
out. -/
theorem idempotent_iff (m : MergeInput) : m.Idempotent ↔ m.NoneLetIn := by
  obtain ⟨added, hrun⟩ := ReconcileState.considerAll_run m.data m.containers m.policy
    (reconcileStart m.data m.merged m.cdRegionStart m.containers) m.scanned
  rw [idempotent_iff_adds_nothing hrun, hrun.added_eq_nil_iff, NoneLetIn,
    reconcileStart_merged_entries, length_merged]
  refine or_congr Iff.rfl ⟨fun h cand r hr _ ↦ ?_, fun h cand hc ↦ ?_⟩
  · exact (refuses_iff hr.scanned).mp (h cand hr.scanned) r hr
  · refine (refuses_iff hc).mpr fun r hr ↦ ?_
    by_cases hvanish : ∀ q ∈ m.books.claimed, Meets r q → m.Vanishes q
    · exact h cand r hr hvanish
    · simp only [not_forall] at hvanish
      obtain ⟨q, hq, hm, hlasts⟩ := hvanish
      obtain ⟨q', hq', hlo, hhi⟩ := exists_lasting hq hlasts
      exact ⟨q', hq', hm.mono hlo hhi⟩

/-- Nothing vanishes when every directory record is the outer archive's and no scanned payload
runs past the end of the file. -/
theorem noneLetIn_of_nothing_vanishes (hcentral : ∀ d ∈ m.central, ¬ m.Owned d)
    (hscanned : ∀ a ∈ m.scanned, ∀ r ∈ payloadRangeLenient m.data a, r.2.2 = false) :
    m.NoneLetIn := by
  have hlasts : ∀ q, ¬ m.Vanishes q := by
    intro q h
    cases h with
    | record hd howned => exact hcentral _ hd howned
    | region _ _ he howned => exact hcentral _ he howned
    | head hd howned => exact hcentral _ hd howned
    | truncated ha hr => simpa using hscanned _ ha _ hr
  obtain ⟨added, hrun⟩ := m.exists_run
  rcases hrun.settled with hcap | hsettled
  · exact .inl hcap
  · refine .inr fun cand r hr hvanish ↦ ?_
    by_contra hnone
    obtain ⟨r', hrange, rfl⟩ := Option.map_eq_some_iff.mp hr.extent
    refine hsettled cand hr.scanned r' ⟨by simpa [Owned] using hr.unowned, hr.fresh, hrange, ?_⟩
    exact fun q hq hm ↦ hlasts q (hvanish q hq hm)

end MergeInput

/-- A stored inner archive and a second member; the directory lists the inner archive's member
alone, with a size that reaches into the second member. -/
def ownedRecordArchive : Bytes :=
  let fl := storedFlate
  let x : Part := ⟨['x'], [0x01]⟩
  let outer : Part := ⟨['i'], encodeZip fl [x]⟩
  let b : Part := ⟨['b'], [0x02]⟩
  let body := localRecord fl outer ++ localRecord fl b
  let cd := centralRecord fl ⟨['x'], List.replicate 80 0⟩ 31
  body ++ cd ++ endRecord 1 cd.length body.length

/-- The merge the parse makes of it. -/
def ownedRecordMerge : MergeInput where
  data := ownedRecordArchive
  central := (readDirectory ownedRecordArchive .default).out.entries
  scanned := (scanLocalHeadersBounded ownedRecordArchive .default).1
  cdRegionStart := (readDirectory ownedRecordArchive .default).cdRegionStart
  containers := ContainerOwnershipMap.detect ownedRecordArchive .default
  policy := .default

theorem ownedRecordMerge_not_idempotent : ¬ ownedRecordMerge.Idempotent := by
  intro h
  have hadds : (ownedRecordMerge.mergeOf ownedRecordMerge.merged).scanOnly = 2 := by
    decide +kernel
  exact absurd (hadds.symm.trans h.scanOnly) (by decide)

end VeraqisRecover.Zip
