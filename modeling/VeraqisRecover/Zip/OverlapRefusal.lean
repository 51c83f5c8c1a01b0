import VeraqisRecover.Zip.HeaderWalk
import VeraqisRecover.Zip.Idempotence

/-!
# What a refused candidate collides with

A candidate is refused for overlap when it meets a range that is on the books
at its turn.  The range of a directory record is computed from whatever bytes
stand at its offset, before it is known whether a header is there or whether
the record is kept, so a stale record can claim bytes that nothing in the
returned list occupies.
-/

namespace VeraqisRecover.Zip

open ByteString Interval

namespace ReconcileState

variable {data : Bytes} {containers : ContainerOwnershipMap} {policy : ZipRecoveryPolicy}

/-- While the cap is not reached, the loop over a list goes on from where a prefix left it. -/
theorem considerAll_append {s : ReconcileState} {pre rest : List ZipEntry}
    (h : (considerAll data containers policy s pre).entries.length < policy.maxCandidateRecords) :
    considerAll data containers policy s (pre ++ rest) =
      considerAll data containers policy (considerAll data containers policy s pre) rest := by
  induction pre generalizing s with
  | nil => rfl
  | cons cand pre ih =>
      by_cases hcap : policy.maxCandidateRecords ≤ s.entries.length
      · rw [considerAll, if_pos hcap] at h
        exact absurd hcap (not_le.mpr h)
      · rw [considerAll, if_neg hcap] at h ⊢
        rw [List.cons_append, considerAll, if_neg hcap]
        exact ih h

/-- The loop's answer to the candidate is one of the two overlap rejections. -/
def RefusesForOverlap (data : Bytes) (containers : ContainerOwnershipMap) (s : ReconcileState)
    (cand : ZipEntry) : Prop :=
  s.consider data containers cand = s.reject cand "NESTED_SIGNATURE_CANDIDATE" ∨
    s.consider data containers cand = s.reject cand "ENTRY_RANGE_OVERLAP"

/-- The candidate gets as far as the comparison with the books, with this range. -/
structure Compared (data : Bytes) (containers : ContainerOwnershipMap) (s : ReconcileState)
    (cand : ZipEntry) (r : ℕ × ℕ) : Prop where
  unowned : (containers.ownerOf cand.localHeaderOffset).isSome = false
  fresh : cand.localHeaderOffset ∉ s.byOffset
  extent : extent data cand = some r

variable {s : ReconcileState} {cand : ZipEntry}

theorem reject_ne_self (reason : String) : s ≠ s.reject cand reason := by
  intro h
  have hlen := congrArg (fun t ↦ t.rejected.length) h
  simp [reject] at hlen

theorem reject_reason {reason reason' : String} (h : s.reject cand reason = s.reject cand reason') :
    reason = reason' := by
  have hrejected := congrArg (·.rejected) h
  simpa [reject] using hrejected

theorem rejectNested_ne (reason : String) : s.rejectNested cand ≠ s.reject cand reason := by
  intro h
  have hnested := congrArg (·.nestedCandidates) h
  simp [rejectNested, reject] at hnested

theorem add_ne (range : ℕ × ℕ) (truncated : Bool) (reason : String) :
    s.add cand range truncated ≠ s.reject cand reason := by
  intro h
  have hcount := congrArg (·.scanOnly) h
  simp [add, reject] at hcount

/-- A refusal for overlap means that the candidate was compared and meets a claim. -/
theorem refusesForOverlap_iff :
    RefusesForOverlap data containers s cand ↔
      ∃ r, Compared data containers s cand r ∧ ∃ q ∈ s.claimed, Meets r q := by
  constructor
  · intro h
    unfold RefusesForOverlap consider at h
    split_ifs at h with hown hfresh
    · exact (h.elim (rejectNested_ne _) (rejectNested_ne _)).elim
    · exact (h.elim (reject_ne_self _) (reject_ne_self _)).elim
    · split at h
      · rcases h with h | h
        · exact absurd (reject_reason h) (by decide)
        · exact absurd (reject_reason h) (by decide)
      · rename_i start stop truncated hrange
        obtain ⟨-, hlt, -⟩ := payloadRangeLenient_eq_some hrange
        refine ⟨(start, stop), ⟨by simpa using hown, hfresh, by simp [Zip.extent, hrange]⟩,
          (any_nested_or_overlap hlt).mp ?_⟩
        by_contra hclear
        rw [not_or] at hclear
        rw [if_neg hclear.1, if_neg hclear.2] at h
        exact (h.elim (add_ne _ _ _) (add_ne _ _ _)).elim
  · rintro ⟨r, hc, q, hq, hm⟩
    obtain ⟨⟨start, stop, truncated⟩, hrange, rfl⟩ := Option.map_eq_some_iff.mp hc.extent
    obtain ⟨-, hlt, -⟩ := payloadRangeLenient_eq_some hrange
    unfold RefusesForOverlap consider
    rw [if_neg (by simp [hc.unowned]), if_neg hc.fresh, hrange]
    dsimp only
    rcases (any_nested_or_overlap hlt).mpr ⟨q, hq, hm⟩ with hn | ho
    · rw [if_pos hn]
      exact .inl rfl
    · by_cases hn : s.claimed.any (fun q ↦ q.1 ≤ start && start < q.2) = true
      · rw [if_pos hn]
        exact .inl rfl
      · rw [if_neg hn, if_pos ho]
        exact .inr rfl

end ReconcileState

theorem extent_of_payloadRange {data : Bytes} {e : ZipEntry} {q : ℕ × ℕ}
    (h : payloadRange data e = some q) : extent data e = some q ∧ q.1 = e.localHeaderOffset := by
  simp only [payloadRange, Option.bind_eq_bind, Option.bind_eq_some_iff,
    Option.ite_none_left_eq_some, Option.some.injEq] at h
  obtain ⟨p, hp, stop, hstop, hlen, rfl⟩ := h
  have hsum := checkedAdd_eq_some.mp hstop
  refine ⟨?_, rfl⟩
  simp only [extent, payloadRangeLenient, hp, Option.bind_eq_bind, Option.bind_some]
  rw [if_neg (by omega), hstop, Option.bind_some, if_pos (by omega)]
  rfl

namespace MergeInput

variable {m : MergeInput}

/-- The local header signature stands at the entry's offset. -/
def HasHeader (m : MergeInput) (e : ZipEntry) : Prop :=
  u32le m.data e.localHeaderOffset = some lfhSig

/-- The books when the loop turns to `cand`, with the cap not reached. -/
def Turn (m : MergeInput) (s : ReconcileState) (cand : ZipEntry) : Prop :=
  ∃ pre rest, m.scanned = pre ++ cand :: rest ∧
    s = ReconcileState.considerAll m.data m.containers m.policy
      (reconcileStart m.data m.central m.cdRegionStart m.containers) pre ∧
    s.entries.length < m.policy.maxCandidateRecords

/-- A range of real structure: the bytes of a returned entry whose header is there, or a part of
the region between a declared offset and the next, or of the removed head. -/
inductive Structure (m : MergeInput) : ℕ × ℕ → Prop
  | entry {e : ZipEntry} {q : ℕ × ℕ} (he : e ∈ m.merged) (hheader : m.HasHeader e)
      (hq : extent m.data e = some q) : Structure m q
  | region {o : ℕ} {q : ℕ × ℕ} (ho : o ∈ declaredOffsets m.central) (hlo : o ≤ q.1)
      (hhi : q.2 ≤ regionStop m.central m.horizon o) : Structure m q
  | head {d : ZipEntry} {first : ℕ} {q : ℕ × ℕ} (hd : d ∈ m.central)
      (hmax : d.localHeaderOffset = offsetMax)
      (hfirst : (declaredOffsets m.central).head? = some first) (hhi : q.2 ≤ first) : Structure m q

/-- A directory record with no header at its offset, or one that is dropped. -/
def Stale (m : MergeInput) (d : ZipEntry) : Prop := d ∈ m.central ∧ (¬ m.HasHeader d ∨ m.Owned d)

/-- Every range that a candidate refused for overlap collides with is real structure. -/
def RefusesForStructureOnly (m : MergeInput) : Prop :=
  ∀ s cand, m.Turn s cand →
    ReconcileState.RefusesForOverlap m.data m.containers s cand →
      ∀ r q, extent m.data cand = some r → q ∈ s.claimed → Meets r q → m.Structure q

/-- No candidate that is compared with the books meets a stale record's payload range that
reaches past the record's region. -/
def NoneMeetsStale (m : MergeInput) : Prop :=
  ∀ s cand r, m.Turn s cand → ReconcileState.Compared m.data m.containers s cand r →
    ∀ d q, m.Stale d → payloadRange m.data d = some q → Meets r q →
      q.2 ≤ regionStop m.central m.horizon d.localHeaderOffset

/-- What stands on the books at a turn is in the returned list in the end. -/
theorem Turn.merged {s : ReconcileState} {cand : ZipEntry} (h : m.Turn s cand) :
    ∀ e ∈ s.entries, e ∈ m.merged := by
  obtain ⟨pre, rest, hsplit, rfl, hcap⟩ := h
  intro e he
  have hperm : m.merged.Perm m.books.entries := List.perm_insertionSort ZipEntry.Before _
  rw [hperm.mem_iff, books, hsplit, ReconcileState.considerAll_append hcap]
  exact ReconcileState.subset_considerAll he

/-- What a claim on the books is: a directory record's, or an added header's. -/
theorem Turn.claimed {s : ReconcileState} {cand : ZipEntry} (h : m.Turn s cand) {q : ℕ × ℕ}
    (hq : q ∈ s.claimed) :
    q ∈ claimedRanges m.data m.central m.horizon ∨
      ∃ a ∈ m.scanned, a ∈ m.merged ∧ extent m.data a = some q := by
  have hmerged := h.merged
  obtain ⟨pre, rest, hsplit, rfl, hcap⟩ := h
  obtain ⟨added, hrun⟩ := ReconcileState.considerAll_run m.data m.containers m.policy
    (reconcileStart m.data m.central m.cdRegionStart m.containers) pre
  rw [hrun.claimed, List.mem_append, List.mem_filterMap] at hq
  rcases hq with hq | ⟨a, ha, hq⟩
  · exact .inl hq
  · refine .inr ⟨a, ?_, hmerged a ?_, hq⟩
    · rw [hsplit]
      exact List.mem_append_left _ (hrun.sublist.subset ha)
    · rw [hrun.entries]
      exact List.mem_append_right _ ha

theorem Turn.claimed_of_central {s : ReconcileState} {cand : ZipEntry} (h : m.Turn s cand)
    {q : ℕ × ℕ} (hq : q ∈ claimedRanges m.data m.central m.horizon) : q ∈ s.claimed := by
  obtain ⟨pre, rest, -, rfl, -⟩ := h
  obtain ⟨added, hrun⟩ := ReconcileState.considerAll_run m.data m.containers m.policy
    (reconcileStart m.data m.central m.cdRegionStart m.containers) pre
  exact hrun.claimed_mono q hq

/-- The offset of a record with a payload range is a declared one. -/
theorem declared_of_payloadRange {d : ZipEntry} {q : ℕ × ℕ} (hd : d ∈ m.central)
    (hq : payloadRange m.data d = some q) :
    d.localHeaderOffset ∈ declaredOffsets m.central := by
  refine mem_declaredOffsets.mpr ⟨fun hmax ↦ ?_, d, hd, rfl⟩
  simp only [payloadRange, payloadStart, Option.bind_eq_bind, Option.bind_eq_some_iff,
    checkedAdd_eq_some] at hq
  obtain ⟨_, ⟨_, ⟨hlt, -⟩, -⟩, -⟩ := hq
  rw [hmax, offsetMax, wordMax] at hlt
  omega

/-- A stale record claims no structure beyond its own region. -/
theorem Structure.le_regionStop {d : ZipEntry} {q : ℕ × ℕ} (h : m.Structure q) (hd : m.Stale d)
    (hq : payloadRange m.data d = some q) :
    q.2 ≤ regionStop m.central m.horizon d.localHeaderOffset := by
  obtain ⟨hextent, hstart⟩ := extent_of_payloadRange hq
  obtain ⟨-, hne, -⟩ := extent_eq_some hextent
  have hdeclared := declared_of_payloadRange hd.1 hq
  cases h with
  | entry he hheader hqe =>
      -- a returned entry at the record's offset would make the record sound
      obtain ⟨hoff, -, -⟩ := extent_eq_some hqe
      have hsame := hoff.symm.trans hstart
      rcases hd.2 with hnone | howned
      · refine absurd ?_ hnone
        rwa [HasHeader, ← hsame]
      · refine absurd ?_ (not_owned_of_mem_merged he)
        rwa [Owned, hsame]
  | @region o _ ho hlo hhi =>
      rcases eq_or_lt_of_le (hstart ▸ hlo) with rfl | hlt
      · exact hhi
      · -- the region of an earlier record ends where this one begins
        rw [regionStop] at hhi
        cases hfind : (declaredOffsets m.central).find? (o < ·) with
        | none => exact absurd hlt (by simpa using List.find?_eq_none.mp hfind _ hdeclared)
        | some p =>
            have hle := (find?_declaredOffsets hfind).2.2 _ hdeclared hlt
            rw [hfind, Option.getD_some] at hhi
            omega
  | head hz hmax hfirst hhi =>
      have hle := (head?_declaredOffsets hfirst).2 _ hdeclared
      omega

/-- A claim on the books is real structure, unless it is a stale record's and too long. -/
theorem Turn.structure {s : ReconcileState} {cand : ZipEntry} (h : m.Turn s cand)
    (hscan : ∀ a ∈ m.scanned, m.HasHeader a) {q : ℕ × ℕ} (hq : q ∈ s.claimed)
    (hstale : ∀ d, m.Stale d → payloadRange m.data d = some q →
      q.2 ≤ regionStop m.central m.horizon d.localHeaderOffset) : m.Structure q := by
  rcases h.claimed hq with hq | ⟨a, ha, hmem, hextent⟩
  · rcases mem_claimedRanges.mp hq with
      ⟨d, hd, hr⟩ | ⟨d, hd, hr⟩ | ⟨⟨z, hz, hmax⟩, first, hfirst, -, rfl⟩
    · obtain ⟨hextent, hstart⟩ := extent_of_payloadRange hr
      by_cases hs : m.Stale d
      · exact .region (declared_of_payloadRange hd hr) hstart.ge (hstale d hs hr)
      · rw [Stale, not_and, not_or, not_not] at hs
        obtain ⟨hheader, hunowned⟩ := hs hd
        obtain ⟨added, hrun⟩ := m.exists_run
        exact .entry ((mem_merged_iff hrun).mpr (.inl ⟨hd, hunowned⟩)) hheader hextent
    · obtain ⟨hmax, -, -, hq'⟩ := declaredRegion_eq_some.mp hr
      have hstart : q.1 = d.localHeaderOffset := by rw [hq']
      have hstop : q.2 = regionStop m.central m.horizon d.localHeaderOffset := by rw [hq']
      exact .region (mem_declaredOffsets.mpr ⟨hmax, d, hd, rfl⟩) hstart.ge hstop.le
    · exact .head hz hmax hfirst le_rfl
  · exact .entry hmem (hscan a ha) hextent

theorem noneMeetsStale_of_refusesForStructureOnly (h : m.RefusesForStructureOnly) :
    m.NoneMeetsStale := by
  intro s cand r hturn hcompared d q hd hq hm
  have hclaimed : q ∈ s.claimed :=
    hturn.claimed_of_central (mem_claimedRanges.mpr (.inl ⟨d, hd.1, hq⟩))
  have hrefuses := ReconcileState.refusesForOverlap_iff.mpr ⟨r, hcompared, q, hclaimed, hm⟩
  exact (h s cand hturn hrefuses r q hcompared.extent hclaimed hm).le_regionStop hd hq

/-- Candidates are refused for real structure only, exactly when none that is compared meets what
a stale record claims beyond its region. -/
theorem refusesForStructureOnly_iff (m : MergeInput) (hscan : ∀ a ∈ m.scanned, m.HasHeader a) :
    m.RefusesForStructureOnly ↔ m.NoneMeetsStale := by
  refine ⟨noneMeetsStale_of_refusesForStructureOnly, fun h s cand hturn hrefuses r q hr hq hm ↦ ?_⟩
  obtain ⟨r', hcompared, -⟩ := ReconcileState.refusesForOverlap_iff.mp hrefuses
  obtain rfl := Option.some.inj (hr.symm.trans hcompared.extent)
  exact hturn.structure hscan hq fun d hd hqd ↦ h s cand r hturn hcompared d q hd hqd hm

/-- Nothing is met when every record has its header and is kept. -/
theorem noneMeetsStale_of_sound (h : ∀ d ∈ m.central, m.HasHeader d ∧ ¬ m.Owned d) :
    m.NoneMeetsStale := by
  intro s cand r _ _ d q hd _ _
  rcases hd.2 with hnone | howned
  · exact absurd (h d hd.1).1 hnone
  · exact absurd howned (h d hd.1).2

end MergeInput

/-- Three stored members; the directory lists the first two, and between them a record whose offset
lies inside the first member and whose size reaches into the third. -/
def staleArchive : Bytes :=
  let fl := storedFlate
  let a : Part := ⟨['a'], [0, 0, 0, 0, 0]⟩
  let c : Part := ⟨['c'], [0x63]⟩
  let b : Part := ⟨['b'], [0x62]⟩
  let body := localRecord fl a ++ localRecord fl c ++ localRecord fl b
  let cd := centralRecord fl a 0 ++ centralRecord fl ⟨['d'], List.replicate 60 0⟩ 5 ++
    centralRecord fl c 36
  body ++ cd ++ endRecord 3 cd.length body.length

/-- The merge the parse makes of it. -/
def staleMerge : MergeInput where
  data := staleArchive
  central := (readDirectory staleArchive .default).out.entries
  scanned := (scanLocalHeadersBounded staleArchive .default).1
  cdRegionStart := (readDirectory staleArchive .default).cdRegionStart
  containers := ContainerOwnershipMap.detect staleArchive .default
  policy := .default

theorem refusesForStructureOnly_iff_staleMerge :
    staleMerge.RefusesForStructureOnly ↔ staleMerge.NoneMeetsStale :=
  MergeInput.refusesForStructureOnly_iff staleMerge fun a ha ↦
    (scanLocalHeadersBounded_sound a ha).1

/-- The third member is compared with the books after the two before it; the record in the middle
has no header and claims more than its region. -/
theorem staleMerge_evaluates :
    ∃ (hscanned : 2 < staleMerge.scanned.length) (hcentral : 1 < staleMerge.central.length),
      let s := ReconcileState.considerAll staleMerge.data staleMerge.containers staleMerge.policy
        (reconcileStart staleMerge.data staleMerge.central staleMerge.cdRegionStart
          staleMerge.containers) (staleMerge.scanned.take 2)
      let cand := staleMerge.scanned[2]
      let d := staleMerge.central[1]
      extent staleMerge.data cand = some (68, 100) ∧
        (staleMerge.containers.ownerOf cand.localHeaderOffset).isSome = false ∧
        cand.localHeaderOffset ∉ s.byOffset ∧
        s.entries.length < staleMerge.policy.maxCandidateRecords ∧
        payloadRange staleMerge.data d = some (5, 95) ∧
        u32le staleMerge.data d.localHeaderOffset ≠ some lfhSig ∧
        regionStop staleMerge.central staleMerge.horizon d.localHeaderOffset < 95 := by
  decide +kernel

theorem staleMerge_refuses_for_stale : ¬ staleMerge.RefusesForStructureOnly := by
  intro h
  obtain ⟨hscanned, hcentral, hextent, hunowned, hfresh, hcap, hrange, hheader, hlong⟩ :=
    staleMerge_evaluates
  have hturn : staleMerge.Turn _ staleMerge.scanned[2] :=
    ⟨staleMerge.scanned.take 2, staleMerge.scanned.drop 3,
      by rw [List.getElem_cons_drop, List.take_append_drop], rfl, hcap⟩
  have hle := MergeInput.noneMeetsStale_of_refusesForStructureOnly h _ _ (68, 100) hturn
    ⟨hunowned, hfresh, hextent⟩ _ (5, 95) ⟨List.getElem_mem hcentral, .inl hheader⟩ hrange
    (by decide)
  exact absurd hlong (not_lt.mpr hle)

end VeraqisRecover.Zip
