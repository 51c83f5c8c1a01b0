import VeraqisRecover.Support.Interval
import VeraqisRecover.Zip.Merge

/-!
# What the candidate loop admits

A scanned header is admitted when no embedded archive owns it, no entry has
its offset, and its byte range meets no range claimed so far.  Each admitted
range is claimed in turn, so the admitted headers never share a byte with one
another nor with what the directory claimed.
-/

namespace VeraqisRecover.Zip

open ByteString Interval

/-- The bytes an entry occupies, its payload clamped to the end of the file. -/
def extent (data : Bytes) (e : ZipEntry) : Option (ℕ × ℕ) :=
  (payloadRangeLenient data e).map fun r ↦ (r.1, r.2.1)

theorem payloadStart_bounds {data : Bytes} {o p : ℕ} (h : payloadStart data o = some p) :
    o + 30 ≤ p := by
  simp only [payloadStart, Option.bind_eq_bind, Option.bind_eq_some_iff,
    Option.ite_none_left_eq_some, checkedAdd_eq_some] at h
  obtain ⟨_, ⟨-, rfl⟩, -, _, -, _, -, _, ⟨-, rfl⟩, -, rfl⟩ := h
  omega

theorem payloadRangeLenient_eq_some {data : Bytes} {e : ZipEntry} {r : ℕ × ℕ × Bool}
    (h : payloadRangeLenient data e = some r) :
    r.1 = e.localHeaderOffset ∧ r.1 < r.2.1 ∧ r.2.1 ≤ data.length ∧
      (r.2.2 = false → payloadRange data e = some (r.1, r.2.1)) ∧
      (r.2.2 = true → payloadRange data e = none ∧ r.2.1 = data.length) := by
  simp only [payloadRangeLenient, Option.bind_eq_bind, Option.bind_eq_some_iff,
    Option.ite_none_left_eq_some] at h
  obtain ⟨p, hp, hlen, stop, hstop, h⟩ := h
  have hbound := payloadStart_bounds hp
  have hsum := checkedAdd_eq_some.mp hstop
  have hexact : payloadRange data e =
      if data.length < stop then none else some (e.localHeaderOffset, stop) := by
    simp [payloadRange, hp, hstop]
  split at h
  · obtain rfl := Option.some.inj h
    refine ⟨rfl, by dsimp only; omega, by assumption, fun _ ↦ ?_, by simp⟩
    rw [hexact, if_neg (by omega)]
  · obtain rfl := Option.some.inj h
    refine ⟨rfl, by dsimp only; omega, le_rfl, by simp, fun _ ↦ ⟨?_, rfl⟩⟩
    rw [hexact, if_pos (by omega)]

theorem extent_eq_some {data : Bytes} {e : ZipEntry} {r : ℕ × ℕ} (h : extent data e = some r) :
    r.1 = e.localHeaderOffset ∧ r.1 < r.2 ∧ r.2 ≤ data.length := by
  obtain ⟨q, hq, rfl⟩ := Option.map_eq_some_iff.mp h
  obtain ⟨hstart, hlt, hle, -, -⟩ := payloadRangeLenient_eq_some hq
  exact ⟨hstart, hlt, hle⟩

namespace ReconcileState

/-- The candidate clears every guard, with its range and whether that was clamped. -/
structure Admits (data : Bytes) (containers : ContainerOwnershipMap) (s : ReconcileState)
    (cand : ZipEntry) (r : ℕ × ℕ × Bool) : Prop where
  unowned : (containers.ownerOf cand.localHeaderOffset).isSome = false
  fresh : cand.localHeaderOffset ∉ s.byOffset
  range : payloadRangeLenient data cand = some r
  clear : ∀ q ∈ s.claimed, ¬ Meets (r.1, r.2.1) q

/-- Some guard stops the candidate. -/
def Refuses (data : Bytes) (containers : ContainerOwnershipMap) (s : ReconcileState)
    (cand : ZipEntry) : Prop :=
  ∀ r, ¬ Admits data containers s cand r

/-- The entries, their offsets, the claims and the count are the same. -/
structure SameBooks (s t : ReconcileState) : Prop where
  entries : t.entries = s.entries
  byOffset : t.byOffset = s.byOffset
  claimed : t.claimed = s.claimed
  scanOnly : t.scanOnly = s.scanOnly

variable {data : Bytes} {containers : ContainerOwnershipMap} {s : ReconcileState}
  {cand : ZipEntry} {r : ℕ × ℕ × Bool}

theorem any_nested_or_overlap {claimed : List (ℕ × ℕ)} {start stop : ℕ} (h : start < stop) :
    (claimed.any (fun q ↦ q.1 ≤ start && start < q.2) = true ∨
      claimed.any (fun q ↦ start < q.2 && q.1 < stop) = true) ↔
      ∃ q ∈ claimed, Meets (start, stop) q := by
  simp only [List.any_eq_true, Bool.and_eq_true, decide_eq_true_eq, Meets]
  constructor
  · rintro (⟨q, hq, hle, hlt⟩ | ⟨q, hq, hlt, hle⟩)
    · exact ⟨q, hq, hlt, by omega⟩
    · exact ⟨q, hq, hlt, hle⟩
  · rintro ⟨q, hq, hlt, hle⟩
    exact .inr ⟨q, hq, hlt, hle⟩

theorem consider_of_admits (h : Admits data containers s cand r) :
    s.consider data containers cand = s.add cand (r.1, r.2.1) r.2.2 := by
  obtain ⟨start, stop, truncated⟩ := r
  obtain ⟨-, hlt, -⟩ := payloadRangeLenient_eq_some h.range
  have hclear := not_or.mp (mt (any_nested_or_overlap hlt).mp fun ⟨q, hq, hm⟩ ↦ h.clear q hq hm)
  rw [consider, if_neg (by simp [h.unowned]), if_neg h.fresh, h.range]
  dsimp only
  rw [if_neg hclear.1, if_neg hclear.2]

theorem consider_of_refuses (h : Refuses data containers s cand) :
    SameBooks s (s.consider data containers cand) := by
  have hsame : SameBooks s s := ⟨rfl, rfl, rfl, rfl⟩
  unfold consider
  split
  · exact ⟨rfl, rfl, rfl, rfl⟩
  · rename_i hown
    split
    · exact hsame
    · rename_i hfresh
      split
      · exact ⟨rfl, rfl, rfl, rfl⟩
      · rename_i start stop truncated hrange
        split
        · exact ⟨rfl, rfl, rfl, rfl⟩
        · rename_i hnested
          split
          · exact ⟨rfl, rfl, rfl, rfl⟩
          · rename_i hoverlap
            obtain ⟨-, hlt, -⟩ := payloadRangeLenient_eq_some hrange
            refine absurd ⟨by simpa using hown, hfresh, hrange, fun q hq hm ↦ ?_⟩
              (h (start, stop, truncated))
            rcases (any_nested_or_overlap hlt).mpr ⟨q, hq, hm⟩ with hn | ho
            · exact hnested hn
            · exact hoverlap ho

/-- What a stretch of the loop did: the candidates it admitted, in order. -/
structure Run (data : Bytes) (containers : ContainerOwnershipMap) (policy : ZipRecoveryPolicy)
    (s : ReconcileState) (scanned added : List ZipEntry) (t : ReconcileState) : Prop where
  sublist : added.Sublist scanned
  entries : t.entries = s.entries ++ added
  byOffset : t.byOffset = s.byOffset ++ added.map (·.localHeaderOffset)
  claimed : t.claimed = s.claimed ++ added.filterMap (extent data)
  scanOnly : t.scanOnly = s.scanOnly + added.length
  admitted : ∀ a ∈ added, ∃ r, Admits data containers s a r
  apart : added.Pairwise fun a b ↦ a.localHeaderOffset ≠ b.localHeaderOffset ∧
    ∀ r ∈ extent data a, ∀ q ∈ extent data b, ¬ Meets q r
  settled : policy.maxCandidateRecords ≤ t.entries.length ∨
    ∀ cand ∈ scanned, Refuses data containers t cand

variable {policy : ZipRecoveryPolicy}

theorem Admits.extent_eq (h : Admits data containers s cand r) :
    extent data cand = some (r.1, r.2.1) := by
  simp [extent, h.range]

/-- Books that only grew admit no more than before. -/
theorem Admits.of_grown {t : ReconcileState} (h : Admits data containers t cand r)
    (hoff : ∀ o ∈ s.byOffset, o ∈ t.byOffset) (hclaimed : ∀ q ∈ s.claimed, q ∈ t.claimed) :
    Admits data containers s cand r :=
  ⟨h.unowned, fun ho ↦ h.fresh (hoff _ ho), h.range, fun q hq ↦ h.clear q (hclaimed q hq)⟩

theorem Run.byOffset_mono {scanned added : List ZipEntry} {t : ReconcileState}
    (h : Run data containers policy s scanned added t) : ∀ o ∈ s.byOffset, o ∈ t.byOffset := by
  intro o ho
  rw [h.byOffset]
  exact List.mem_append_left _ ho

theorem Run.claimed_mono {scanned added : List ZipEntry} {t : ReconcileState}
    (h : Run data containers policy s scanned added t) : ∀ q ∈ s.claimed, q ∈ t.claimed := by
  intro q hq
  rw [h.claimed]
  exact List.mem_append_left _ hq

/-- A refused candidate leaves a run as it was. -/
theorem Run.cons_refused {t u : ReconcileState} {rest added : List ZipEntry}
    (hrefused : Refuses data containers s cand) (hsame : SameBooks s u)
    (h : Run data containers policy u rest added t) :
    Run data containers policy s (cand :: rest) added t := by
  have hback : ∀ c r, Admits data containers t c r → Admits data containers s c r :=
    fun c r hc ↦ hc.of_grown (hsame.byOffset ▸ h.byOffset_mono) (hsame.claimed ▸ h.claimed_mono)
  refine ⟨h.sublist.cons cand, hsame.entries ▸ h.entries, hsame.byOffset ▸ h.byOffset,
    hsame.claimed ▸ h.claimed, hsame.scanOnly ▸ h.scanOnly, fun a ha ↦ ?_, h.apart, ?_⟩
  · obtain ⟨r, hr⟩ := h.admitted a ha
    exact ⟨r, hr.of_grown (fun o ho ↦ hsame.byOffset ▸ ho) (fun q hq ↦ hsame.claimed ▸ hq)⟩
  · rcases h.settled with hcap | hsettled
    · exact .inl hcap
    · refine .inr fun c hc ↦ ?_
      rcases List.mem_cons.mp hc with rfl | hc
      · exact fun r hr ↦ hrefused r (hback _ r hr)
      · exact hsettled c hc

/-- An admitted candidate heads the run from the books it enters. -/
theorem Run.cons_admitted {t : ReconcileState} {rest added : List ZipEntry}
    (hclears : Admits data containers s cand r)
    (h : Run data containers policy (s.add cand (r.1, r.2.1) r.2.2) rest added t) :
    Run data containers policy s (cand :: rest) (cand :: added) t := by
  have hextent := hclears.extent_eq
  have hoff : ∀ o ∈ s.byOffset, o ∈ (s.add cand (r.1, r.2.1) r.2.2).byOffset :=
    fun o ho ↦ List.mem_append_left _ ho
  have hclaimed : ∀ q ∈ s.claimed, q ∈ (s.add cand (r.1, r.2.1) r.2.2).claimed :=
    fun q hq ↦ List.mem_append_left _ hq
  refine ⟨h.sublist.cons_cons cand, ?_, ?_, ?_, ?_, fun a ha ↦ ?_, ?_, ?_⟩
  · rw [h.entries]
    simp [add]
  · rw [h.byOffset]
    simp [add]
  · rw [h.claimed]
    simp [add, hextent]
  · rw [h.scanOnly]
    simp only [add, List.length_cons]
    omega
  · rcases List.mem_cons.mp ha with rfl | ha
    · exact ⟨r, hclears⟩
    · obtain ⟨q, hq⟩ := h.admitted a ha
      exact ⟨q, hq.of_grown hoff hclaimed⟩
  · refine List.pairwise_cons.mpr ⟨fun b hb ↦ ?_, h.apart⟩
    obtain ⟨q, hq⟩ := h.admitted b hb
    have hmem : (r.1, r.2.1) ∈ (s.add cand (r.1, r.2.1) r.2.2).claimed := by simp [add]
    refine ⟨fun heq ↦ hq.fresh ?_, fun r' hr' q' hq' ↦ ?_⟩
    · simp [add, heq]
    · obtain rfl := Option.some.inj (hextent.symm.trans hr')
      obtain rfl := Option.some.inj (hq.extent_eq.symm.trans hq')
      exact hq.clear _ hmem
  · rcases h.settled with hcap | hsettled
    · exact .inl hcap
    · refine .inr fun c hc ↦ ?_
      rcases List.mem_cons.mp hc with rfl | hc
      · -- its own offset is on the books by now
        refine fun q hq ↦ hq.fresh (h.byOffset_mono _ ?_)
        simp [add]
      · exact hsettled c hc

/-- The loop is a run, whatever it is given. -/
theorem considerAll_run (data : Bytes) (containers : ContainerOwnershipMap)
    (policy : ZipRecoveryPolicy) (s : ReconcileState) (scanned : List ZipEntry) :
    ∃ added, Run data containers policy s scanned added
      (considerAll data containers policy s scanned) := by
  induction scanned generalizing s with
  | nil =>
      exact ⟨[], .slnil, by simp [considerAll], by simp [considerAll], by simp [considerAll],
        by simp [considerAll], by simp, .nil, .inr (by simp)⟩
  | cons cand rest ih =>
      rw [considerAll]
      split
      · rename_i hcap
        exact ⟨[], List.nil_sublist _, by simp, by simp, by simp, by simp, by simp, .nil,
          .inl hcap⟩
      · by_cases h : ∃ r, Admits data containers s cand r
        · obtain ⟨r, hr⟩ := h
          obtain ⟨added, hrun⟩ := ih (s.add cand (r.1, r.2.1) r.2.2)
          refine ⟨cand :: added, ?_⟩
          rw [consider_of_admits hr]
          exact hrun.cons_admitted hr
        · have hrefused : Refuses data containers s cand := not_exists.mp h
          obtain ⟨added, hrun⟩ := ih (s.consider data containers cand)
          exact ⟨added, hrun.cons_refused hrefused (consider_of_refuses hrefused)⟩

end ReconcileState

/-- The directory records no embedded archive owns. -/
def unownedRecords (central : List ZipEntry) (containers : ContainerOwnershipMap) :
    List ZipEntry :=
  central.filter fun e ↦ !(containers.ownerOf e.localHeaderOffset).isSome

theorem payloadRange_mem_claimedRanges {data : Bytes} {central : List ZipEntry} {horizon : ℕ}
    {d : ZipEntry} {q : ℕ × ℕ} (hd : d ∈ central) (hq : payloadRange data d = some q) :
    q ∈ claimedRanges data central horizon := by
  have hmem : q ∈ central.filterMap (payloadRange data) := List.mem_filterMap.mpr ⟨d, hd, hq⟩
  unfold claimedRanges
  exact List.mem_append_left _ (List.mem_append_left _ hmem)

/-- What a merge may return: the directory records no embedded archive owns, each once and
unchanged, and scanned headers at offsets of their own whose bytes neither another added header
nor a directory record's payload shares. -/
structure SoundMerge (data : Bytes) (central scanned : List ZipEntry)
    (containers : ContainerOwnershipMap) (report : ReconcileReport) (added : List ZipEntry) :
    Prop where
  sublist : added.Sublist scanned
  entries : report.entries.Perm (unownedRecords central containers ++ added)
  scanOnly : report.scanOnly = added.length
  fresh : ∀ a ∈ added, ∀ d ∈ central, d.localHeaderOffset ≠ a.localHeaderOffset
  extent : ∀ a ∈ added, ∃ r, extent data a = some r ∧ r.1 = a.localHeaderOffset ∧ r.1 < r.2
  apart : added.Pairwise fun a b ↦ a.localHeaderOffset ≠ b.localHeaderOffset ∧
    ∀ r ∈ Zip.extent data a, ∀ q ∈ Zip.extent data b,
      Disjoint (Set.Ico r.1 r.2) (Set.Ico q.1 q.2)
  apartFromDirectory : ∀ a ∈ added, ∀ r ∈ Zip.extent data a, ∀ d ∈ central,
    ∀ q ∈ payloadRange data d, Disjoint (Set.Ico r.1 r.2) (Set.Ico q.1 q.2)

/-- Whatever directory, candidates and ownership map it is given, a merge is sound; and no
candidate of the scan that its caller runs claims to come from the directory. -/
theorem reconcile_sound (data : Bytes) (central scanned : List ZipEntry)
    (cdRegionStart : Option ℕ) (containers : ContainerOwnershipMap) (policy : ZipRecoveryPolicy) :
    (∃ added, SoundMerge data central scanned containers
      (reconcileCdAndScan data central scanned cdRegionStart containers policy) added) ∧
      ∀ e ∈ (scanLocalHeadersBounded data policy).1, e.fromCentralDir = false := by
  refine ⟨?_, scanLocalHeadersBounded_fromCentralDir data policy⟩
  obtain ⟨added, hrun⟩ := ReconcileState.considerAll_run data containers policy
    (reconcileStart data central cdRegionStart containers) scanned
  refine ⟨added, hrun.sublist, ?_, ?_, ?_, ?_, ?_, ?_⟩
  · exact (List.perm_insertionSort ZipEntry.Before _).trans (List.Perm.of_eq hrun.entries)
  · exact hrun.scanOnly.trans (Nat.zero_add _)
  · intro a ha d hd heq
    obtain ⟨r, hr⟩ := hrun.admitted a ha
    exact hr.fresh (List.mem_map.mpr ⟨d, hd, heq⟩)
  · intro a ha
    obtain ⟨r, hr⟩ := hrun.admitted a ha
    obtain ⟨hstart, hlt, -⟩ := extent_eq_some hr.extent_eq
    exact ⟨_, hr.extent_eq, hstart, hlt⟩
  · refine hrun.apart.imp fun {a b} hab ↦ ⟨hab.1, fun r hr q hq ↦ ?_⟩
    exact disjoint_of_not_meets fun hm ↦ hab.2 r hr q hq hm.symm
  · intro a ha r hr d hd q hq
    obtain ⟨r', hr'⟩ := hrun.admitted a ha
    obtain rfl := Option.some.inj (hr'.extent_eq.symm.trans hr)
    exact disjoint_of_not_meets (hr'.clear q (payloadRange_mem_claimedRanges hd hq))

/-- An archive with an archive in it and a second member that its directory leaves out. -/
def partlyListedArchive : Bytes :=
  let fl := storedFlate
  let outer : Part := ⟨['i'], encodeZip fl [⟨['x'], [0x01]⟩]⟩
  let body := localRecord fl outer ++ localRecord fl ⟨['b'], [0x62]⟩
  let cd := centralRecord fl outer 0
  body ++ cd ++ endRecord 1 cd.length body.length

/-- Its scanned headers, marked as directory records. -/
def markedScan : List ZipEntry :=
  (scanLocalHeadersBounded partlyListedArchive .default).1.map ({ · with fromCentralDir := true })

/-- A candidate is added with the mark it comes with. -/
theorem reconcile_markedScan :
    let central := (readDirectory partlyListedArchive .default).out.entries
    let containers := ContainerOwnershipMap.detect partlyListedArchive .default
    ¬ ∃ added, SoundMerge partlyListedArchive central markedScan containers
        (reconcileCdAndScan partlyListedArchive central markedScan none containers .default)
        added ∧ ∀ a ∈ added, a.fromCentralDir = false := by
  intro central containers
  rintro ⟨added, hsound, hmarks⟩
  have hadds : (reconcileCdAndScan partlyListedArchive central markedScan none containers
      .default).scanOnly = 1 := by decide +kernel
  obtain ⟨a, ha⟩ := List.exists_mem_of_length_pos
    (by rw [← hsound.scanOnly, hadds]; decide : 0 < added.length)
  obtain ⟨e, -, rfl⟩ := List.mem_map.mp (hsound.sublist.subset ha)
  cases hmarks _ ha

end VeraqisRecover.Zip
