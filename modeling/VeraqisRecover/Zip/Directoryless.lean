import VeraqisRecover.Zip.Admission
import VeraqisRecover.Zip.HeaderWalk
import VeraqisRecover.Zip.SurvivingDirectory

/-!
# A file without a directory

Where directory records and EOCD records do not both occur, no directory is
adopted and no embedded archive is proven.  The parse is then the local-header
scan: scanned headers never share a byte, so each one that can be measured is
listed.
-/

namespace VeraqisRecover.Zip

open ByteString LossyUtf8 Interval

/-- No directory record stands in the file, or no EOCD record that could lead to one. -/
def NoDirectory (data : Bytes) : Prop :=
  (∀ p, u32le data p ≠ some cdfhSig) ∨ ∀ p, u32le data p ≠ some eocdSig

variable {data : Bytes} {policy : ZipRecoveryPolicy}

theorem detect_of_noDirectory (h : NoDirectory data) (policy : ZipRecoveryPolicy) :
    ContainerOwnershipMap.detect data policy = ⟨[]⟩ := by
  refine detect_eq_empty fun q hq ↦ ?_
  rcases h with hcd | heocd
  · by_contra hne
    obtain ⟨a, ha⟩ := Option.ne_none_iff_exists'.mp hne
    simp only [validateEmbedded, Option.bind_eq_bind, Option.bind_eq_some_iff,
      Option.ite_none_left_eq_some] at ha
    obtain ⟨_, -, _, -, _, -, _, -, -, -, cdStart, -, hsig, -⟩ := ha
    exact hsig (.inr (hcd cdStart))
  · exact absurd hq (heocd q)

/-! ## No directory is adopted -/

theorem parseCentralDirectoryBounded_of_not_record {cd : Bytes}
    (h : u32le cd 0 ≠ some cdfhSig) (n : ℕ) :
    (parseCentralDirectoryBounded cd n policy).1 = [] := by
  unfold parseCentralDirectoryBounded parseCentralFrom
  split
  · split
    · rfl
    · rfl
  · rfl

theorem u32le_slice {a b v : ℕ} (h : u32le (slice data a b) 0 = some v) :
    u32le data a = some v := by
  rw [← h]
  refine u32le_congr fun j hj ↦ ?_
  have hlen := le_length_of_u32le h
  have hj' : 0 + j < (slice data a b).length := by omega
  rw [slice, List.length_take] at hj'
  rw [slice, List.getElem?_take_of_lt (by omega), List.getElem?_drop, Nat.zero_add]

theorem findEocdFrom_eq_none (h : ∀ p, u32le data p ≠ some eocdSig) (scanStart i : ℕ) :
    findEocdFrom data scanStart i = none := by
  induction i with
  | zero => exact if_neg (h 0)
  | succ i ih =>
      rw [findEocdFrom, if_neg (h (i + 1))]
      split
      · rfl
      · exact ih

theorem followEocd_of_noDirectory (h : NoDirectory data) (containers : ContainerOwnershipMap) :
    (followEocd data policy containers).out.entries = [] := by
  rcases h with hcd | heocd
  · have hnone : ∀ a b n, (parseCentralDirectoryBounded (slice data a b) n policy).1 = [] :=
      fun a b n ↦ parseCentralDirectoryBounded_of_not_record (fun hs ↦ hcd a (u32le_slice hs)) n
    unfold followEocd
    split
    · rfl
    · dsimp only
      split
      · split
        · rw [if_pos (hnone _ _ _)]
          unfold ZipParse.noteLimit
          split <;> rfl
        · rfl
      · rfl
  · have hnone : findEocd data = none := by
      unfold findEocd
      split
      · rfl
      · exact findEocdFrom_eq_none heocd _ _
    simp [followEocd, hnone]

theorem not_accepted_of_noDirectory (h : NoDirectory data) :
    (CdScan.scanSurvivingCd data).acceptedCandidate = none := by
  rcases h with hcd | heocd
  · have hstarts : CdScan.signatureStarts data = [] := by
      simp [CdScan.signatureStarts, hcd]
    unfold CdScan.scanSurvivingCd
    split
    · rfl
    · simp [hstarts, CdScan.CdScanReport.acceptedCandidate]
  · by_contra hne
    obtain ⟨c, hc⟩ := Option.ne_none_iff_exists'.mp hne
    obtain ⟨-, hfind, -⟩ := CdScan.accepted_consistent hc
    simp only [CdScan.findEocd, Option.bind_eq_bind, Option.bind_eq_some_iff] at hfind
    obtain ⟨stop, -, hlast⟩ := hfind
    exact heocd _ (by simpa using List.find?_some hlast)

theorem readDirectory_of_noDirectory (h : NoDirectory data) (policy : ZipRecoveryPolicy) :
    (readDirectory data policy).out.entries = [] := by
  have hfollow := @followEocd_of_noDirectory data policy h
    (ContainerOwnershipMap.detect data policy)
  have hrecover : recoverSurvivingCd data policy (ContainerOwnershipMap.detect data policy)
      (followEocd data policy (ContainerOwnershipMap.detect data policy)) =
        followEocd data policy (ContainerOwnershipMap.detect data policy) := by
    unfold recoverSurvivingCd
    rw [if_neg (not_not.mpr hfollow), not_accepted_of_noDirectory h]
  unfold readDirectory
  dsimp only
  rw [hrecover, reconcileDirectory]
  dsimp only
  rw [if_pos hfollow, hfollow]

/-- Where no directory record was read, the parse is the scan and the ownership filter. -/
theorem parse_of_unread (h : (readDirectory data policy).out.entries = []) :
    (parseZipWithPolicy data policy).entries =
      (reconcileCdAndScan data [] (scanLocalHeadersBounded data policy).1
        (readDirectory data policy).cdRegionStart (ContainerOwnershipMap.detect data policy)
        policy).entries := by
  have hincomplete : cdComplete data (readDirectory data policy) = false := by
    simp [cdComplete, countsAgree, h]
  rw [parseZipWithPolicy_of_incomplete hincomplete, mergeScan]
  dsimp only
  rw [noteLimit_entries, ZipParse.warn]
  dsimp only
  rw [noteCount_entries, h]

/-! ## Scanned headers never overlap -/

theorem le_nextSignature {i j : ℕ} (h : nextSignature data i = some j) : i ≤ j := by
  fun_induction nextSignature data i with
  | case1 => exact (Option.some.inj h).le
  | case2 i _ _ _ ih => exact (Nat.le_succ i).trans (ih h)
  | case3 => simp at h

/-- Where the scan resumes behind the header at `i`. -/
def resumeAt (data : Bytes) (i : ℕ) : ℕ :=
  if i < (scannedHeaderAt data i).2 then (scannedHeaderAt data i).2 else i + 1

theorem lt_resumeAt (data : Bytes) (i : ℕ) : i < resumeAt data i := by
  unfold resumeAt
  split
  · assumption
  · exact Nat.lt_succ_self i

theorem payloadStart_eq_some {o p : ℕ} (h : payloadStart data o = some p) :
    p = o + 30 + (u16le data (o + 26)).getD 0 + (u16le data (o + 28)).getD 0 := by
  simp only [payloadStart, Option.bind_eq_bind, Option.bind_eq_some_iff,
    Option.ite_none_left_eq_some, checkedAdd_eq_some] at h
  obtain ⟨_, ⟨-, rfl⟩, -, nameLen, hname, extraLen, hextra, _, ⟨-, rfl⟩, -, rfl⟩ := h
  rw [hname, hextra]
  rfl

/-- The scan resumes behind the bytes of the header it stood on. -/
theorem extent_scanned_le (hd : data.length ≤ wordMax) {i : ℕ} {r : ℕ × ℕ}
    (h : extent data (scannedHeaderAt data i).1 = some r) : r.2 ≤ resumeAt data i := by
  obtain ⟨q, hq, rfl⟩ := Option.map_eq_some_iff.mp h
  obtain ⟨-, -, hlen, -⟩ := payloadRangeLenient_eq_some hq
  simp only [payloadRangeLenient, Option.bind_eq_bind, Option.bind_eq_some_iff,
    Option.ite_none_left_eq_some, checkedAdd_eq_some] at hq
  obtain ⟨p, hp, hple, stop, ⟨-, rfl⟩, hq⟩ := hq
  have hp' : p = i + 30 + (u16le data (i + 26)).getD 0 + (u16le data (i + 28)).getD 0 :=
    payloadStart_eq_some hp
  have hstop : q.2.1 ≤ p + (scannedHeaderAt data i).1.compSize := by
    split at hq
    · exact (Option.some.inj hq) ▸ le_rfl
    · obtain rfl := Option.some.inj hq
      dsimp only
      omega
  have hnext : q.2.1 ≤ (scannedHeaderAt data i).2 := by
    simp only [scannedHeaderAt] at hstop ⊢
    rw [← hp']
    split
    · unfold saturatingAdd
      omega
    · cases hsig : nextSignature data p with
      | none => exact hlen
      | some j =>
          have hj := le_nextSignature hsig
          dsimp only [Option.getD_some]
          omega
  unfold resumeAt
  split <;> omega

/-- Each header of the scan begins where the one before it has ended. -/
def Apart (data : Bytes) (entries : List ZipEntry) : Prop :=
  entries.Pairwise fun a b ↦ a.localHeaderOffset < b.localHeaderOffset ∧
    ∀ r ∈ extent data a, r.2 ≤ b.localHeaderOffset

theorem scanLocalFrom_apart (hd : data.length ≤ wordMax) {horizon i : ℕ}
    {entries : List ZipEntry} (hapart : Apart data entries)
    (hbefore : ∀ a ∈ entries, a.localHeaderOffset < i ∧ ∀ r ∈ extent data a, r.2 ≤ i) :
    Apart data (scanLocalFrom data policy horizon i entries).1 := by
  fun_induction scanLocalFrom data policy horizon i entries with
  | case1 => exact hapart
  | case2 i entries _ _ _ ih =>
      refine ih hapart fun a ha ↦ ?_
      obtain ⟨hlt, hle⟩ := hbefore a ha
      exact ⟨by omega, fun r hr ↦ (hle r hr).trans (Nat.le_succ i)⟩
  | case3 i entries _ _ _ e next hscan ih =>
      have he : e = (scannedHeaderAt data i).1 := (congrArg Prod.fst hscan).symm
      have hresume : (if i < next then next else i + 1) = resumeAt data i := by
        rw [resumeAt, hscan]
      have hlt := lt_resumeAt data i
      have hoff : e.localHeaderOffset = i := by rw [he]; rfl
      simp only [dite_eq_ite, hresume] at ih ⊢
      refine ih ?_ fun a ha ↦ ?_
      · refine List.pairwise_append.mpr ⟨hapart, List.pairwise_singleton _ _, fun a ha b hb ↦ ?_⟩
        rw [List.mem_singleton.mp hb, hoff]
        exact hbefore a ha
      · rcases List.mem_append.mp ha with ha | ha
        · obtain ⟨hai, hle⟩ := hbefore a ha
          exact ⟨by omega, fun r hr ↦ (hle r hr).trans hlt.le⟩
        · rw [List.mem_singleton.mp ha, hoff]
          exact ⟨hlt, fun r hr ↦ extent_scanned_le hd (he ▸ hr)⟩
  | case4 => exact hapart

theorem scanLocalFrom_length_le {horizon i : ℕ} {entries : List ZipEntry}
    (h : entries.length ≤ policy.maxCandidateRecords) :
    (scanLocalFrom data policy horizon i entries).1.length ≤ policy.maxCandidateRecords := by
  fun_induction scanLocalFrom data policy horizon i entries with
  | case1 => exact h
  | case2 i entries _ _ _ ih => exact ih h
  | case3 i entries _ hcap _ e next hscan ih =>
      refine ih ?_
      rw [List.length_append, List.length_singleton]
      omega
  | case4 => exact h

/-! ## What is listed -/

/-- Of two headers of the scan one lies behind the other. -/
theorem Apart.before {entries : List ZipEntry} (h : Apart data entries) {a b : ZipEntry}
    (ha : a ∈ entries) (hb : b ∈ entries) (hne : a ≠ b) :
    (a.localHeaderOffset < b.localHeaderOffset ∧ ∀ r ∈ extent data a, r.2 ≤ b.localHeaderOffset) ∨
      (b.localHeaderOffset < a.localHeaderOffset ∧
        ∀ r ∈ extent data b, r.2 ≤ a.localHeaderOffset) := by
  induction entries with
  | nil => simp at ha
  | cons c rest ih =>
      obtain ⟨hfirst, hrest⟩ := List.pairwise_cons.mp h
      rcases List.mem_cons.mp ha with rfl | ha'
      · rcases List.mem_cons.mp hb with rfl | hb'
        · exact absurd rfl hne
        · exact .inl (hfirst b hb')
      · rcases List.mem_cons.mp hb with rfl | hb'
        · exact .inr (hfirst a ha')
        · exact ih hrest ha' hb'

/-- Without directory records every scanned header is admitted that no embedded archive owns and
whose extent can be measured. -/
theorem mem_reconcile_of_apart {containers : ContainerOwnershipMap} {scanned : List ZipEntry}
    {start : Option ℕ} (hapart : Apart data scanned)
    (hcap : scanned.length ≤ policy.maxCandidateRecords) {e : ZipEntry} :
    e ∈ (reconcileCdAndScan data [] scanned start containers policy).entries ↔
      e ∈ scanned ∧ (containers.ownerOf e.localHeaderOffset).isSome = false ∧
        (extent data e).isSome = true := by
  obtain ⟨added, hrun⟩ := ReconcileState.considerAll_run data containers policy
    (reconcileStart data [] start containers) scanned
  have hentries : e ∈ (reconcileCdAndScan data [] scanned start containers policy).entries ↔
      e ∈ added := by
    refine (List.mem_insertionSort ZipEntry.Before).trans ?_
    rw [hrun.entries]
    simp [reconcileStart]
  rw [hentries]
  constructor
  · intro he
    obtain ⟨r, hr⟩ := hrun.admitted e he
    exact ⟨hrun.sublist.subset he, hr.unowned, by rw [hr.extent_eq]; rfl⟩
  · rintro ⟨he, hunowned, hsome⟩
    rcases hrun.settled with hfull | hsettled
    · -- the cap leaves room for every scanned header
      have hlength : scanned.length ≤ added.length := by
        rw [hrun.entries] at hfull
        simp only [reconcileStart, List.filter_nil, List.nil_append] at hfull
        omega
      rwa [hrun.sublist.eq_of_length_le hlength]
    · obtain ⟨r, hr⟩ := Option.isSome_iff_exists.mp hsome
      obtain ⟨r', hrange, rfl⟩ := Option.map_eq_some_iff.mp hr
      by_contra hnot
      have hbefore : ∀ a ∈ added, _ := fun a ha ↦
        hapart.before (hrun.sublist.subset ha) he fun heq ↦ hnot (heq ▸ ha)
      refine hsettled e he r' ⟨hunowned, fun hoff ↦ ?_, hrange, fun q hq hm ↦ ?_⟩
      · rw [hrun.byOffset] at hoff
        simp only [reconcileStart, List.map_nil, List.nil_append, List.mem_map] at hoff
        obtain ⟨a, ha, heq⟩ := hoff
        rcases hbefore a ha with ⟨hlt, -⟩ | ⟨hlt, -⟩
        · omega
        · omega
      · rw [hrun.claimed, List.mem_append, List.mem_filterMap] at hq
        rcases hq with hq | ⟨a, ha, hq⟩
        · simp [reconcileStart, claimedRanges, declaredOffsets] at hq
        · obtain ⟨hastart, -⟩ := extent_eq_some hq
          obtain ⟨hestart, -⟩ := extent_eq_some hr
          obtain ⟨hlo, hhi⟩ := hm
          rcases hbefore a ha with ⟨-, hle⟩ | ⟨-, hle⟩
          · have hstop := hle q hq
            dsimp only at hestart hlo
            omega
          · have hstop := hle _ hr
            dsimp only at hstop
            omega

/-- Where no directory record was read, the scanned headers are listed that no embedded archive
owns and that can be measured, and only those. -/
theorem mem_parse_of_unread (h : (readDirectory data policy).out.entries = [])
    (hd : data.length ≤ wordMax) {e : ZipEntry} :
    e ∈ (parseZipWithPolicy data policy).entries ↔
      e ∈ (scanLocalHeadersBounded data policy).1 ∧
        ((ContainerOwnershipMap.detect data policy).ownerOf e.localHeaderOffset).isSome = false ∧
        (extent data e).isSome = true := by
  rw [parse_of_unread h]
  exact mem_reconcile_of_apart (scanLocalFrom_apart hd List.Pairwise.nil (by simp))
    (scanLocalFrom_length_le (Nat.zero_le _))

/-- A file without a directory lists the scanned headers that can be measured, and only those. -/
theorem mem_parse_iff (h : NoDirectory data) (hd : data.length ≤ wordMax)
    (policy : ZipRecoveryPolicy) {e : ZipEntry} :
    e ∈ (parseZipWithPolicy data policy).entries ↔
      e ∈ (scanLocalHeadersBounded data policy).1 ∧ (extent data e).isSome = true := by
  rw [mem_parse_of_unread (readDirectory_of_noDirectory h policy) hd, detect_of_noDirectory h]
  simp only [ownerOf_empty, Option.isSome_none, true_and]

end VeraqisRecover.Zip
