import VeraqisRecover.Zip.Adoption

/-!
# What an accepted chain has shown

A chain is accepted only when it agrees with the EOCD about count, size and
boundary.  It therefore starts exactly one directory size before the EOCD.
-/

namespace VeraqisRecover.Zip

open ByteString LossyUtf8

namespace CdScan

theorem walkChain_le {data : Bytes} {pos : ℕ} {records : List CdRecord} :
    pos ≤ (walkChain data pos records).2 := by
  fun_induction walkChain data pos records with
  | case1 pos records hlt hrec => exact le_refl _
  | case2 pos records hlt r hrec hb ih => omega
  | case3 => exact le_refl _

/-- What every recorded candidate satisfies. -/
structure CdCandidate.Sound (data : Bytes) (c : CdCandidate) : Prop where
  le : c.start ≤ c.stop
  byteLen : c.byteLen = c.stop - c.start
  consistent : c.eocdConsistent =
    CdScan.eocdConsistent (declaredEocd data) c.recordCount c.byteLen c.stop
  proven : c.isProven = true → c.eocdConsistent = true

theorem judge_sound {data : Bytes} {lfh : List (Text × ℕ)} {records : List CdRecord}
    {c : CdCandidate} (hle : c.start ≤ c.stop) (hlen : c.byteLen = c.stop - c.start)
    (hcons : c.eocdConsistent =
      CdScan.eocdConsistent (declaredEocd data) c.recordCount c.byteLen c.stop) :
    (judge data lfh records c).Sound data := by
  unfold judge
  dsimp only
  split
  · exact ⟨hle, hlen, hcons, by simp [CdCandidate.isProven]⟩
  · split
    · exact ⟨hle, hlen, hcons, by simp [CdCandidate.isProven]⟩
    · split
      · exact ⟨hle, hlen, hcons, by simp [CdCandidate.isProven]⟩
      · split
        · exact ⟨hle, hlen, hcons, by simp [CdCandidate.isProven]⟩
        · rename_i hc
          exact ⟨hle, hlen, hcons, fun _ ↦ by simpa using hc⟩
  · exact ⟨hle, hlen, hcons, by simp [CdCandidate.isProven]⟩

theorem validateStart_sound {data : Bytes} {lfh : List (Text × ℕ)}
    {acc : ℕ × List CdCandidate} (start : ℕ) (h : ∀ c ∈ acc.2, c.Sound data) :
    ∀ c ∈ (validateStart data lfh (declaredEocd data) acc start).2, c.Sound data := by
  unfold validateStart
  split
  · exact h
  · dsimp only
    split
    · exact h
    · intro c hc
      rcases List.mem_append.mp hc with hc | hc
      · exact h c hc
      · rw [List.mem_singleton.mp hc]
        exact judge_sound walkChain_le rfl rfl

theorem foldl_validateStart_sound (data : Bytes) (lfh : List (Text × ℕ)) (starts : List ℕ)
    (acc : ℕ × List CdCandidate) (h : ∀ c ∈ acc.2, c.Sound data) :
    ∀ c ∈ (starts.foldl (validateStart data lfh (declaredEocd data)) acc).2, c.Sound data := by
  induction starts generalizing acc with
  | nil => exact h
  | cons start starts ih => exact ih _ (validateStart_sound start h)

/-- The accepted candidate is sound and proven. -/
theorem accepted_sound {data : Bytes} {c : CdCandidate}
    (h : (scanSurvivingCd data).acceptedCandidate = some c) :
    c.Sound data ∧ c.isProven = true := by
  unfold scanSurvivingCd at h
  split at h
  · simp [CdScanReport.acceptedCandidate] at h
  · dsimp only at h
    have hall := foldl_validateStart_sound data (indexLocalHeaders data) (signatureStarts data)
      (0, []) (by simp)
    split at h
    · simp [CdScanReport.acceptedCandidate] at h
    · rename_i i hi
      have hmem : i ∈ [i] := List.mem_singleton_self i
      rw [← hi, List.mem_filter] at hmem
      simp only [CdScanReport.acceptedCandidate, Option.bind_some] at h
      rw [h] at hmem
      exact ⟨hall c (List.mem_of_getElem? h), by simpa using hmem.2⟩
    · simp [CdScanReport.acceptedCandidate] at h

/-- An accepted chain ends at the EOCD and has its declared count and size. -/
theorem accepted_consistent {data : Bytes} {c : CdCandidate}
    (h : (scanSurvivingCd data).acceptedCandidate = some c) :
    c.start ≤ c.stop ∧ findEocd data = some c.stop ∧
      u16le data (c.stop + 10) = some c.recordCount ∧
      u32le data (c.stop + 12) = some (c.stop - c.start) := by
  obtain ⟨hs, hproven⟩ := accepted_sound h
  have hcons := hs.proven hproven
  rw [hs.consistent] at hcons
  unfold declaredEocd at hcons
  cases he : findEocd data with
  | none => simp [he, eocdConsistent] at hcons
  | some e =>
      simp only [he, eocdConsistent] at hcons
      cases hc : u16le data (e + 10) with
      | none => simp [hc] at hcons
      | some count =>
          cases hsz : u32le data (e + 12) with
          | none => simp [hc, hsz] at hcons
          | some size =>
              simp only [hc, hsz, Bool.and_eq_true, decide_eq_true_eq] at hcons
              obtain ⟨⟨rfl, rfl⟩, rfl⟩ := hcons
              exact ⟨hs.le, rfl, hc, hs.byteLen ▸ hsz⟩

end CdScan

namespace Host

variable {H : Host}

theorem lastEocdIn_last {data : Bytes} (start : ℕ) {last : ℕ} (h : start ≤ last)
    (hsig : u32le data last = some eocdSig) :
    CdScan.lastEocdIn data start (last + 1) = some last := by
  obtain ⟨n, rfl⟩ := Nat.exists_eq_add_of_le h
  rw [CdScan.lastEocdIn, show start + n + 1 - start = n + 1 by omega, List.range'_concat,
    List.reverse_append]
  simp [hsig]

/-- The scan's own EOCD search agrees with the reader's on a host. -/
theorem cdScan_findEocd (hv : H.Valid) : CdScan.findEocd H.data = some H.eocd := by
  have hlen := H.length_data
  have hsub : checkedSub H.data.length 21 = some (H.eocd + 1) := by
    rw [checkedSub_of_le (by omega)]
    congr 1
    omega
  have hlast := lastEocdIn_last (H.data.length - 65557) (by omega) (H.eocd_fields hv).1
  rw [CdScan.findEocd, hsub, Option.bind_eq_bind, Option.bind_some, hlast]

/-- On a host, an accepted chain starts where the directory does. -/
theorem accepted_start (hv : H.Valid) {c : CdScan.CdCandidate}
    (h : (CdScan.scanSurvivingCd H.data).acceptedCandidate = some c) : c.start = H.start := by
  obtain ⟨hle, he, -, hsize⟩ := CdScan.accepted_consistent h
  obtain ⟨-, -, hsz, -⟩ := H.eocd_fields hv
  rw [H.cdScan_findEocd hv, Option.some.injEq] at he
  rw [← he, hsz, Option.some.injEq] at hsize
  unfold start
  unfold eocd at *
  omega

/-- A directory whose start an embedded archive owns is adopted on no path. -/
theorem readDirectory_of_owned {policy : ZipRecoveryPolicy} (hv : H.Valid)
    (hstart : cdfhAt H.data H.cdOffset = true → H.cdOffset = H.start)
    (hown : ((ContainerOwnershipMap.detect H.data policy).ownerOf H.start).isSome = true) :
    (readDirectory H.data policy).out.entries = [] := by
  obtain ⟨-, htotal, hsize, hoffset, -⟩ := H.eocd_fields hv
  have hdir : (directoryStart H.data H.eocd (dirBytes H.rs).length H.cdOffset).cdStart =
      H.start := by
    rw [directoryStart_data hv]
    split
    · exact hstart ‹_›
    · rfl
  have hfollow : (followEocd H.data policy
      (ContainerOwnershipMap.detect H.data policy)).out.entries = [] := by
    unfold followEocd
    simp only [findEocd_data hv, htotal, hsize, hoffset, locateDirectory, hdir, hown, if_true]
    rw [if_neg (by omega)]
  have hrecover : (recoverSurvivingCd H.data policy (ContainerOwnershipMap.detect H.data policy)
      (followEocd H.data policy (ContainerOwnershipMap.detect H.data policy))).out.entries =
        [] := by
    unfold recoverSurvivingCd
    rw [if_neg (by simp [hfollow])]
    split
    · exact hfollow
    · rename_i c hc
      rw [accepted_start hv hc, if_pos hown]
      exact hfollow
  unfold readDirectory reconcileDirectory
  dsimp only
  rw [if_pos hrecover]
  exact hrecover

end Host

end VeraqisRecover.Zip
