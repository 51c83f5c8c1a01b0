import VeraqisRecover.Zip.Host

/-!
# Adopting a directory

Once the reader has adopted a directory, reconciliation with the physical
headers moves offsets and changes nothing else; a record whose own offset
carries its name is not moved at all.
-/

namespace VeraqisRecover.Zip

open ByteString LossyUtf8

/-- A function on entries that changes nothing but local-header offsets. -/
def MovesOnly (f : ZipEntry → ZipEntry) : Prop :=
  ∀ e, f e = { e with localHeaderOffset := (f e).localHeaderOffset }

theorem repoint_movesOnly (data : Bytes) (index : LocalHeaderIndex) (map : OffsetMap) :
    MovesOnly (repoint data index map) := by
  intro e
  unfold repoint
  split <;> rfl

/-- A record whose own offset carries its name stays. -/
theorem repoint_of_named {data : Bytes} {index : LocalHeaderIndex} {map : OffsetMap}
    {e : ZipEntry} (h : headerNamedAt data e.localHeaderOffset (asBytes e.name) = true) :
    repoint data index map e = e := by
  simp [repoint, repointTarget, h]

/-- The offset map of a directory, with the index it was observed through. -/
def inferMap (data : Bytes) (policy : ZipRecoveryPolicy) (entries : List ZipEntry) :
    OffsetMap × LocalHeaderIndex :=
  let (observations, index) :=
    entries.foldl (observe data) ([], LocalHeaderIndex.build data policy)
  (OffsetMap.infer observations policy.maxOffsetSegments, index)

/-- What reconciliation does to one entry. -/
def reconciled (data : Bytes) (policy : ZipRecoveryPolicy) (entries : List ZipEntry)
    (e : ZipEntry) : ZipEntry :=
  let (map, index) := inferMap data policy entries
  if map.isUsable then repoint data index map e else e

theorem reconciled_movesOnly (data : Bytes) (policy : ZipRecoveryPolicy)
    (entries : List ZipEntry) : MovesOnly (reconciled data policy entries) := by
  intro e
  unfold reconciled
  dsimp only
  split
  · exact repoint_movesOnly _ _ _ e
  · rfl

theorem reconciled_of_named {data : Bytes} {policy : ZipRecoveryPolicy}
    {entries : List ZipEntry} {e : ZipEntry}
    (h : headerNamedAt data e.localHeaderOffset (asBytes e.name) = true) :
    reconciled data policy entries e = e := by
  unfold reconciled
  dsimp only
  split
  · exact repoint_of_named h
  · rfl

theorem map_ite (u : Bool) (f : ZipEntry → ZipEntry) (l : List ZipEntry) :
    (if u = true then l.map f else l) = l.map fun e ↦ if u = true then f e else e := by
  cases u <;> simp

/-- Reconciliation maps the entries and leaves the rest of what adoption established. -/
theorem reconcileDirectory_adopted {H : Host} {st : ParseState} (h : H.Adopted st)
    (hne : H.rs ≠ []) (policy : ZipRecoveryPolicy) :
    let st' := reconcileDirectory H.data policy st
    st'.out.entries = (H.rs.map DirRecord.entry).map
        (reconciled H.data policy (H.rs.map DirRecord.entry)) ∧
      st'.out.cdFound = true ∧ st'.declaredCount = some H.count ∧
      st'.cdRegionStart = some H.start ∧ st'.out.scanOnlyEntries = 0 ∧ st'.out.conflicts = [] ∧
      st'.out.rejectedCandidates = [] := by
  have hent : st.out.entries ≠ [] := by simp [h.entries, hne]
  intro st'
  have hst' : st' = reconcileDirectory H.data policy st := rfl
  unfold reconcileDirectory at hst'
  rw [if_neg hent] at hst'
  rw [hst', ← h.entries]
  refine ⟨?_, h.cdFound, h.declaredCount, h.cdRegionStart, h.scanOnly, h.conflicts, h.rejected⟩
  exact map_ite _ _ _

theorem recoverSurvivingCd_of_entries {data : Bytes} {policy : ZipRecoveryPolicy}
    {containers : ContainerOwnershipMap} {st : ParseState} (h : st.out.entries ≠ []) :
    recoverSurvivingCd data policy containers st = st := if_pos h

/-- Reading a host whose directory is located and not owned. -/
theorem readDirectory_host {H : Host} {policy : ZipRecoveryPolicy} (hv : H.Valid)
    (hadm : Admits policy H.rs)
    (hstart : cdfhAt H.data H.cdOffset = true → H.cdOffset = H.start)
    (hown : ((ContainerOwnershipMap.detect H.data policy).ownerOf H.start).isSome = false) :
    let st := readDirectory H.data policy
    st.out.entries = (H.rs.map DirRecord.entry).map
        (reconciled H.data policy (H.rs.map DirRecord.entry)) ∧
      st.out.cdFound = true ∧ st.declaredCount = some H.count ∧
      st.cdRegionStart = some H.start ∧ st.out.scanOnlyEntries = 0 ∧ st.out.conflicts = [] ∧
      st.out.rejectedCandidates = [] := by
  have hadopt := Host.followEocd_adopts hv hadm hstart hown
  have hne : (followEocd H.data policy
      (ContainerOwnershipMap.detect H.data policy)).out.entries ≠ [] := by
    rw [hadopt.entries]
    simp [hv.nonempty]
  rw [show readDirectory H.data policy = reconcileDirectory H.data policy
    (recoverSurvivingCd H.data policy (ContainerOwnershipMap.detect H.data policy)
      (followEocd H.data policy (ContainerOwnershipMap.detect H.data policy))) from rfl,
    recoverSurvivingCd_of_entries hne]
  exact reconcileDirectory_adopted hadopt hv.nonempty policy

@[simp] theorem noteCount_cdCountConsistent (st : ParseState) :
    (noteCount st).cdCountConsistent = (st.out.cdFound &&
      st.declaredCount = some st.out.entries.length && 0 < st.out.entries.length) := by
  unfold noteCount
  dsimp only
  split
  · split <;> rfl
  · rfl

end VeraqisRecover.Zip
