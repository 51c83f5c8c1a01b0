import VeraqisRecover.Zip.Build
import VeraqisRecover.Zip.Parse
import VeraqisRecover.Zip.StoredCodec

/-!
# Members of embedded archives

The map `detect` builds is sorted by base, so an offset is owned exactly when
some validated archive contains it.  Reconciliation withholds owned directory
records and owned candidates alike; a directory judged complete is returned as
it was read.
-/

namespace VeraqisRecover.Zip

open ByteString

namespace ContainerOwnershipMap

/-- The archives stand in base order. -/
def Sorted (m : ContainerOwnershipMap) : Prop := m.archives.Pairwise (·.base ≤ ·.base)

theorem foldl_owner_isSome (offset : ℕ) (l : List EmbeddedArchive)
    (best : Option EmbeddedArchive) :
    (l.foldl (fun best a ↦
      if a.contains offset && best.all (fun b ↦ b.base < a.base) then some a else best)
        best).isSome = (best.isSome || l.any (·.contains offset)) := by
  induction l generalizing best with
  | nil => simp
  | cons a l ih =>
      rw [List.foldl_cons, ih, List.any_cons]
      cases best <;> cases ha : a.contains offset <;> simp
      split <;> simp

theorem mem_takeWhile_base {l : List EmbeddedArchive} (h : l.Pairwise (·.base ≤ ·.base))
    {a : EmbeddedArchive} {offset : ℕ} (ha : a ∈ l) (hle : a.base ≤ offset) :
    a ∈ l.takeWhile fun b ↦ b.base ≤ offset := by
  induction l with
  | nil => simp at ha
  | cons b l ih =>
      obtain ⟨hb, hl⟩ := List.pairwise_cons.mp h
      rcases List.mem_cons.mp ha with rfl | ha
      · simp [hle]
      · have hbo : b.base ≤ offset := (hb a ha).trans hle
        simp [hbo, ih hl ha]

/-- An offset is owned exactly when some archive of the map contains it. -/
theorem ownerOf_isSome_iff {m : ContainerOwnershipMap} (h : m.Sorted) (offset : ℕ) :
    (m.ownerOf offset).isSome = true ↔ ∃ a ∈ m.archives, a.contains offset = true := by
  rw [ownerOf, foldl_owner_isSome]
  simp only [Option.isSome_none, Bool.false_or, List.any_eq_true, List.mem_reverse]
  constructor
  · rintro ⟨a, ha, hc⟩
    exact ⟨a, (List.takeWhile_sublist _).subset ha, hc⟩
  · rintro ⟨a, ha, hc⟩
    have hbase : a.base ≤ offset := by
      simp only [EmbeddedArchive.contains, Bool.and_eq_true, decide_eq_true_eq] at hc
      exact hc.1
    exact ⟨a, mem_takeWhile_base h ha hbase, hc⟩

theorem detect_sorted (data : Bytes) (policy : ZipRecoveryPolicy) :
    (detect data policy).Sorted := by
  have htotal : Std.Total EmbeddedArchive.Before :=
    ⟨fun a b ↦ by unfold EmbeddedArchive.Before; omega⟩
  have htrans : IsTrans EmbeddedArchive EmbeddedArchive.Before :=
    ⟨fun a b c ↦ by unfold EmbeddedArchive.Before; omega⟩
  unfold detect
  split
  · exact List.Pairwise.nil
  · refine ((List.pairwise_insertionSort EmbeddedArchive.Before _).sublist
      (List.destutter_sublist _ _)).imp fun {a b} hab ↦ ?_
    rcases hab with h | h <;> omega

end ContainerOwnershipMap

/-- No validated embedded archive contains the entry's local header. -/
def Outside (data : Bytes) (policy : ZipRecoveryPolicy) (e : ZipEntry) : Prop :=
  ∀ a ∈ (ContainerOwnershipMap.detect data policy).archives,
    a.contains e.localHeaderOffset = false

theorem outside_iff (data : Bytes) (policy : ZipRecoveryPolicy) (e : ZipEntry) :
    Outside data policy e ↔
      ((ContainerOwnershipMap.detect data policy).ownerOf e.localHeaderOffset).isSome = false := by
  rw [← Bool.not_eq_true, ContainerOwnershipMap.ownerOf_isSome_iff
    (ContainerOwnershipMap.detect_sorted data policy)]
  simp [Outside]

/-! ## The reconciled path -/

namespace ReconcileState

variable {data : Bytes} {containers : ContainerOwnershipMap}

/-- One candidate adds at most itself, and only when no embedded archive owns it. -/
theorem consider_entries (data : Bytes) (containers : ContainerOwnershipMap)
    (s : ReconcileState) (cand : ZipEntry) :
    (s.consider data containers cand).entries = s.entries ∨
      (s.consider data containers cand).entries = s.entries ++ [cand] ∧
        (containers.ownerOf cand.localHeaderOffset).isSome = false := by
  unfold consider
  split
  · exact .inl rfl
  · rename_i hown
    split
    · exact .inl rfl
    · split
      · exact .inl rfl
      · split
        · exact .inl rfl
        · split
          · exact .inl rfl
          · exact .inr ⟨rfl, by simpa using hown⟩

/-- The candidate loop keeps every entry outside the embedded archives. -/
theorem considerAll_unowned {policy : ZipRecoveryPolicy} (s : ReconcileState)
    (scanned : List ZipEntry)
    (h : ∀ e ∈ s.entries, (containers.ownerOf e.localHeaderOffset).isSome = false) :
    ∀ e ∈ (considerAll data containers policy s scanned).entries,
      (containers.ownerOf e.localHeaderOffset).isSome = false := by
  induction scanned generalizing s with
  | nil => exact h
  | cons cand rest ih =>
      rw [considerAll]
      split
      · exact h
      · refine ih _ fun e he ↦ ?_
        rcases consider_entries data containers s cand with
          heq | ⟨heq, hown⟩
        · exact h e (heq ▸ he)
        · rw [heq] at he
          rcases List.mem_append.mp he with he | he
          · exact h e he
          · exact List.mem_singleton.mp he ▸ hown

end ReconcileState

theorem reconcile_unowned (data : Bytes) (central scanned : List ZipEntry)
    (cdRegionStart : Option ℕ) (containers : ContainerOwnershipMap)
    (policy : ZipRecoveryPolicy) :
    ∀ e ∈ (reconcileCdAndScan data central scanned cdRegionStart containers policy).entries,
      (containers.ownerOf e.localHeaderOffset).isSome = false := by
  intro e he
  refine ReconcileState.considerAll_unowned _ scanned (fun e' he' ↦ ?_) e
    ((List.mem_insertionSort ZipEntry.Before).mp he)
  simpa using (List.mem_filter.mp he').2

/-- Whatever the directory said, nothing the merge returns lies inside an embedded archive. -/
theorem mergeScan_outside (data : Bytes) (policy : ZipRecoveryPolicy) (st : ParseState) :
    ∀ e ∈ (mergeScan data policy st).entries, Outside data policy e := by
  intro e he
  rw [outside_iff]
  exact reconcile_unowned data _ _ _ _ policy e he

/-! ## Both paths -/

@[simp] theorem noteCount_entries (st : ParseState) : (noteCount st).entries = st.out.entries := by
  unfold noteCount
  dsimp only
  split
  · split <;> rfl
  · rfl

theorem parseZipWithPolicy_of_complete {data : Bytes} {policy : ZipRecoveryPolicy}
    (h : cdComplete data (readDirectory data policy) = true) :
    parseZipWithPolicy data policy = noteCount (readDirectory data policy) := if_pos h

theorem parseZipWithPolicy_of_incomplete {data : Bytes} {policy : ZipRecoveryPolicy}
    (h : cdComplete data (readDirectory data policy) = false) :
    parseZipWithPolicy data policy = mergeScan data policy (readDirectory data policy) :=
  if_neg (by simp [h])

/-- A stored inner archive whose member the outer directory lists a second time. -/
def nestedRecordArchive : Bytes :=
  let fl := storedFlate
  let inner : Part := ⟨['x'], [0x01]⟩
  let outer : Part := ⟨['i'], encodeZip fl [inner]⟩
  let body := localRecord fl outer
  let cd := centralRecord fl outer 0 ++ centralRecord fl inner 31
  body ++ cd ++ endRecord 2 cd.length body.length

end VeraqisRecover.Zip
