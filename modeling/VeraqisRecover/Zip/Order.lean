import VeraqisRecover.Zip.Adoption
import VeraqisRecover.Zip.Merge

/-!
# The order of the entries

The merge sorts what it returns by physical position.  A directory judged
complete is returned in the order its records are listed, each record moved by
itself.
-/

namespace VeraqisRecover.Zip

open ByteString

/-- No entry is followed by one that lies before it. -/
def InOffsetOrder (entries : List ZipEntry) : Prop :=
  entries.Pairwise fun a b ↦ a.localHeaderOffset ≤ b.localHeaderOffset

instance (entries : List ZipEntry) : Decidable (InOffsetOrder entries) :=
  inferInstanceAs (Decidable (entries.Pairwise fun a b ↦
    a.localHeaderOffset ≤ b.localHeaderOffset))

theorem ZipEntry.Before.total (a b : ZipEntry) : a.Before b ∨ b.Before a := by
  unfold ZipEntry.Before
  rcases lt_trichotomy a.localHeaderOffset b.localHeaderOffset with h | h | h
  · exact .inl (.inl h)
  · rcases le_total a.name b.name with hn | hn
    · exact .inl (.inr ⟨h, hn⟩)
    · exact .inr (.inr ⟨h.symm, hn⟩)
  · exact .inr (.inl h)

theorem ZipEntry.Before.trans {a b c : ZipEntry} (hab : a.Before b) (hbc : b.Before c) :
    a.Before c := by
  unfold ZipEntry.Before at *
  rcases hab with hab | ⟨hab, hn⟩
  · rcases hbc with hbc | ⟨hbc, -⟩
    · exact .inl (hab.trans hbc)
    · exact .inl (hbc ▸ hab)
  · rcases hbc with hbc | ⟨hbc, hn'⟩
    · exact .inl (hab ▸ hbc)
    · exact .inr ⟨hab.trans hbc, hn.trans hn'⟩

instance : Std.Total ZipEntry.Before := ⟨ZipEntry.Before.total⟩

instance : IsTrans ZipEntry ZipEntry.Before := ⟨fun _ _ _ ↦ ZipEntry.Before.trans⟩

theorem ZipEntry.Before.offset_le {a b : ZipEntry} (h : a.Before b) :
    a.localHeaderOffset ≤ b.localHeaderOffset := by
  rcases h with h | ⟨h, -⟩
  · exact h.le
  · exact h.le

theorem reconcile_pairwise_before (data : Bytes) (central scanned : List ZipEntry)
    (cdRegionStart : Option ℕ) (containers : ContainerOwnershipMap) (policy : ZipRecoveryPolicy) :
    (reconcileCdAndScan data central scanned cdRegionStart containers policy).entries.Pairwise
      ZipEntry.Before :=
  List.pairwise_insertionSort ZipEntry.Before _

theorem mergeScan_inOffsetOrder (data : Bytes) (policy : ZipRecoveryPolicy) (st : ParseState) :
    InOffsetOrder (mergeScan data policy st).entries :=
  (reconcile_pairwise_before data _ _ _ _ policy).imp ZipEntry.Before.offset_le

/-! ## The records of the adopted directory -/

/-- The records as the adopted directory lists them: the one the EOCD leads to, else the one that
survives without an EOCD. -/
def adoptedRecords (data : Bytes) (policy : ZipRecoveryPolicy) : List ZipEntry :=
  let containers := ContainerOwnershipMap.detect data policy
  (recoverSurvivingCd data policy containers (followEocd data policy containers)).out.entries

theorem reconcileDirectory_entries (data : Bytes) (policy : ZipRecoveryPolicy) (st : ParseState) :
    (reconcileDirectory data policy st).out.entries =
      st.out.entries.map (reconciled data policy st.out.entries) := by
  unfold reconcileDirectory
  dsimp only
  split
  · rename_i hnil
    rw [hnil]
    rfl
  · exact map_ite _ _ _

/-- Reconciliation keeps the listing order and moves each record by itself. -/
theorem readDirectory_entries (data : Bytes) (policy : ZipRecoveryPolicy) :
    (readDirectory data policy).out.entries = (adoptedRecords data policy).map
      (reconciled data policy (adoptedRecords data policy)) :=
  reconcileDirectory_entries data policy _

end VeraqisRecover.Zip
