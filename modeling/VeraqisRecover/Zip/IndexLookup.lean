import VeraqisRecover.Zip.Adoption

/-!
# The header index as a plain list

Buckets and offset table are bookkeeping: a lookup by name is a filter of the
records by their raw names, whatever the hash does, and a lookup by offset finds
a record standing there exactly when there is one.  Observing a directory
changes the index's counters only, so every record is matched against the same
headers.
-/

namespace VeraqisRecover.Zip

open ByteString LossyUtf8

namespace LocalHeaderIndex

/-- Buckets and offset table agree with the records. -/
structure WellIndexed (data : Bytes) (idx : LocalHeaderIndex) : Prop where
  slot_lt : ∀ h, ∀ slot ∈ idx.byName h, slot < idx.records.length
  bucket : ∀ h, (idx.byName h).filterMap (idx.records[·]?) =
    idx.records.filter fun r ↦ (r.rawName data).map nameHash = some h
  at_some : ∀ o slot, idx.byOffset o = some slot →
    ∃ r, idx.records[slot]? = some r ∧ r.offset = o
  at_none : ∀ o, idx.byOffset o = none → ∀ r ∈ idx.records, r.offset ≠ o

variable {data : Bytes} {idx : LocalHeaderIndex}

theorem empty_wellIndexed : WellIndexed data empty :=
  ⟨by simp [empty], by simp [empty], by simp [empty], by simp [empty]⟩

theorem filterMap_getElem?_append {l : List LocalHeaderRecord} (r : LocalHeaderRecord)
    {slots : List ℕ} (h : ∀ slot ∈ slots, slot < l.length) :
    slots.filterMap ((l ++ [r])[·]?) = slots.filterMap (l[·]?) :=
  List.filterMap_congr fun slot hslot ↦ List.getElem?_append_left (h slot hslot)

theorem WellIndexed.push (h : WellIndexed data idx) {name : Bytes} {r : LocalHeaderRecord}
    (hname : r.rawName data = some name) : WellIndexed data (idx.push name r) where
  slot_lt := by
    intro k slot hslot
    simp only [LocalHeaderIndex.push, List.length_append, List.length_singleton] at hslot ⊢
    by_cases hk : k = nameHash name
    · subst hk
      rw [Function.update_self, List.mem_append] at hslot
      rcases hslot with hs | hs
      · exact Nat.lt_succ_of_lt (h.slot_lt _ slot hs)
      · rw [List.mem_singleton.mp hs]
        exact Nat.lt_succ_self _
    · rw [Function.update_of_ne hk] at hslot
      exact Nat.lt_succ_of_lt (h.slot_lt k slot hslot)
  bucket := by
    intro k
    simp only [LocalHeaderIndex.push, List.filter_append]
    by_cases hk : k = nameHash name
    · subst hk
      rw [Function.update_self, List.filterMap_append,
        filterMap_getElem?_append r (h.slot_lt _), h.bucket]
      simp [hname]
    · rw [Function.update_of_ne hk, filterMap_getElem?_append r (h.slot_lt _), h.bucket]
      simp [hname, Ne.symm hk]
  at_some := by
    intro o slot ho
    simp only [LocalHeaderIndex.push] at ho ⊢
    by_cases hr : o = r.offset
    · subst hr
      rw [Function.update_self, Option.some.injEq] at ho
      subst ho
      exact ⟨r, by simp, rfl⟩
    · rw [Function.update_of_ne hr] at ho
      obtain ⟨r', hr', hoff⟩ := h.at_some o slot ho
      obtain ⟨hlt, -⟩ := List.getElem?_eq_some_iff.mp hr'
      exact ⟨r', by rw [List.getElem?_append_left hlt, hr'], hoff⟩
  at_none := by
    intro o ho r' hr'
    simp only [LocalHeaderIndex.push] at ho hr'
    by_cases hr : o = r.offset
    · subst hr
      simp at ho
    · rw [Function.update_of_ne hr] at ho
      rcases List.mem_append.mp hr' with hr' | hr'
      · exact h.at_none o ho r' hr'
      · rw [List.mem_singleton.mp hr']
        exact Ne.symm hr

theorem plausibleHeader_rawName {policy : ZipRecoveryPolicy} {i : ℕ} {name : Bytes}
    {r : LocalHeaderRecord} (h : plausibleHeader data policy i = some (name, r)) :
    r.rawName data = some name ∧ r.offset = i := by
  simp only [plausibleHeader, Option.bind_eq_bind, Option.bind_eq_some_iff,
    Option.ite_none_left_eq_some, Option.some.injEq, Prod.mk.injEq] at h
  obtain ⟨-, nameEnd, hend, dataStart, -, -, name', hslice, rfl, rfl⟩ := h
  refine ⟨?_, rfl⟩
  simp [LocalHeaderRecord.rawName, hend, hslice]

/-- A plausible header is one carrying its name. -/
theorem plausibleHeader_named {policy : ZipRecoveryPolicy} {i : ℕ} {name : Bytes}
    {r : LocalHeaderRecord} (h : plausibleHeader data policy i = some (name, r))
    (hsig : u32le data i = some lfhSig) : headerNamedAt data i name = true := by
  simp only [plausibleHeader, Option.bind_eq_bind, Option.bind_eq_some_iff,
    Option.ite_none_left_eq_some, Option.some.injEq, Prod.mk.injEq, checkedAdd_eq_some] at h
  obtain ⟨hpos, _, ⟨hend, rfl⟩, _, ⟨-, rfl⟩, hle, name', hslice, rfl, -⟩ := h
  have hlen := length_of_slice? hslice
  rw [Nat.add_sub_cancel_left] at hlen
  have hname : u16le data (i + 26) = some name'.length := by
    cases hu : u16le data (i + 26) with
    | none => simp [hu] at hpos
    | some v => simpa [hu, eq_comm] using hlen
  rw [headerNamedAt, localHeaderPresent, checkedAdd_of_le (by omega)]
  rw [← hlen] at hslice
  simp only [Option.any_some, hsig, hname, hslice, decide_true, Bool.and_true, decide_eq_true_eq]
  omega

/-- Every indexed record stands at a header carrying the record's name. -/
theorem buildFrom_named {policy : ZipRecoveryPolicy} {horizon i reads : ℕ}
    (h : ∀ r ∈ idx.records, ∀ name, r.rawName data = some name →
      headerNamedAt data r.offset name = true) :
    ∀ r ∈ (buildFrom data policy horizon i reads idx).1.records, ∀ name,
      r.rawName data = some name → headerNamedAt data r.offset name = true := by
  fun_induction buildFrom data policy horizon i reads idx with
  | case1 i reads idx _ _ ih => exact ih h
  | case2 => exact h
  | case3 i reads idx _ _ _ _ ih => exact ih h
  | case4 i reads idx _ hsig _ name r hp ih =>
      refine ih fun r' hr' name' hname' ↦ ?_
      rcases List.mem_append.mp hr' with hr' | hr'
      · exact h r' hr' name' hname'
      · obtain rfl := List.mem_singleton.mp hr'
        obtain ⟨hraw, hoff⟩ := plausibleHeader_rawName hp
        obtain rfl := Option.some.inj (hraw.symm.trans hname')
        rw [hoff]
        exact plausibleHeader_named hp (not_not.mp hsig)
  | case5 => exact h

theorem buildFrom_wellIndexed {policy : ZipRecoveryPolicy} {horizon i reads : ℕ}
    (h : WellIndexed data idx) :
    WellIndexed data (buildFrom data policy horizon i reads idx).1 := by
  fun_induction buildFrom data policy horizon i reads idx with
  | case1 i reads idx _ _ ih => exact ih h
  | case2 => exact h
  | case3 i reads idx _ _ _ _ ih => exact ih h
  | case4 i reads idx _ _ _ name r hp ih => exact ih (h.push (plausibleHeader_rawName hp).1)
  | case5 => exact h

/-- Two indexes with the same tables, whatever their counters. -/
structure SameTables (idx idx' : LocalHeaderIndex) : Prop where
  records : idx'.records = idx.records
  byName : idx'.byName = idx.byName
  byOffset : idx'.byOffset = idx.byOffset

theorem SameTables.refl (idx : LocalHeaderIndex) : SameTables idx idx := ⟨rfl, rfl, rfl⟩

theorem build_wellIndexed (data : Bytes) (policy : ZipRecoveryPolicy) :
    WellIndexed data (build data policy) := by
  have h : WellIndexed data
      (buildFrom data policy (min data.length policy.maxScanBytes) 0 0 empty).1 :=
    buildFrom_wellIndexed empty_wellIndexed
  obtain ⟨h₁, h₂, h₃, h₄⟩ := h
  exact ⟨h₁, h₂, h₃, h₄⟩

theorem build_named {policy : ZipRecoveryPolicy} {r : LocalHeaderRecord} {name : Bytes}
    (hr : r ∈ (build data policy).records) (hname : r.rawName data = some name) :
    headerNamedAt data r.offset name = true :=
  buildFrom_named (by simp [empty]) r hr name hname

/-- A lookup by name is a filter by raw name. -/
theorem candidatesNamed_eq (h : WellIndexed data idx) (name : Bytes) :
    (idx.candidatesNamed data name).1 = idx.records.filter (·.rawName data = some name) := by
  unfold candidatesNamed
  dsimp only
  rw [h.bucket, List.filter_filter]
  refine List.filter_congr fun r _ ↦ ?_
  by_cases hr : r.rawName data = some name <;> simp [hr]

/-- A lookup by offset returns a record standing there. -/
theorem atOffset_some (h : WellIndexed data idx) {o : ℕ} {r : LocalHeaderRecord}
    (hr : idx.atOffset o = some r) : r ∈ idx.records ∧ r.offset = o := by
  obtain ⟨slot, hslot, hget⟩ := Option.bind_eq_some_iff.mp hr
  obtain ⟨r', hr', hoff⟩ := h.at_some o slot hslot
  rw [hr', Option.some.injEq] at hget
  subst hget
  exact ⟨List.mem_of_getElem? hr', hoff⟩

/-- A record standing at an offset is found there, up to records at the same offset. -/
theorem atOffset_of_mem (h : WellIndexed data idx) {r : LocalHeaderRecord}
    (hr : r ∈ idx.records) : ∃ r', idx.atOffset r.offset = some r' := by
  cases hb : idx.byOffset r.offset with
  | none => exact absurd rfl (h.at_none _ hb r hr)
  | some slot =>
      obtain ⟨r', hr', -⟩ := h.at_some _ slot hb
      exact ⟨r', by simp [atOffset, hb, hr']⟩

end LocalHeaderIndex

/-! ## Observing a directory -/

/-- The observation a record gives rise to, if any. -/
def observation (data : Bytes) (idx : LocalHeaderIndex) (e : ZipEntry) :
    Option OffsetObservation :=
  if (idx.atOffset e.localHeaderOffset).any (·.rawName data = some (asBytes e.name)) then
    some ⟨e.localHeaderOffset, e.localHeaderOffset⟩
  else
    match ((idx.candidatesNamed data (asBytes e.name)).1.filter fun r ↦
        r.method = e.method && (r.crc32 = e.crc32 || r.crc32 = 0)).map (·.offset) with
    | [physical] => some ⟨e.localHeaderOffset, physical⟩
    | _ => none

theorem LocalHeaderIndex.SameTables.atOffset {idx idx' : LocalHeaderIndex}
    (h : idx.SameTables idx') (o : ℕ) : idx'.atOffset o = idx.atOffset o := by
  simp [LocalHeaderIndex.atOffset, h.records, h.byOffset]

theorem observation_congr {data : Bytes} {idx idx' : LocalHeaderIndex}
    (h : idx.SameTables idx') (e : ZipEntry) :
    observation data idx' e = observation data idx e := by
  have hnamed : ∀ name, (idx'.candidatesNamed data name).1 = (idx.candidatesNamed data name).1 :=
    fun name ↦ by simp [LocalHeaderIndex.candidatesNamed, h.records, h.byName]
  simp only [observation, h.atOffset, hnamed]

/-- One record: its observation is appended, the tables stay. -/
theorem observe_eq (data : Bytes) (acc : List OffsetObservation × LocalHeaderIndex)
    (e : ZipEntry) :
    (observe data acc e).1 = acc.1 ++ (observation data acc.2 e).toList ∧
      acc.2.SameTables (observe data acc e).2 := by
  unfold observe observation
  dsimp only
  split
  · exact ⟨rfl, .refl _⟩
  · generalize ((acc.2.candidatesNamed data (asBytes e.name)).1.filter fun r ↦
      r.method = e.method && (r.crc32 = e.crc32 || r.crc32 = 0)).map (·.offset) = offsets
    rcases offsets with _ | ⟨physical, _ | ⟨_, _⟩⟩
    · exact ⟨by simp, rfl, rfl, rfl⟩
    · exact ⟨by simp, rfl, rfl, rfl⟩
    · exact ⟨by simp, rfl, rfl, rfl⟩

/-- The whole directory is observed through the tables the index was built with. -/
theorem foldl_observe {data : Bytes} (entries : List ZipEntry)
    (acc : List OffsetObservation × LocalHeaderIndex) :
    (entries.foldl (observe data) acc).1 = acc.1 ++ entries.filterMap (observation data acc.2) ∧
      acc.2.SameTables (entries.foldl (observe data) acc).2 := by
  induction entries generalizing acc with
  | nil => exact ⟨by simp, .refl _⟩
  | cons e entries ih =>
      obtain ⟨hobs, htab⟩ := observe_eq data acc e
      obtain ⟨hobs', htab'⟩ := ih (observe data acc e)
      rw [List.foldl_cons]
      constructor
      · rw [hobs', hobs, List.append_assoc, List.filterMap_congr
          (fun x _ ↦ observation_congr htab x)]
        cases ho : observation data acc.2 e <;> simp [ho]
      · exact ⟨htab'.records.trans htab.records, htab'.byName.trans htab.byName,
          htab'.byOffset.trans htab.byOffset⟩

/-- The map of a directory is inferred from its observations alone. -/
theorem inferMap_eq (data : Bytes) (policy : ZipRecoveryPolicy) (entries : List ZipEntry) :
    (inferMap data policy entries).1 = OffsetMap.infer
        (entries.filterMap (observation data (LocalHeaderIndex.build data policy)))
        policy.maxOffsetSegments ∧
      (LocalHeaderIndex.build data policy).SameTables (inferMap data policy entries).2 := by
  obtain ⟨hobs, htab⟩ := foldl_observe entries ([], LocalHeaderIndex.build data policy)
  refine ⟨?_, htab⟩
  unfold inferMap
  dsimp only
  rw [hobs, List.nil_append]

end VeraqisRecover.Zip
