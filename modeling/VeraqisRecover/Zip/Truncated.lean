import VeraqisRecover.Zip.HeaderWalk
import VeraqisRecover.Zip.RoundTrip
import VeraqisRecover.Zip.SingleDelta

/-!
# An archive cut at the front

The cut moves every header that survives it by the same amount and takes the
others away.  Survivors are found under their names, the map inferred from them
is a single shift, and reconciliation moves the survivors' records onto their
headers and leaves every other record at its stale offset.
-/

namespace VeraqisRecover.Zip

open ByteString LossyUtf8

/-- The encoder's output without its first `k` bytes, as a prefix with the written directory. -/
def cutHost (fl : Flate2) (parts : List Part) (k : ℕ) : Host :=
  { encodeHost fl parts with pre := (localRecords fl parts).drop k }

/-- Signatures stand nowhere but at the records the encoder wrote: no payload contains one, and
none is spelled by a checksum or across a field boundary. -/
structure SignaturesInPlace (fl : Flate2) (parts : List Part) : Prop where
  localHeaders : ∀ o, u32le (encodeZip fl parts) o = some lfhSig →
    ∃ q ∈ placed fl 0 parts, q.2 = o
  directory : ∀ o, u32le (encodeZip fl parts) o = some cdfhSig →
    ∃ rs r rs', dirRecords fl 0 parts = rs ++ r :: rs' ∧
      o = (localRecords fl parts).length + (dirBytes rs).length
  endRecord : ∀ o, u32le (encodeZip fl parts) o = some eocdSig →
    o + eocdLen = (encodeZip fl parts).length

/-- A cut of `k` bytes, not past the directory, that leaves a header of an archive of distinct
named parts. -/
structure HeadCut (fl : Flate2) (parts : List Part) (k : ℕ) : Prop where
  bounds : WithinBounds fl parts
  named : ∀ p ∈ parts, p.name ≠ []
  distinct : (parts.map (·.name)).Nodup
  inPlace : SignaturesInPlace fl parts
  le : k ≤ (localRecords fl parts).length
  survivor : ∃ q ∈ placed fl 0 parts, k ≤ q.2

/-- The headers at or after the cut, where the cut leaves them. -/
def survivors (fl : Flate2) (parts : List Part) (k : ℕ) : List (Part × ℕ) :=
  ((placed fl 0 parts).filter (k ≤ ·.2)).map fun q ↦ (q.1, q.2 - k)

/-- Where the record of a header at `o` points after reconciliation. -/
def landed (k o : ℕ) : ℕ := if k ≤ o then o - k else o

variable {fl : Flate2} {parts : List Part} {k : ℕ}

theorem drop_encodeZip (h : k ≤ (localRecords fl parts).length) :
    (encodeZip fl parts).drop k = (cutHost fl parts k).data := by
  rw [encodeZip_eq]
  unfold cutHost Host.data encodeHost
  dsimp only
  rw [List.append_assoc, List.drop_append_of_le_length h, List.append_assoc]

theorem length_asBytes_pos {t : Text} (h : t ≠ []) : 0 < (asBytes t).length := by
  obtain ⟨c, t, rfl⟩ := List.exists_cons_of_ne_nil h
  have hc : 0 < (String.utf8EncodeChar c).length := by
    rw [String.length_utf8EncodeChar]
    exact Char.utf8Size_pos c
  rw [asBytes, List.flatMap_cons, List.length_append]
  omega

theorem u32le_drop (d : Bytes) (a o : ℕ) : u32le (d.drop a) o = u32le d (a + o) :=
  u32le_congr fun j _ ↦ by rw [List.getElem?_drop, Nat.add_assoc]

theorem At.drop {d s : Bytes} {a o : ℕ} (h : At d o s) (ha : a ≤ o) : At (d.drop a) (o - a) s := by
  unfold At at *
  rwa [List.drop_drop, Nat.add_sub_cancel' ha]

theorem tiling_placed (fl : Flate2) (o : ℕ) (parts : List Part) :
    Tiling fl (placed fl o parts) := by
  induction parts generalizing o with
  | nil => exact List.Pairwise.nil
  | cons p parts ih =>
      exact List.pairwise_cons.mpr ⟨fun q hq ↦ (mem_placed_bounds hq).2.1, ih _⟩

/-- No two headers stand at one offset. -/
theorem eq_of_offset {q q' : Part × ℕ} (hq : q ∈ placed fl 0 parts)
    (hq' : q' ∈ placed fl 0 parts) (h : q.2 = q'.2) : q = q' := by
  have hnodup : ((placed fl 0 parts).map Prod.snd).Nodup := by
    refine List.pairwise_map.mpr ((tiling_placed fl 0 parts).imp fun {a b} hab heq ↦ ?_)
    rw [length_localRecord] at hab
    omega
  exact List.inj_on_of_nodup_map hnodup hq hq' h

theorem mem_survivors {q : Part × ℕ} :
    q ∈ survivors fl parts k ↔ (q.1, q.2 + k) ∈ placed fl 0 parts := by
  unfold survivors
  simp only [List.mem_map, List.mem_filter, decide_eq_true_eq]
  constructor
  · rintro ⟨q', ⟨hq', hle⟩, rfl⟩
    rwa [show q'.2 - k + k = q'.2 by omega]
  · intro h
    exact ⟨_, ⟨h, by simp⟩, by simp⟩

theorem tiling_survivors (k : ℕ) : Tiling fl (survivors fl parts k) := by
  unfold survivors Tiling
  rw [List.pairwise_map]
  refine ((tiling_placed fl 0 parts).filter _).imp_of_mem fun {a b} ha hb hab ↦ ?_
  have ha' := (List.mem_filter.mp ha).2
  have hb' := (List.mem_filter.mp hb).2
  simp only [decide_eq_true_eq] at ha' hb'
  dsimp only
  omega

namespace HeadCut

theorem word (h : HeadCut fl parts k) : (cutHost fl parts k).data.length ≤ wordMax := by
  rw [← drop_encodeZip h.le, List.length_drop]
  have hw := h.bounds.word
  rw [← encodeZip_eq] at hw
  omega

theorem headerAt (h : HeadCut fl parts k) {q : Part × ℕ} (hq : q ∈ placed fl 0 parts)
    (hle : k ≤ q.2) : HeaderAt fl (cutHost fl parts k).data (q.2 - k) q.1 := by
  refine Zip.headerAt ?_ (h.bounds.fits (mem_placed_bounds hq).1)
  rw [← drop_encodeZip h.le, encodeZip_eq]
  exact At.drop (at_localRecord at_localRecords hq) hle

theorem inPlace_survivors (h : HeadCut fl parts k) :
    InPlace fl (cutHost fl parts k).data (survivors fl parts k) := by
  intro q hq
  have hmem := mem_survivors.mp hq
  have hpart := (mem_placed_bounds hmem).1
  have hat := h.headerAt hmem (Nat.le_add_left k q.2)
  rw [Nat.add_sub_cancel] at hat
  exact ⟨hat, length_asBytes_pos (h.named _ hpart), h.bounds.names _ hpart⟩

theorem sig_survivors (h : HeadCut fl parts k) (o : ℕ)
    (hsig : u32le (cutHost fl parts k).data o = some lfhSig) :
    ∃ q ∈ survivors fl parts k, q.2 = o := by
  rw [← drop_encodeZip h.le, u32le_drop] at hsig
  obtain ⟨q, hq, hoff⟩ := h.inPlace.localHeaders _ hsig
  refine ⟨(q.1, o), mem_survivors.mpr ?_, rfl⟩
  dsimp only
  rwa [Nat.add_comm o k, ← hoff]

/-- Parts of the same name are the same part at the same place. -/
theorem eq_of_name (h : HeadCut fl parts k) {q q' : Part × ℕ} (hq : q ∈ placed fl 0 parts)
    (hq' : q' ∈ placed fl 0 parts) (hname : q.1.name = q'.1.name) : q = q' := by
  have hnodup : ((placed fl 0 parts).map fun q ↦ q.1.name).Nodup := by
    have hd := h.distinct
    rw [← map_fst_placed fl 0 parts, List.map_map] at hd
    exact hd
  exact List.inj_on_of_nodup_map hnodup hq hq' hname

theorem eq_of_rawName (h : HeadCut fl parts k) {q q' : Part × ℕ} (hq : q ∈ placed fl 0 parts)
    (hq' : q' ∈ placed fl 0 parts) (hname : q.1.rawName = q'.1.rawName) : q = q' :=
  h.eq_of_name hq hq' (asBytes_injective hname)

theorem length_survivors_le (h : HeadCut fl parts k) :
    (survivors fl parts k).length ≤ 65535 := by
  have hcount := h.bounds.count
  have hle := (List.length_filter_le (fun q ↦ decide (k ≤ q.2)) (placed fl 0 parts))
  rw [length_placed] at hle
  rw [survivors, List.length_map]
  omega

theorem length_data (h : HeadCut fl parts k) :
    (cutHost fl parts k).data.length ≤ 2 * 1024 * 1024 * 1024 := by
  rw [← drop_encodeZip h.le, List.length_drop]
  have hout := h.bounds.output
  omega

/-- The index holds the surviving headers. -/
theorem build_records (h : HeadCut fl parts k) :
    (LocalHeaderIndex.build (cutHost fl parts k).data .default).records =
      (survivors fl parts k).map (indexRecord fl) :=
  LocalHeaderIndex.build_records h.word (le_trans h.length_data (by decide)) h.inPlace_survivors
    (tiling_survivors k) h.sig_survivors (by decide)
    (le_trans h.length_survivors_le (by decide))

theorem rawName_indexRecord (h : HeadCut fl parts k) {q : Part × ℕ}
    (hq : q ∈ survivors fl parts k) :
    (indexRecord fl q).rawName (cutHost fl parts k).data = some q.1.rawName := by
  obtain ⟨hat, hpos, hlen⟩ := h.inPlace_survivors q hq
  exact (LocalHeaderIndex.plausibleHeader_rawName (hat.plausibleHeader h.word
    .default hpos (le_trans hlen (by decide)))).1

/-- A surviving header of a part's name is the part's own. -/
theorem survivor_named_iff (h : HeadCut fl parts k) {q q' : Part × ℕ}
    (hq : q ∈ placed fl 0 parts) (hq' : q' ∈ survivors fl parts k) :
    (indexRecord fl q').rawName (cutHost fl parts k).data = some q.1.rawName ↔
      k ≤ q.2 ∧ q' = (q.1, q.2 - k) := by
  rw [h.rawName_indexRecord hq', Option.some.injEq]
  constructor
  · intro hname
    have heq := h.eq_of_rawName (mem_survivors.mp hq') hq hname
    subst heq
    exact ⟨Nat.le_add_left k q'.2, by simp⟩
  · rintro ⟨-, rfl⟩
    rfl

/-- The headers found under a part's name: its own, if it survived. -/
theorem candidatesNamed (h : HeadCut fl parts k) {q : Part × ℕ} (hq : q ∈ placed fl 0 parts) :
    ((LocalHeaderIndex.build (cutHost fl parts k).data .default).candidatesNamed
        (cutHost fl parts k).data q.1.rawName).1 =
      if k ≤ q.2 then [indexRecord fl (q.1, q.2 - k)] else [] := by
  rw [LocalHeaderIndex.candidatesNamed_eq (LocalHeaderIndex.build_wellIndexed _ _),
    h.build_records, List.filter_map]
  have hfilter : (survivors fl parts k).filter ((fun r : LocalHeaderRecord ↦
        decide (r.rawName (cutHost fl parts k).data = some q.1.rawName)) ∘ indexRecord fl) =
      (survivors fl parts k).filter fun q' ↦ decide (k ≤ q.2 ∧ q' = (q.1, q.2 - k)) :=
    List.filter_congr fun q' hq' ↦ by
      simp only [Function.comp_apply, h.survivor_named_iff hq hq']
  rw [hfilter]
  by_cases hle : k ≤ q.2
  · have hmem : (q.1, q.2 - k) ∈ survivors fl parts k := by
      rw [mem_survivors, Nat.sub_add_cancel hle]
      exact hq
    have hnodup : (survivors fl parts k).Nodup :=
      (tiling_survivors k).imp fun {a b} hab heq ↦ by
        rw [heq, length_localRecord] at hab
        omega
    simp only [hle, true_and, if_true]
    rw [List.filter_eq, List.count_eq_one_of_mem hnodup hmem]
    rfl
  · simp [hle]

/-- A header indexed at an offset is the surviving part's there. -/
theorem atOffset_named (h : HeadCut fl parts k) {q : Part × ℕ} (hq : q ∈ placed fl 0 parts)
    {o : ℕ} : ((LocalHeaderIndex.build (cutHost fl parts k).data .default).atOffset o).any
        (·.rawName (cutHost fl parts k).data = some q.1.rawName) = true ↔
      k ≤ q.2 ∧ o = q.2 - k := by
  have hw := LocalHeaderIndex.build_wellIndexed (cutHost fl parts k).data .default
  rw [Option.any_eq_true]
  constructor
  · rintro ⟨r, hr, hname⟩
    obtain ⟨hmem, rfl⟩ := LocalHeaderIndex.atOffset_some hw hr
    rw [h.build_records] at hmem
    obtain ⟨q', hq', rfl⟩ := List.mem_map.mp hmem
    obtain ⟨hle, rfl⟩ := (h.survivor_named_iff hq hq').mp (by simpa using hname)
    exact ⟨hle, rfl⟩
  · rintro ⟨hle, rfl⟩
    have hq' : (q.1, q.2 - k) ∈ survivors fl parts k := by
      rw [mem_survivors, Nat.sub_add_cancel hle]
      exact hq
    have hmem : indexRecord fl (q.1, q.2 - k) ∈
        (LocalHeaderIndex.build (cutHost fl parts k).data .default).records := by
      rw [h.build_records]
      exact List.mem_map_of_mem hq'
    obtain ⟨r, hr⟩ := LocalHeaderIndex.atOffset_of_mem hw hmem
    refine ⟨r, hr, ?_⟩
    -- no two survivors stand at one offset
    obtain ⟨hr', hoff⟩ := LocalHeaderIndex.atOffset_some hw hr
    rw [h.build_records] at hr'
    obtain ⟨q'', hq'', rfl⟩ := List.mem_map.mp hr'
    have hsame : q''.2 = q.2 - k := hoff
    have heq : (q''.1, q''.2 + k) = q :=
      eq_of_offset (mem_survivors.mp hq'') hq (by dsimp only; omega)
    refine decide_eq_true ((h.survivor_named_iff hq hq'').mpr ⟨hle, ?_⟩)
    rw [← hsame, ← heq]

/-- A survivor's record is observed to have moved back by the cut; no other is observed. -/
theorem observation_placed (h : HeadCut fl parts k) {q : Part × ℕ}
    (hq : q ∈ placed fl 0 parts) :
    observation (cutHost fl parts k).data
        (LocalHeaderIndex.build (cutHost fl parts k).data .default) (q.1.entry fl q.2) =
      if k ≤ q.2 then some ⟨q.2, q.2 - k⟩ else none := by
  unfold observation
  rw [Part.entry_localHeaderOffset, Part.entry_name, show asBytes q.1.name = q.1.rawName from rfl,
    h.candidatesNamed hq]
  by_cases hat : ((LocalHeaderIndex.build (cutHost fl parts k).data .default).atOffset q.2).any
      (·.rawName (cutHost fl parts k).data = some q.1.rawName) = true
  · obtain ⟨hle, hsame⟩ := (h.atOffset_named hq).mp hat
    rw [if_pos hat, if_pos hle, ← hsame]
  · rw [if_neg hat]
    by_cases hle : k ≤ q.2
    · simp [hle, indexRecord]
    · simp [hle]

theorem movedBack_observations (h : HeadCut fl parts k) :
    OffsetMap.MovedBack k (((placed fl 0 parts).filter (k ≤ ·.2)).map fun q ↦
      (⟨q.2, q.2 - k⟩ : OffsetObservation)) where
  stored_lt := by
    intro o ho
    obtain ⟨q, hq, rfl⟩ := List.mem_map.mp ho
    have hend := (mem_placed_bounds (List.mem_of_mem_filter hq)).2.2
    have hlen := h.bounds.length_localRecords_lt
    dsimp only
    omega
  stored_eq := by
    intro o ho
    obtain ⟨q, hq, rfl⟩ := List.mem_map.mp ho
    have hle := (List.mem_filter.mp hq).2
    simp only [decide_eq_true_eq] at hle
    dsimp only
    omega
  increasing := by
    rw [List.pairwise_map]
    refine ((tiling_placed fl 0 parts).filter _).imp fun {a b} hab ↦ ?_
    rw [length_localRecord] at hab
    dsimp only
    omega

/-- The written directory is mapped back by the cut as a whole. -/
theorem inferMap_directory (h : HeadCut fl parts k) :
    ∃ support, (inferMap (cutHost fl parts k).data .default
        ((placed fl 0 parts).map fun q ↦ q.1.entry fl q.2)).1 =
      ⟨.singleDelta, [⟨0, offsetMax, -k, support⟩], 0⟩ := by
  have hfilter : ((placed fl 0 parts).map fun q ↦ q.1.entry fl q.2).filterMap
        (observation (cutHost fl parts k).data
          (LocalHeaderIndex.build (cutHost fl parts k).data .default)) =
      ((placed fl 0 parts).filter (k ≤ ·.2)).map fun q ↦ ⟨q.2, q.2 - k⟩ := by
    rw [List.filterMap_map, ← List.filterMap_eq_map, List.filterMap_filter]
    refine List.filterMap_congr fun q hq ↦ ?_
    rw [Function.comp_apply, h.observation_placed hq]
    simp
  obtain ⟨q, hq, hle⟩ := h.survivor
  have hne : ((placed fl 0 parts).filter (k ≤ ·.2)).map
      (fun q ↦ (⟨q.2, q.2 - k⟩ : OffsetObservation)) ≠ [] :=
    List.ne_nil_of_mem (List.mem_map_of_mem (List.mem_filter.mpr ⟨hq, by simpa using hle⟩))
  rw [(inferMap_eq _ _ _).1, hfilter]
  exact OffsetMap.infer_movedBack h.movedBack_observations hne (by decide)

/-- No header stands under a part's name but its own. -/
theorem headerNamedAt_iff (h : HeadCut fl parts k) {q : Part × ℕ} (hq : q ∈ placed fl 0 parts)
    {o : ℕ} : headerNamedAt (cutHost fl parts k).data o q.1.rawName = true ↔
      k ≤ q.2 ∧ o = q.2 - k := by
  constructor
  · intro hn
    have hsig : u32le (cutHost fl parts k).data o = some lfhSig := by
      simp only [headerNamedAt, localHeaderPresent, Bool.and_eq_true, decide_eq_true_eq] at hn
      exact hn.1.1.2
    obtain ⟨q', hq', rfl⟩ := h.sig_survivors o hsig
    have hname := (h.inPlace_survivors q' hq').1.rawName_of_named hn
    have heq := h.eq_of_rawName (mem_survivors.mp hq') hq hname
    subst heq
    exact ⟨Nat.le_add_left k q'.2, by simp⟩
  · rintro ⟨hle, rfl⟩
    exact (h.headerAt hq hle).named h.word

/-- Reconciliation moves a survivor's record onto its header and leaves the others. -/
theorem reconciled_placed (h : HeadCut fl parts k) {q : Part × ℕ} (hq : q ∈ placed fl 0 parts) :
    reconciled (cutHost fl parts k).data .default
        ((placed fl 0 parts).map fun q ↦ q.1.entry fl q.2) (q.1.entry fl q.2) =
      { q.1.entry fl q.2 with localHeaderOffset := landed k q.2 } := by
  obtain ⟨support, hmap⟩ := h.inferMap_directory
  have htables := (inferMap_eq (cutHost fl parts k).data .default
    ((placed fl 0 parts).map fun q ↦ q.1.entry fl q.2)).2
  have hend := (mem_placed_bounds hq).2.2
  have hlen := h.bounds.length_localRecords_lt
  have hk := h.le
  have hnamed := h.headerNamedAt_iff hq (o := q.2)
  unfold reconciled landed
  dsimp only
  rw [hmap, if_pos (by simp [OffsetMap.isUsable])]
  by_cases hle : k ≤ q.2
  · rw [if_pos hle]
    by_cases hstays : headerNamedAt (cutHost fl parts k).data q.2 q.1.rawName = true
    · rw [repoint_of_named (by simpa [Part.rawName] using hstays), ← (hnamed.mp hstays).2]
      rfl
    · have hat := (h.atOffset_named hq (o := q.2 - k)).mpr ⟨hle, rfl⟩
      rw [← htables.atOffset, Option.any_eq_true] at hat
      obtain ⟨r, hr, hraw⟩ := hat
      have htarget : repointTarget (cutHost fl parts k).data (inferMap (cutHost fl parts k).data
          .default ((placed fl 0 parts).map fun q ↦ q.1.entry fl q.2)).2
          ⟨.singleDelta, [⟨0, offsetMax, -k, support⟩], 0⟩ (q.1.entry fl q.2) =
          some (q.2 - k) := by
        rw [repointTarget, Part.entry_name, Part.entry_localHeaderOffset,
          show asBytes q.1.name = q.1.rawName from rfl, if_neg hstays,
          OffsetMap.map_single (by omega) (by omega), if_pos hle]
        refine Option.filter_some_pos (decide_eq_true ?_)
        rw [hr, Option.bind_some]
        exact of_decide_eq_true hraw
      rw [repoint, htarget]
  · have htarget : repointTarget (cutHost fl parts k).data (inferMap (cutHost fl parts k).data
        .default ((placed fl 0 parts).map fun q ↦ q.1.entry fl q.2)).2
        ⟨.singleDelta, [⟨0, offsetMax, -k, support⟩], 0⟩ (q.1.entry fl q.2) = none := by
      rw [repointTarget, Part.entry_localHeaderOffset,
        OffsetMap.map_single (by omega) (by omega), if_neg hle]
      simp
    rw [if_neg hle, repoint, htarget]
    rfl

/-- A record moved to another offset of the file is the part's record of that offset. -/
theorem entry_landed (h : HeadCut fl parts k) {q : Part × ℕ} (hq : q ∈ placed fl 0 parts) :
    { q.1.entry fl q.2 with localHeaderOffset := landed k q.2 } =
      q.1.entry fl (landed k q.2) := by
  obtain ⟨hmem, -, hend⟩ := mem_placed_bounds hq
  have hlen := h.bounds.length_localRecords_lt
  have hland : landed k q.2 ≤ q.2 := by
    unfold landed
    split <;> omega
  have h₁ : (q.1.entry fl q.2).zip64 = false :=
    Part.entry_zip64 (h.bounds.fits hmem) (by omega)
  have h₂ : (q.1.entry fl (landed k q.2)).zip64 = false :=
    Part.entry_zip64 (h.bounds.fits hmem) (by omega)
  rw [ZipEntry.mk.injEq]
  exact ⟨rfl, rfl, rfl, rfl, rfl, rfl, rfl, rfl, h₁.trans h₂.symm, rfl⟩

end HeadCut

end VeraqisRecover.Zip
