import VeraqisRecover.Recovery.ZipCrcFrame

/-!
# Damaged payloads in the CRC repair

A payload that matches none of its checksums has to stay one that does not.
The walk writes nothing at its own visit, but the repairs of other entries can
reach it: a directory record may overlap a local header, or stand in a payload.
-/

namespace VeraqisRecover.Recovery

open ByteString Zip

namespace ZipCrcFix

/-! ## One visit among the others -/

/-- The walk comes to `w` with this buffer, and the visits `later` follow. -/
def Reaches (readToEnd : ReadToEnd) (source data : Bytes) (w : Visit) (later : List Visit) :
    Prop :=
  ∃ before, visits readToEnd source = before ++ w :: later ∧
    data = writeAll source (writes before)

/-- What the walk checks the content of an entry against. -/
def computedCrc (readToEnd : ReadToEnd) (data : Bytes) (h : Header) : Option ℕ :=
  contentCrc readToEnd h.method (field data h.dataStart h.compressedSize)

/-- The content has a checksum that no directory record for the entry says, and that its local
header does not say either, in the source or at the visit. -/
structure Contradicted (readToEnd : ReadToEnd) (source data : Bytes) (w : Visit) : Prop where
  plain : w.header.hasDescriptor = false
  present : w.header.dataEnd ≤ source.length
  computed : ∃ crc, computedCrc readToEnd data w.header = some crc ∧
    (crc ≠ w.header.storedCrc ∨ crc ≠ u32At source (w.header.pos + 14)) ∧
      ∀ r ∈ indexCentralDirectory source, r.1 = w.header.pos → r.2.crc ≠ crc

/-- The CRC-32 field at `o` is the same in both files. -/
def SameCrc (d e : Bytes) (o : ℕ) : Prop := ∀ k < 4, d[o + k]? = e[o + k]?

/-- Every checksum of the entry is what it was, and the content still matches none of them. -/
structure LeftAlone (readToEnd : ReadToEnd) (source output : Bytes) (w : Visit) : Prop where
  localCrc : SameCrc output source (w.header.pos + 14)
  records : ∀ r ∈ indexCentralDirectory source, r.1 = w.header.pos →
    SameCrc output source r.2.fieldOffset
  mismatches : ∀ crc, computedCrc readToEnd output w.header = some crc →
    crc ≠ u32At output (w.header.pos + 14) ∧
      ∀ r ∈ indexCentralDirectory source, r.1 = w.header.pos → crc ≠ u32At output r.2.fieldOffset

/-- No damaged payload is blessed. -/
def NeverBlesses (readToEnd : ReadToEnd) (source output : Bytes) : Prop :=
  ∀ data w later, Reaches readToEnd source data w later → Contradicted readToEnd source data w →
    LeftAlone readToEnd source output w

/-- Where a write covers the field at `o`, it writes what the source has there. -/
def Repeats (source : Bytes) (u : ℕ × Bytes) (o : ℕ) : Prop :=
  ∀ k < 4, Covers u (o + k) → source[o + k]? = u.2[o + k - u.1]?

/-- The CRC-32 fields of the entry are kept: no synced record changes the checksum in its local
header, and no repaired local header changes the checksum in a record for it. -/
structure FieldsKept (readToEnd : ReadToEnd) (source : Bytes) (w : Visit) : Prop where
  localCrc : ∀ v ∈ visits readToEnd source, ∀ cd crc, v.verdict = .fixDirectory cd crc →
    Repeats source (cd.fieldOffset, le32 crc) (w.header.pos + 14)
  records : ∀ v ∈ visits readToEnd source, ∀ crc, v.verdict = .fixLocal crc →
    ∀ r ∈ indexCentralDirectory source, r.1 = w.header.pos →
      Repeats source (v.header.pos + 14, le32 crc) r.2.fieldOffset

/-- A record that is synced behind the entry holds the new value already wherever it lies in the
entry's payload. -/
def PayloadKept (source : Bytes) (w : Visit) (later : List Visit) : Prop :=
  ∀ v ∈ later, ∀ cd crc, v.verdict = .fixDirectory cd crc →
    ∀ x, Covers (cd.fieldOffset, le32 crc) x → w.InPayload source.length x →
      source[x]? = (le32 crc)[x - cd.fieldOffset]?

/-- No repair of another entry writes other bytes into the entry's checksums or its payload. -/
structure OutOfReach (readToEnd : ReadToEnd) (source : Bytes) (w : Visit) (later : List Visit) :
    Prop where
  fields : FieldsKept readToEnd source w
  payload : PayloadKept source w later

/-! ## The visit in the trace -/

theorem writeAll_append (d : Bytes) (us us' : List (ℕ × Bytes)) :
    writeAll d (us ++ us') = writeAll (writeAll d us) us' :=
  List.foldl_append

theorem writes_append (vs vs' : List Visit) : writes (vs ++ vs') = writes vs ++ writes vs' :=
  List.filterMap_append

/-- Each visit has read its header, and judged it, in the buffer it came with. -/
theorem trace_split (readToEnd : ReadToEnd) (index : List (ℕ × CdCrc)) (len pos : ℕ) (s : State)
    {before later : List Visit} {w : Visit}
    (h : trace readToEnd index len pos s = before ++ w :: later) :
    w.header = headerAt (writeAll s.data (writes before)) w.header.pos ∧
      w.verdict = judge readToEnd index len (writeAll s.data (writes before)) w.header := by
  fun_induction trace readToEnd index len pos s generalizing before with
  | case1 pos s hroom hsig ih => exact ih h
  | case2 pos s hroom hsig =>
      rename_i hd v _ ih
      cases before with
      | nil =>
          obtain ⟨rfl, -⟩ := List.cons.inj h
          exact ⟨rfl, rfl⟩
      | cons b before =>
          obtain ⟨hfirst, hrest⟩ := List.cons.inj h
          obtain ⟨hheader, hverdict⟩ := ih hrest
          rw [settle_data, ← writeAll_append, ← writes_append, hfirst] at hheader hverdict
          exact ⟨hheader, hverdict⟩
  | case3 pos s hroom => exact absurd h (by simp)

section Reached

variable {readToEnd : ReadToEnd} {source data : Bytes} {v w : Visit} {later : List Visit}

theorem Reaches.mem (h : Reaches readToEnd source data w later) :
    w ∈ visits readToEnd source := by
  obtain ⟨before, hsplit, -⟩ := h
  rw [hsplit]
  exact List.mem_append_right _ List.mem_cons_self

theorem Reaches.mem_of_later (h : Reaches readToEnd source data w later) (hv : v ∈ later) :
    v ∈ visits readToEnd source := by
  obtain ⟨before, hsplit, -⟩ := h
  rw [hsplit]
  exact List.mem_append_right _ (List.mem_cons_of_mem _ hv)

theorem Reaches.judged (h : Reaches readToEnd source data w later) :
    w.header = headerAt data w.header.pos ∧
      w.verdict = judge readToEnd (indexCentralDirectory source) source.length data w.header := by
  obtain ⟨before, hsplit, rfl⟩ := h
  exact trace_split readToEnd (indexCentralDirectory source) source.length 0 _ hsplit

theorem Reaches.walked_data (h : Reaches readToEnd source data w later) :
    (walked readToEnd source).data = writeAll data (writes (w :: later)) := by
  obtain ⟨before, hsplit, rfl⟩ := h
  rw [ZipCrcFix.walked_data, hsplit, writes_append, writeAll_append]

/-! ## The checksum in the local header -/

/-- A local header takes thirty bytes, so none is visited within another. -/
theorem eq_of_near (hv : v ∈ visits readToEnd source) (hw : w ∈ visits readToEnd source)
    (hvw : v.header.pos < w.header.pos + 30) (hwv : w.header.pos < v.header.pos + 30) : v = w := by
  have hv' := from_of_mem hv
  have hw' := from_of_mem hw
  have hvnext := Header.add_le_next hv'.room hv'.le_dataStart
  have hwnext := Header.add_le_next hw'.room hw'.le_dataStart
  rcases before_of_mem hv hw with hsame | hbefore | hbefore
  · exact hsame
  · rw [Before] at hbefore
    omega
  · rw [Before] at hbefore
    omega

/-- The checksums of two visited local headers are apart. -/
theorem eq_of_local {x crc : ℕ} (hv : v ∈ visits readToEnd source)
    (hw : w ∈ visits readToEnd source) (hcovers : Covers (v.header.pos + 14, le32 crc) x)
    (hlow : w.header.pos + 14 ≤ x) (hhigh : x < w.header.pos + 14 + 4) : v = w := by
  obtain ⟨hvlow, hvhigh⟩ := hcovers
  rw [length_le32] at hvhigh
  dsimp only at hvlow hvhigh
  apply eq_of_near hv hw
  · omega
  · omega

theorem judge_of_computed {index : List (ℕ × CdCrc)} {len crc : ℕ} {h : Header}
    (hplain : h.hasDescriptor = false) (hpresent : h.dataEnd ≤ len)
    (hcomputed : computedCrc readToEnd data h = some crc) :
    judge readToEnd index len data h =
      if crc = h.storedCrc then
        match lookup index h.pos with
        | some cd => if cd.crc ≠ crc then .fixDirectory cd crc else .intact
        | none => .intact
      else if (lookup index h.pos).map CdCrc.crc = some crc then .fixLocal crc
      else .damaged (entryNameAt data (h.pos + 30) h.nameLen) := by
  rw [computedCrc] at hcomputed
  rw [judge, hplain, if_neg Bool.false_ne_true, if_neg (not_lt.mpr hpresent)]
  cases lookup index h.pos with
  | none => simp only [hcomputed]
  | some cd => simp only [hcomputed]

theorem lookup_crc_ne {index : List (ℕ × CdCrc)} {pos crc : ℕ}
    (h : ∀ r ∈ index, r.1 = pos → r.2.crc ≠ crc) :
    (lookup index pos).map CdCrc.crc ≠ some crc := by
  intro hcd
  obtain ⟨cd, hlookup, hcrc⟩ := Option.map_eq_some_iff.mp hcd
  exact h _ (mem_of_lookup hlookup) rfl hcrc

/-- The local header of such an entry is not repaired. -/
theorem Contradicted.not_fixLocal (h : Contradicted readToEnd source data w)
    (hreach : Reaches readToEnd source data w later) (crc : ℕ) : w.verdict ≠ .fixLocal crc := by
  obtain ⟨computed, hcomputed, -, hrecords⟩ := h.computed
  rw [hreach.judged.2, judge_of_computed h.plain h.present hcomputed,
    if_neg (lookup_crc_ne hrecords)]
  split
  · split
    · split
      · exact Verdict.noConfusion
      · exact Verdict.noConfusion
    · exact Verdict.noConfusion
  · exact Verdict.noConfusion

/-- Only synced records reach the checksum in the local header. -/
theorem Contradicted.write_local (h : Contradicted readToEnd source data w)
    (hreach : Reaches readToEnd source data w later) {u : ℕ × Bytes} {k : ℕ} (hk : k < 4)
    (hv : v ∈ visits readToEnd source) (hwrite : v.write = some u)
    (hcovers : Covers u (w.header.pos + 14 + k)) :
    ∃ cd crc, v.verdict = .fixDirectory cd crc ∧ u = (cd.fieldOffset, le32 crc) := by
  rcases Visit.write_eq_some.mp hwrite with hdirectory | ⟨crc, hverdict, rfl⟩
  · exact hdirectory
  · have hsame := eq_of_local hv hreach.mem hcovers (by omega) (by omega)
    rw [hsame] at hverdict
    exact absurd hverdict (h.not_fixLocal hreach crc)

/-- Every write to the byte at `x` repeats the source. -/
def Kept (readToEnd : ReadToEnd) (source : Bytes) (x : ℕ) : Prop :=
  ∀ v ∈ visits readToEnd source, ∀ u, v.write = some u → Covers u x → source[x]? = u.2[x - u.1]?

theorem Kept.walked {x : ℕ} (h : Kept readToEnd source x) :
    (walked readToEnd source).data[x]? = source[x]? := by
  rw [ZipCrcFix.walked_data]
  apply getElem?_writeAll_of_agrees (fits_writes readToEnd source)
  intro u hu hcovers
  obtain ⟨v, hv, hwrite⟩ := List.mem_filterMap.mp hu
  exact h v hv u hwrite hcovers

theorem Kept.buffer {x : ℕ} (h : Kept readToEnd source x)
    (hreach : Reaches readToEnd source data w later) : data[x]? = source[x]? := by
  have hfits := fits_writes readToEnd source
  obtain ⟨before, hsplit, rfl⟩ := hreach
  rw [hsplit, writes_append] at hfits
  apply getElem?_writeAll_of_agrees fun u hu ↦ hfits u (List.mem_append_left _ hu)
  intro u hu hcovers
  obtain ⟨v, hv, hwrite⟩ := List.mem_filterMap.mp hu
  apply h v _ u hwrite hcovers
  rw [hsplit]
  exact List.mem_append_left _ hv

/-- What the source holds, the local checksum of the entry, is kept. -/
theorem Contradicted.kept_local (h : Contradicted readToEnd source data w)
    (hreach : Reaches readToEnd source data w later)
    (hrepeats : ∀ v ∈ visits readToEnd source, ∀ cd crc, v.verdict = .fixDirectory cd crc →
      Repeats source (cd.fieldOffset, le32 crc) (w.header.pos + 14)) {k : ℕ} (hk : k < 4) :
    Kept readToEnd source (w.header.pos + 14 + k) := by
  intro v hv u hwrite hcovers
  obtain ⟨cd, crc, hverdict, rfl⟩ := h.write_local hreach hk hv hwrite hcovers
  exact hrepeats v hv cd crc hverdict k hk hcovers

theorem Contradicted.localCrc_iff (h : Contradicted readToEnd source data w)
    (hreach : Reaches readToEnd source data w later) :
    SameCrc (walked readToEnd source).data source (w.header.pos + 14) ↔
      ∀ v ∈ visits readToEnd source, ∀ cd crc, v.verdict = .fixDirectory cd crc →
        Repeats source (cd.fieldOffset, le32 crc) (w.header.pos + 14) := by
  constructor
  · intro hsame v hv cd crc hverdict k hk hcovers
    rw [← hsame k hk]
    apply getElem?_walked_of_sole hv (Visit.write_eq_some.mpr (.inl ⟨cd, crc, hverdict, rfl⟩))
      hcovers
    intro t ht u hwrite hcovers'
    obtain ⟨cd', crc', hverdict', rfl⟩ := h.write_local hreach hk ht hwrite hcovers'
    exact eq_of_covers (lookup_of_mem ht hverdict') (lookup_of_mem hv hverdict) hcovers' hcovers
  · intro hrepeats k hk
    exact (h.kept_local hreach hrepeats hk).walked

/-- Such an entry has no write of its own, once nothing reaches its local checksum. -/
theorem Contradicted.no_write (h : Contradicted readToEnd source data w)
    (hreach : Reaches readToEnd source data w later)
    (hrepeats : ∀ v ∈ visits readToEnd source, ∀ cd crc, v.verdict = .fixDirectory cd crc →
      Repeats source (cd.fieldOffset, le32 crc) (w.header.pos + 14)) : w.write = none := by
  have hread : w.header.storedCrc = u32At data (w.header.pos + 14) :=
    congrArg Header.storedCrc hreach.judged.1
  have hsame : u32le data (w.header.pos + 14) = u32le source (w.header.pos + 14) :=
    u32le_congr fun k hk ↦ (h.kept_local hreach hrepeats hk).buffer hreach
  obtain ⟨computed, hcomputed, hlocal, hrecords⟩ := h.computed
  have hdiffers : computed ≠ w.header.storedCrc := by
    rcases hlocal with hvisit | hsource
    · exact hvisit
    · rw [hread, u32At, hsame]
      exact hsource
  have hverdict := hreach.judged.2
  rw [judge_of_computed h.plain h.present hcomputed, if_neg hdiffers,
    if_neg (lookup_crc_ne hrecords)] at hverdict
  rw [Visit.write, hverdict]

/-! ## The checksums in the directory -/

/-- The fields of two records are apart. -/
theorem eq_of_covers_record {v : Visit} {cd : CdCrc} {crc k : ℕ} {r : ℕ × CdCrc}
    (hlookup : lookup (indexCentralDirectory source) v.header.pos = some cd)
    (hr : r ∈ indexCentralDirectory source) (hk : k < 4)
    (hcovers : Covers (cd.fieldOffset, le32 crc) (r.2.fieldOffset + k)) :
    r = (v.header.pos, cd) := by
  obtain ⟨hlow, hhigh⟩ := hcovers
  rw [length_le32] at hhigh
  dsimp only at hlow hhigh
  rcases related_of_mem (index_spec source).2 hr (mem_of_lookup hlookup) with
    hsame | hapart | hapart
  · exact hsame
  · dsimp only at hapart
    omega
  · dsimp only at hapart
    omega

/-- Only repaired local headers reach the checksum in a record for the entry. -/
theorem write_record (hw : w ∈ visits readToEnd source) (hnone : w.write = none) {r : ℕ × CdCrc}
    (hr : r ∈ indexCentralDirectory source) (hpos : r.1 = w.header.pos) {u : ℕ × Bytes} {k : ℕ}
    (hk : k < 4) (hv : v ∈ visits readToEnd source) (hwrite : v.write = some u)
    (hcovers : Covers u (r.2.fieldOffset + k)) :
    ∃ crc, v.verdict = .fixLocal crc ∧ u = (v.header.pos + 14, le32 crc) := by
  rcases Visit.write_eq_some.mp hwrite with ⟨cd, crc, hverdict, rfl⟩ | hlocal
  · obtain rfl := eq_of_covers_record (lookup_of_mem hv hverdict) hr hk hcovers
    dsimp only at hpos
    have hsame : v = w := eq_of_near hv hw (by omega) (by omega)
    rw [hsame, hnone] at hwrite
    cases hwrite
  · exact hlocal

theorem records_iff (hw : w ∈ visits readToEnd source) (hnone : w.write = none) {r : ℕ × CdCrc}
    (hr : r ∈ indexCentralDirectory source) (hpos : r.1 = w.header.pos) :
    SameCrc (walked readToEnd source).data source r.2.fieldOffset ↔
      ∀ v ∈ visits readToEnd source, ∀ crc, v.verdict = .fixLocal crc →
        Repeats source (v.header.pos + 14, le32 crc) r.2.fieldOffset := by
  constructor
  · intro hsame v hv crc hverdict k hk hcovers
    rw [← hsame k hk]
    apply getElem?_walked_of_sole hv (Visit.write_eq_some.mpr (.inr ⟨crc, hverdict, rfl⟩))
      hcovers
    intro t ht u hwrite hcovers'
    obtain ⟨crc', -, rfl⟩ := write_record hw hnone hr hpos hk ht hwrite hcovers'
    obtain ⟨hlow, hhigh⟩ := hcovers
    exact congrArg (fun v ↦ v.header.pos) (eq_of_local ht hv hcovers' hlow hhigh)
  · intro hrepeats k hk
    apply Kept.walked
    intro v hv u hwrite hcovers
    obtain ⟨crc, hverdict, rfl⟩ := write_record hw hnone hr hpos hk hv hwrite hcovers
    exact hrepeats v hv crc hverdict k hk hcovers

/-! ## The payload -/

/-- Where a record is synced behind the entry, the walk comes to the entry with the byte of the
source. -/
theorem Reaches.getElem?_buffer (hreach : Reaches readToEnd source data w later) {x : ℕ}
    (hx : w.InPayload source.length x) (hv : v ∈ later) {cd : CdCrc} {crc : ℕ}
    (hverdict : v.verdict = .fixDirectory cd crc) (hcovers : Covers (cd.fieldOffset, le32 crc) x) :
    data[x]? = source[x]? := by
  have hvmem := hreach.mem_of_later hv
  have hwmem := hreach.mem
  have hfits := fits_writes readToEnd source
  have hordered := (trace_spec readToEnd (indexCentralDirectory source) source.length 0
    ⟨source, 0, 0, []⟩).2
  obtain ⟨before, hsplit, rfl⟩ := hreach
  rw [← visits, hsplit, List.pairwise_append] at hordered
  rw [hsplit, writes_append] at hfits
  apply getElem?_writeAll_of_apart fun u hu ↦ hfits u (List.mem_append_left _ hu)
  intro u hu hux
  obtain ⟨t, ht, hwrite⟩ := List.mem_filterMap.mp hu
  have htmem : t ∈ visits readToEnd source := hsplit ▸ List.mem_append_left _ ht
  rcases Visit.write_eq_some.mp hwrite with ⟨cd', crc', hverdict', rfl⟩ | ⟨crc', -, rfl⟩
  · -- both would sync the one record, and so stand at the one local header
    have hpos := eq_of_covers (lookup_of_mem htmem hverdict') (lookup_of_mem hvmem hverdict) hux
      hcovers
    have hbefore : Before source.length t v :=
      hordered.2.2 t ht v (List.mem_cons_of_mem w hv)
    have hfrom := from_of_mem htmem
    have hnext := Header.add_le_next hfrom.room hfrom.le_dataStart
    rw [Before] at hbefore
    omega
  · exact not_covers_of_fixLocal htmem hwmem hx hux

/-- A payload into which nothing else is synced has the checksum it had at the visit. -/
theorem PayloadKept.computedCrc_walked (h : PayloadKept source w later)
    (hreach : Reaches readToEnd source data w later) (hnone : w.write = none)
    (hplain : w.header.hasDescriptor = false) (hpresent : w.header.dataEnd ≤ source.length) :
    computedCrc readToEnd (walked readToEnd source).data w.header =
      computedCrc readToEnd data w.header := by
  have hfits := fits_writes readToEnd source
  have hlength : data.length = source.length := by
    obtain ⟨before, hsplit, rfl⟩ := hreach
    rw [hsplit, writes_append] at hfits
    exact length_writeAll fun u hu ↦ hfits u (List.mem_append_left _ hu)
  have hlater : Fits data.length (writes later) := by
    rw [hlength]
    intro u hu
    obtain ⟨v, hv, hwrite⟩ := List.mem_filterMap.mp hu
    exact hfits u (List.mem_filterMap.mpr ⟨v, hreach.mem_of_later hv, hwrite⟩)
  have hnext : w.header.next source.length = w.header.dataEnd := by
    rw [Header.next, hplain, if_neg Bool.false_ne_true, if_neg (not_lt.mpr hpresent)]
  have hpayload : field (walked readToEnd source).data w.header.dataStart w.header.compressedSize =
      field data w.header.dataStart w.header.compressedSize := by
    apply field_congr
    intro x hlow hhigh
    have hx : w.InPayload source.length x := ⟨hlow, by rw [hnext]; exact hhigh⟩
    rw [hreach.walked_data, writes, List.filterMap_cons_none hnone, ← writes]
    apply getElem?_writeAll_of_agrees hlater
    intro u hu hcovers
    obtain ⟨v, hv, hwrite⟩ := List.mem_filterMap.mp hu
    rcases Visit.write_eq_some.mp hwrite with ⟨cd, crc, hverdict, rfl⟩ | ⟨crc, -, rfl⟩
    · rw [hreach.getElem?_buffer hx hv hverdict hcovers]
      exact h v hv cd crc hverdict x hcovers hx
    · exact absurd hcovers (not_covers_of_fixLocal (hreach.mem_of_later hv) hreach.mem hx)
  rw [computedCrc, computedCrc, hpayload]

end Reached

/-! ## The whole walk -/

/-- The index says what the record does. -/
theorem crc_of_mem_index {source : Bytes} {r : ℕ × CdCrc}
    (hr : r ∈ indexCentralDirectory source) : r.2.crc = u32At source r.2.fieldOffset := by
  have hfrom : ∀ pos, ∀ r ∈ indexFrom source pos, r.2.crc = u32At source r.2.fieldOffset := by
    intro pos
    fun_induction indexFrom source pos with
    | case1 pos hroom hsig => simp
    | case2 pos hroom hsig ih =>
        intro r hr
        rcases List.mem_cons.mp hr with rfl | hr
        · rfl
        · exact ih r hr
    | case3 pos hroom => simp
  rw [indexCentralDirectory] at hr
  rcases indexFromEocd_cases source (findEocd source) with hnil | ⟨pos, hpos⟩
  · rw [hnil] at hr
    cases hr
  · rw [hpos] at hr
    exact hfrom pos r hr

theorem SameCrc.u32At_eq {d e : Bytes} {o : ℕ} (h : SameCrc d e o) : u32At d o = u32At e o := by
  rw [u32At, u32At, u32le_congr h]

theorem records_unchanged_iff {readToEnd : ReadToEnd} {source : Bytes} {w : Visit}
    (hw : w ∈ visits readToEnd source) (hnone : w.write = none) :
    (∀ r ∈ indexCentralDirectory source, r.1 = w.header.pos →
      SameCrc (walked readToEnd source).data source r.2.fieldOffset) ↔
      ∀ v ∈ visits readToEnd source, ∀ crc, v.verdict = .fixLocal crc →
        ∀ r ∈ indexCentralDirectory source, r.1 = w.header.pos →
          Repeats source (v.header.pos + 14, le32 crc) r.2.fieldOffset := by
  constructor
  · intro hsame v hv crc hverdict r hr hpos
    exact (records_iff hw hnone hr hpos).mp (hsame r hr hpos) v hv crc hverdict
  · intro hrepeats r hr hpos
    rw [records_iff hw hnone hr hpos]
    exact fun v hv crc hverdict ↦ hrepeats v hv crc hverdict r hr hpos

/-- An entry whose content is contradicted has its checksums unchanged exactly when nothing writes
other bytes into them. -/
theorem Contradicted.fields_iff {readToEnd : ReadToEnd} {source data : Bytes} {w : Visit}
    {later : List Visit} (h : Contradicted readToEnd source data w)
    (hreach : Reaches readToEnd source data w later) :
    SameCrc (walked readToEnd source).data source (w.header.pos + 14) ∧
      (∀ r ∈ indexCentralDirectory source, r.1 = w.header.pos →
        SameCrc (walked readToEnd source).data source r.2.fieldOffset) ↔
      FieldsKept readToEnd source w := by
  constructor
  · rintro ⟨hlocal, hrecords⟩
    have hrepeats := (h.localCrc_iff hreach).mp hlocal
    have hnone := h.no_write hreach hrepeats
    exact ⟨hrepeats, (records_unchanged_iff hreach.mem hnone).mp hrecords⟩
  · rintro ⟨hlocal, hrecords⟩
    have hnone := h.no_write hreach hlocal
    refine ⟨(h.localCrc_iff hreach).mpr hlocal, ?_⟩
    exact (records_unchanged_iff hreach.mem hnone).mpr hrecords

/-- The content contradicts the checksums in the source too, once nothing reaches the local one. -/
theorem Contradicted.ne_source {readToEnd : ReadToEnd} {source data : Bytes} {w : Visit}
    {later : List Visit} (h : Contradicted readToEnd source data w)
    (hreach : Reaches readToEnd source data w later) (hkept : FieldsKept readToEnd source w)
    {crc : ℕ} (hcrc : computedCrc readToEnd data w.header = some crc) :
    crc ≠ u32At source (w.header.pos + 14) ∧
      ∀ r ∈ indexCentralDirectory source, r.1 = w.header.pos → crc ≠ r.2.crc := by
  have hread : w.header.storedCrc = u32At data (w.header.pos + 14) :=
    congrArg Header.storedCrc hreach.judged.1
  have hsame : u32le data (w.header.pos + 14) = u32le source (w.header.pos + 14) :=
    u32le_congr fun k hk ↦ (h.kept_local hreach hkept.localCrc hk).buffer hreach
  obtain ⟨computed, hcomputed, hlocal, hrecords⟩ := h.computed
  obtain rfl := Option.some.inj (hcomputed.symm.trans hcrc)
  refine ⟨?_, fun r hr hpos ↦ (hrecords r hr hpos).symm⟩
  rcases hlocal with hvisit | hsource
  · rwa [hread, u32At, hsame] at hvisit
  · exact hsource

/-- An entry whose content is contradicted is left alone when it is out of reach. -/
theorem Contradicted.leftAlone {readToEnd : ReadToEnd} {source data : Bytes} {w : Visit}
    {later : List Visit} (h : Contradicted readToEnd source data w)
    (hreach : Reaches readToEnd source data w later)
    (hout : OutOfReach readToEnd source w later) :
    LeftAlone readToEnd source (walked readToEnd source).data w := by
  have hnone := h.no_write hreach hout.fields.localCrc
  obtain ⟨hlocal, hrecords⟩ := (h.fields_iff hreach).mpr hout.fields
  refine ⟨hlocal, hrecords, fun crc hcrc ↦ ?_⟩
  rw [hout.payload.computedCrc_walked hreach hnone h.plain h.present] at hcrc
  obtain ⟨hdiffers, hapart⟩ := h.ne_source hreach hout.fields hcrc
  rw [hlocal.u32At_eq]
  refine ⟨hdiffers, fun r hr hpos ↦ ?_⟩
  rw [(hrecords r hr hpos).u32At_eq, ← crc_of_mem_index hr]
  exact hapart r hr hpos

/-- No damaged payload is blessed when each of them is out of the reach of the repairs, and only
when nothing reaches its checksums. -/
theorem apply_neverBlesses (readToEnd : ReadToEnd) (source output : Bytes)
    (report : RecoveryReport) (h : apply readToEnd source = .ok (output, report))
    (hwritten : report.success = true) :
    ((∀ data w later, Reaches readToEnd source data w later →
        Contradicted readToEnd source data w → OutOfReach readToEnd source w later) →
      NeverBlesses readToEnd source output) ∧
    (NeverBlesses readToEnd source output →
      ∀ data w later, Reaches readToEnd source data w later →
        Contradicted readToEnd source data w → FieldsKept readToEnd source w) := by
  obtain rfl := eq_walked_of_apply h hwritten
  constructor
  · intro hout data w later hreach hcontradicted
    exact hcontradicted.leftAlone hreach (hout data w later hreach hcontradicted)
  · intro hnever data w later hreach hcontradicted
    have halone := hnever data w later hreach hcontradicted
    exact (hcontradicted.fields_iff hreach).mp ⟨halone.localCrc, halone.records⟩

/-! ## Two archives -/

/-- A stored member called `a`, with the checksum it claims. -/
def memberClaiming (crc : ℕ) (payload : Bytes) : Bytes :=
  [0x50, 0x4b, 0x03, 0x04] ++ List.replicate 10 0 ++ le32 crc ++
    le32 payload.length ++ le32 payload.length ++ le16 1 ++ le16 0 ++ [0x61] ++ payload

/-- A directory record with the checksum it claims, for the local header at `lho`. -/
def recordClaiming (crc lho : ℕ) : Bytes :=
  [0x50, 0x4b, 0x01, 0x02] ++ List.replicate 12 0 ++ le32 crc ++ List.replicate 22 0 ++ le32 lho

/-- A damaged member whose two checksums differ from each other and from its payload's, then a
sound one with a damaged checksum in its record. -/
def damagedBesideSound : Bytes :=
  memberClaiming 7 [0x78] ++ storedMember [0x68, 0x69] ++ recordClaiming 5 0 ++
    recordClaiming 0 32 ++ endOfDirectory 65

theorem visits_damagedBesideSound : visits noDeflate damagedBesideSound =
    [⟨headerAt damagedBesideSound 0, .damaged ['a']⟩,
      ⟨headerAt damagedBesideSound 32, .fixDirectory ⟨127, 0⟩ (crc32Of [0x68, 0x69])⟩] := by
  decide +kernel

/-- The synced record is behind both members, so it reaches neither a local header nor a
payload. -/
theorem outOfReach_damagedBesideSound {data : Bytes} {w : Visit} {later : List Visit}
    (hreach : Reaches noDeflate damagedBesideSound data w later) :
    OutOfReach noDeflate damagedBesideSound w later := by
  have hbehind : w.header.next damagedBesideSound.length ≤ 65 ∧ w.header.pos ≤ 32 := by
    have hall : ∀ v ∈ visits noDeflate damagedBesideSound,
        v.header.next damagedBesideSound.length ≤ 65 ∧ v.header.pos ≤ 32 := by
      rw [visits_damagedBesideSound]
      decide +kernel
    exact hall w hreach.mem
  have hsync : ∀ v ∈ visits noDeflate damagedBesideSound, ∀ cd crc,
      v.verdict = .fixDirectory cd crc → cd.fieldOffset = 127 := by
    rw [visits_damagedBesideSound]
    intro v hv cd crc hverdict
    rcases List.mem_cons.mp hv with rfl | hv
    · cases hverdict
    · rw [List.mem_singleton.mp hv] at hverdict
      cases hverdict
      rfl
  have hlocal : ∀ v ∈ visits noDeflate damagedBesideSound, ∀ crc,
      v.verdict ≠ .fixLocal crc := by
    rw [visits_damagedBesideSound]
    intro v hv crc
    rcases List.mem_cons.mp hv with rfl | hv
    · exact Verdict.noConfusion
    · rw [List.mem_singleton.mp hv]
      exact Verdict.noConfusion
  refine ⟨⟨?_, ?_⟩, ?_⟩
  · rintro v hv cd crc hverdict k hk ⟨hlow, -⟩
    have hfield := hsync v hv cd crc hverdict
    dsimp only at hlow
    omega
  · exact fun v hv crc hverdict ↦ absurd hverdict (hlocal v hv crc)
  · rintro v hv cd crc hverdict x ⟨hlow, -⟩ ⟨-, hhigh⟩
    have hfield := hsync v (hreach.mem_of_later hv) cd crc hverdict
    dsimp only at hlow
    omega

/-- The damaged member is visited, contradicted, and left alone, while the other's record is
repaired. -/
theorem damagedBesideSound_neverBlesses : ∃ output report,
    apply noDeflate damagedBesideSound = .ok (output, report) ∧ report.success = true ∧
      (∃ data w later, Reaches noDeflate damagedBesideSound data w later ∧
        Contradicted noDeflate damagedBesideSound data w) ∧
      NeverBlesses noDeflate damagedBesideSound output := by
  obtain ⟨report, happly, hwritten⟩ :=
    @exists_apply noDeflate damagedBesideSound (by decide +kernel)
  refine ⟨_, report, happly, hwritten, ?_,
    (apply_neverBlesses noDeflate damagedBesideSound _ report happly hwritten).1
      fun data w later hreach _ ↦ outOfReach_damagedBesideSound hreach⟩
  exact ⟨_, _, _, ⟨[], visits_damagedBesideSound, rfl⟩, by decide +kernel, by decide +kernel,
    crc32Of [0x78], by decide +kernel, .inl (by decide +kernel), by decide +kernel⟩

/-- The word `damaged`, and the offset of the member behind it. -/
def damagedPayload : Bytes := [0x64, 0x61, 0x6d, 0x61, 0x67, 0x65, 0x64] ++ le32 46

/-- A directory record that begins four bytes before a damaged member and points at the sound one
behind that; half of its checksum is half of the damaged member's. -/
def overlappingRecord : Bytes :=
  [0x50, 0x4b, 0x01, 0x02] ++ memberClaiming 0x3eb5e733 damagedPayload ++
    storedMember [0xa5, 0x1b] ++ endOfDirectory 0

/-- The damaged member is reported, and then the sync of the other one makes it pass. -/
theorem overlappingRecord_blesses : ∃ output report,
    apply noDeflate overlappingRecord = .ok (output, report) ∧ report.success = true ∧
      ¬NeverBlesses noDeflate overlappingRecord output := by
  obtain ⟨report, happly, hwritten⟩ :=
    @exists_apply noDeflate overlappingRecord (by decide +kernel)
  refine ⟨_, report, happly, hwritten, ?_⟩
  intro hnever
  have hvisits : visits noDeflate overlappingRecord =
      [⟨headerAt overlappingRecord 4, .damaged ['a']⟩,
        ⟨headerAt overlappingRecord 46,
          .fixDirectory ⟨16, 0xe7330000⟩ (crc32Of [0xa5, 0x1b])⟩] := by
    decide +kernel
  have hreach : Reaches noDeflate overlappingRecord overlappingRecord
      ⟨headerAt overlappingRecord 4, .damaged ['a']⟩ _ := ⟨[], hvisits, rfl⟩
  have hcontradicted : Contradicted noDeflate overlappingRecord overlappingRecord
      ⟨headerAt overlappingRecord 4, .damaged ['a']⟩ :=
    ⟨by decide, by decide, crc32Of damagedPayload, by decide,
      .inl (by decide +kernel), by decide +kernel⟩
  have hkept : (walked noDeflate overlappingRecord).data[18]? = overlappingRecord[18]? :=
    (hnever _ _ _ hreach hcontradicted).localCrc 0 (by decide)
  have hbefore : overlappingRecord[18]? = some 0x33 := by decide
  have hafter : (walked noDeflate overlappingRecord).data[18]? = some 0xcc := by decide +kernel
  rw [hbefore, hafter] at hkept
  exact absurd hkept (by decide)

end ZipCrcFix

end VeraqisRecover.Recovery
