import VeraqisRecover.Recovery.ZipCrcFix

/-!
# What the CRC repair leaves alone

Every write goes to a CRC-32 field.  The local headers the walk visits lie
before their payloads and behind the payloads of earlier members, so their
fields are outside of every payload.  The directory is found through the EOCD,
and nothing keeps its records out of the payloads.
-/

namespace VeraqisRecover.Recovery

open ByteString Zip

namespace ZipCrcFix

structure Visit where
  header : Header
  verdict : Verdict
  deriving DecidableEq

/-- The local headers the walk visits, and what it makes of them. -/
def trace (readToEnd : ReadToEnd) (index : List (ℕ × CdCrc)) (len pos : ℕ) (s : State) :
    List Visit :=
  if hroom : pos + 30 ≤ len then
    if u32le s.data pos ≠ some lfhSig then trace readToEnd index len (pos + 1) s
    else
      let h := headerAt s.data pos
      let v := judge readToEnd index len s.data h
      have := @lt_next_headerAt s.data _ _ hroom
      ⟨h, v⟩ :: trace readToEnd index len (h.next len) (s.settle h v)
  else []
termination_by len - pos

/-- The write a visit makes. -/
def Visit.write (v : Visit) : Option (ℕ × Bytes) :=
  match v.verdict with
  | .fixDirectory cd crc => some (cd.fieldOffset, le32 crc)
  | .fixLocal crc => some (v.header.pos + 14, le32 crc)
  | _ => none

theorem Visit.write_eq_some {v : Visit} {u : ℕ × Bytes} : v.write = some u ↔
    (∃ cd crc, v.verdict = .fixDirectory cd crc ∧ u = (cd.fieldOffset, le32 crc)) ∨
      ∃ crc, v.verdict = .fixLocal crc ∧ u = (v.header.pos + 14, le32 crc) := by
  obtain ⟨h, verdict⟩ := v
  cases verdict with
  | skipped => simp [Visit.write]
  | intact => simp [Visit.write]
  | fixDirectory cd crc => simp [Visit.write, eq_comm]
  | fixLocal crc => simp [Visit.write, eq_comm]
  | damaged name => simp [Visit.write]

def writes (vs : List Visit) : List (ℕ × Bytes) := vs.filterMap Visit.write

theorem settle_data (s : State) (h : Header) (v : Verdict) :
    (s.settle h v).data = writeAll s.data (writes [⟨h, v⟩]) := by
  cases v with
  | skipped => rfl
  | intact => rfl
  | fixDirectory cd crc => rfl
  | fixLocal crc => rfl
  | damaged name => rfl

theorem walk_data (readToEnd : ReadToEnd) (index : List (ℕ × CdCrc)) (len pos : ℕ) (s : State) :
    (walk readToEnd index len pos s).data =
      writeAll s.data (writes (trace readToEnd index len pos s)) := by
  fun_induction walk readToEnd index len pos s with
  | case1 pos s hroom hsig ih =>
      rw [ih]
      conv_rhs => rw [trace, dif_pos hroom, if_pos hsig]
  | case2 pos s hroom hsig h _ ih =>
      rw [ih]
      conv_rhs => rw [trace, dif_pos hroom, if_neg hsig]
      rw [settle_data, writeAll, writeAll, writeAll, ← List.foldl_append, writes, writes,
        ← List.filterMap_append]
      rfl
  | case3 pos s hroom =>
      rw [trace, dif_neg hroom]
      rfl

/-! ## Where the visits lie -/

/-- The byte at `x` is in the payload the walk steps over after the header. -/
def Visit.InPayload (len : ℕ) (v : Visit) (x : ℕ) : Prop :=
  v.header.dataStart ≤ x ∧ x < v.header.next len

/-- What is known of every visit from `pos` on. -/
structure Visit.From (index : List (ℕ × CdCrc)) (len pos : ℕ) (v : Visit) : Prop where
  le_pos : pos ≤ v.header.pos
  room : v.header.pos + 30 ≤ len
  le_dataStart : v.header.pos + 30 ≤ v.header.dataStart
  looked_up : ∀ cd crc, v.verdict = .fixDirectory cd crc →
    lookup index v.header.pos = some cd

theorem lookup_of_judge {readToEnd : ReadToEnd} {index : List (ℕ × CdCrc)} {len : ℕ} {data : Bytes}
    {h : Header} {cd : CdCrc} {crc : ℕ}
    (hv : judge readToEnd index len data h = .fixDirectory cd crc) :
    lookup index h.pos = some cd := by
  rw [judge] at hv
  split at hv
  · cases hv
  · split at hv
    · cases hv
    · split at hv
      · cases hv
      · split at hv
        · cases hlookup : lookup index h.pos with
          | none =>
              rw [hlookup] at hv
              cases hv
          | some cd' =>
              rw [hlookup] at hv
              dsimp only at hv
              split at hv
              · cases hv
                rfl
              · cases hv
        · split at hv
          · cases hv
          · cases hv

/-- One member lies entirely before another. -/
def Before (len : ℕ) (v w : Visit) : Prop := v.header.next len ≤ w.header.pos

theorem trace_spec (readToEnd : ReadToEnd) (index : List (ℕ × CdCrc)) (len pos : ℕ) (s : State) :
    (∀ v ∈ trace readToEnd index len pos s, v.From index len pos) ∧
      (trace readToEnd index len pos s).Pairwise (Before len) := by
  fun_induction trace readToEnd index len pos s with
  | case1 pos s hroom hsig ih =>
      obtain ⟨hfrom, hbefore⟩ := ih
      refine ⟨?_, hbefore⟩
      intro v hv
      have h := hfrom v hv
      exact ⟨(Nat.le_succ pos).trans h.le_pos, h.room, h.le_dataStart, h.looked_up⟩
  | case2 pos s hroom hsig h v hlt ih =>
      obtain ⟨hfrom, hbefore⟩ := ih
      refine ⟨?_, List.pairwise_cons.mpr ⟨fun w hw ↦ (hfrom w hw).le_pos, hbefore⟩⟩
      intro w hw
      rcases List.mem_cons.mp hw with rfl | hw
      · exact ⟨le_refl _, hroom, le_dataStart_headerAt s.data pos, fun cd crc hv ↦
          lookup_of_judge hv⟩
      · have hrest := hfrom w hw
        exact ⟨hlt.le.trans hrest.le_pos, hrest.room, hrest.le_dataStart, hrest.looked_up⟩
  | case3 pos s hroom => exact ⟨by simp, List.Pairwise.nil⟩

/-! ## The directory records -/

theorem indexFrom_spec (data : Bytes) (pos : ℕ) :
    (∀ r ∈ indexFrom data pos, pos + 16 ≤ r.2.fieldOffset ∧
        r.2.fieldOffset + 30 ≤ data.length) ∧
      (indexFrom data pos).Pairwise fun r t ↦ r.2.fieldOffset + 46 ≤ t.2.fieldOffset := by
  fun_induction indexFrom data pos with
  | case1 pos hroom hsig => exact ⟨by simp, List.Pairwise.nil⟩
  | case2 pos hroom hsig ih =>
      obtain ⟨hbounds, hapart⟩ := ih
      refine ⟨?_, List.pairwise_cons.mpr ⟨?_, hapart⟩⟩
      · intro r hr
        rcases List.mem_cons.mp hr with rfl | hr
        · exact ⟨le_refl _, by dsimp only; omega⟩
        · have hr' := hbounds r hr
          omega
      · intro r hr
        have hr' := (hbounds r hr).1
        dsimp only
        omega
  | case3 pos hroom => exact ⟨by simp, List.Pairwise.nil⟩

theorem indexFromEocd_cases (data : Bytes) (eocd : Option ℕ) :
    indexFromEocd data eocd = [] ∨ ∃ pos, indexFromEocd data eocd = indexFrom data pos := by
  cases eocd with
  | none => exact Or.inl rfl
  | some eocdPos =>
      rw [indexFromEocd]
      by_cases hroom : data.length < eocdPos + 22
      · rw [if_pos hroom]
        exact Or.inl rfl
      · rw [if_neg hroom]
        by_cases hin : data.length ≤ u32At data (eocdPos + 16)
        · exact Or.inl (if_pos hin)
        · exact Or.inr ⟨u32At data (eocdPos + 16), if_neg hin⟩

theorem index_spec (data : Bytes) :
    (∀ r ∈ indexCentralDirectory data, r.2.fieldOffset + 30 ≤ data.length) ∧
      (indexCentralDirectory data).Pairwise fun r t ↦
        r.2.fieldOffset + 46 ≤ t.2.fieldOffset := by
  rw [indexCentralDirectory]
  rcases indexFromEocd_cases data (findEocd data) with hnil | ⟨pos, hpos⟩
  · rw [hnil]
    exact ⟨by simp, List.Pairwise.nil⟩
  · obtain ⟨hbounds, hapart⟩ := indexFrom_spec data pos
    rw [hpos]
    exact ⟨fun r hr ↦ (hbounds r hr).2, hapart⟩

theorem mem_of_lookup {index : List (ℕ × CdCrc)} {pos : ℕ} {cd : CdCrc}
    (h : lookup index pos = some cd) : (pos, cd) ∈ index := by
  obtain ⟨r, hr, rfl⟩ := Option.map_eq_some_iff.mp h
  have hmem := List.mem_reverse.mp (List.mem_of_find?_eq_some hr)
  have hpos : r.1 = pos := by simpa using List.find?_some hr
  rw [← hpos]
  exact hmem

theorem related_of_mem {α : Type*} {R : α → α → Prop} {l : List α} (h : l.Pairwise R) {a b : α}
    (ha : a ∈ l) (hb : b ∈ l) : a = b ∨ R a b ∨ R b a := by
  induction h with
  | nil => cases ha
  | @cons c l hhead _ ih =>
      rcases List.mem_cons.mp ha with hac | hal
      · rcases List.mem_cons.mp hb with hbc | hbl
        · exact Or.inl (hac.trans hbc.symm)
        · exact Or.inr (Or.inl (hac ▸ hhead b hbl))
      · rcases List.mem_cons.mp hb with hbc | hbl
        · exact Or.inr (Or.inr (hbc ▸ hhead a hal))
        · exact ih hal hbl

/-- Records for different local headers have fields apart from one another. -/
theorem eq_of_covers {data : Bytes} {p q x : ℕ} {cd cd' : CdCrc} {crc crc' : ℕ}
    (hp : lookup (indexCentralDirectory data) p = some cd)
    (hq : lookup (indexCentralDirectory data) q = some cd')
    (hx : Covers (cd.fieldOffset, le32 crc) x) (hx' : Covers (cd'.fieldOffset, le32 crc') x) :
    p = q := by
  obtain ⟨hlow, hhigh⟩ := hx
  obtain ⟨hlow', hhigh'⟩ := hx'
  rw [length_le32] at hhigh hhigh'
  rcases related_of_mem (index_spec data).2 (mem_of_lookup hp) (mem_of_lookup hq) with
    hsame | hlt | hlt
  · exact congrArg Prod.fst hsame
  · dsimp only at *
    omega
  · dsimp only at *
    omega

/-! ## The frame -/

section Frame

variable {readToEnd : ReadToEnd} {source : Bytes} {v w : Visit} {x : ℕ}

/-- The visits of the whole walk. -/
def visits (readToEnd : ReadToEnd) (source : Bytes) : List Visit :=
  trace readToEnd (indexCentralDirectory source) source.length 0 ⟨source, 0, 0, []⟩

theorem from_of_mem (h : v ∈ visits readToEnd source) :
    v.From (indexCentralDirectory source) source.length 0 :=
  (trace_spec readToEnd (indexCentralDirectory source) source.length 0 _).1 v h

theorem before_of_mem (hv : v ∈ visits readToEnd source) (hw : w ∈ visits readToEnd source) :
    v = w ∨ Before source.length v w ∨ Before source.length w v :=
  related_of_mem (trace_spec readToEnd (indexCentralDirectory source) source.length 0 _).2 hv hw

theorem walked_data (readToEnd : ReadToEnd) (source : Bytes) :
    (walked readToEnd source).data = writeAll source (writes (visits readToEnd source)) :=
  walk_data readToEnd (indexCentralDirectory source) source.length 0 _

/-- The CRC-32 field of a visited local header is in no payload. -/
theorem not_covers_of_fixLocal {crc : ℕ} (hv : v ∈ visits readToEnd source)
    (hw : w ∈ visits readToEnd source) (hx : w.InPayload source.length x) :
    ¬Covers (v.header.pos + 14, le32 crc) x := by
  rintro ⟨hlow, hhigh⟩
  rw [length_le32] at hhigh
  obtain ⟨hstart, hend⟩ := hx
  have hv' := from_of_mem hv
  have hw' := from_of_mem hw
  have hvnext := Header.add_le_next hv'.room hv'.le_dataStart
  have hwstart := hw'.le_dataStart
  dsimp only at hlow hhigh
  rcases before_of_mem hv hw with rfl | hbefore | hbefore
  · omega
  · rw [Before] at hbefore
    omega
  · rw [Before] at hbefore
    omega

theorem exists_of_mem_writes {vs : List Visit} {u : ℕ × Bytes} (hu : u ∈ writes vs) :
    ∃ v ∈ vs, (∃ cd crc, v.verdict = .fixDirectory cd crc ∧ u = (cd.fieldOffset, le32 crc)) ∨
      ∃ crc, v.verdict = .fixLocal crc ∧ u = (v.header.pos + 14, le32 crc) := by
  obtain ⟨v, hv, hwrite⟩ := List.mem_filterMap.mp hu
  exact ⟨v, hv, Visit.write_eq_some.mp hwrite⟩

theorem lookup_of_mem {cd : CdCrc} {crc : ℕ} (hv : v ∈ visits readToEnd source)
    (hverdict : v.verdict = .fixDirectory cd crc) :
    lookup (indexCentralDirectory source) v.header.pos = some cd :=
  (from_of_mem hv).looked_up cd crc hverdict

theorem fits_writes (readToEnd : ReadToEnd) (source : Bytes) :
    Fits source.length (writes (visits readToEnd source)) := by
  intro u hu
  obtain ⟨v, hv, ⟨cd, crc, hverdict, rfl⟩ | ⟨crc, -, rfl⟩⟩ := exists_of_mem_writes hu
  · have hroom := (index_spec source).1 _ (mem_of_lookup (lookup_of_mem hv hverdict))
    dsimp only at hroom ⊢
    rw [length_le32]
    omega
  · have hroom := (from_of_mem hv).room
    dsimp only
    rw [length_le32]
    omega

theorem length_walked (readToEnd : ReadToEnd) (source : Bytes) :
    (walked readToEnd source).data.length = source.length := by
  rw [walked_data, length_writeAll (fits_writes readToEnd source)]

/-- A byte that only one visit writes is what that visit wrote. -/
theorem getElem?_walked_of_sole {u : ℕ × Bytes} (hv : v ∈ visits readToEnd source)
    (hwrite : v.write = some u) (hcovers : Covers u x)
    (hsole : ∀ t ∈ visits readToEnd source, ∀ u', t.write = some u' → Covers u' x →
      t.header.pos = v.header.pos) :
    (walked readToEnd source).data[x]? = u.2[x - u.1]? := by
  obtain ⟨pre, post, hsplit⟩ := List.append_of_mem hv
  have hwrites : writes (visits readToEnd source) = writes pre ++ u :: writes post := by
    rw [hsplit, writes, List.filterMap_append, List.filterMap_cons, hwrite]
    rfl
  have hfits := fits_writes readToEnd source
  rw [hwrites] at hfits
  have hlater : ∀ u' ∈ writes post, ¬Covers u' x := by
    intro u' hu' hcovers'
    obtain ⟨t, ht, hwrite'⟩ := List.mem_filterMap.mp hu'
    have htv : t ∈ visits readToEnd source := by
      rw [hsplit]
      exact List.mem_append_right _ (List.mem_cons_of_mem _ ht)
    have hpos := hsole t htv u' hwrite' hcovers'
    -- One local header is visited once, so no later visit is at this position.
    have hpair := (trace_spec readToEnd (indexCentralDirectory source) source.length 0
      ⟨source, 0, 0, []⟩).2
    rw [← visits, hsplit, List.pairwise_append] at hpair
    have hbefore : Before source.length v t := List.rel_of_pairwise_cons hpair.2.1 ht
    have hvfrom := from_of_mem hv
    have hnext := Header.add_le_next hvfrom.room hvfrom.le_dataStart
    rw [Before] at hbefore
    omega
  rw [walked_data, hwrites]
  exact getElem?_writeAll_of_last hfits hcovers hlater

/-- In a payload the directory field that was synced there has the last word. -/
theorem getElem?_walked_of_synced {cd : CdCrc} {crc : ℕ} (hv : v ∈ visits readToEnd source)
    (hverdict : v.verdict = .fixDirectory cd crc) (hw : w ∈ visits readToEnd source)
    (hcovers : Covers (cd.fieldOffset, le32 crc) x) (hx : w.InPayload source.length x) :
    (walked readToEnd source).data[x]? = (le32 crc)[x - cd.fieldOffset]? := by
  have hwrite : v.write = some (cd.fieldOffset, le32 crc) :=
    Visit.write_eq_some.mpr (.inl ⟨cd, crc, hverdict, rfl⟩)
  apply getElem?_walked_of_sole hv hwrite hcovers
  intro t ht u hu hux
  rcases Visit.write_eq_some.mp hu with ⟨cd', crc', hverdict', rfl⟩ | ⟨crc', -, rfl⟩
  · exact eq_of_covers (lookup_of_mem ht hverdict') (lookup_of_mem hv hverdict) hux hcovers
  · exact absurd hux (not_covers_of_fixLocal ht hw hx)

/-- A payload byte outside of every synced directory field stays. -/
theorem getElem?_walked_of_unsynced (hw : w ∈ visits readToEnd source)
    (hx : w.InPayload source.length x)
    (hapart : ∀ v ∈ visits readToEnd source, ∀ cd crc, v.verdict = .fixDirectory cd crc →
      ¬Covers (cd.fieldOffset, le32 crc) x) :
    (walked readToEnd source).data[x]? = source[x]? := by
  rw [walked_data]
  apply getElem?_writeAll_of_apart (fits_writes readToEnd source)
  intro u hu hux
  obtain ⟨v, hv, ⟨cd, crc, hverdict, rfl⟩ | ⟨crc, -, rfl⟩⟩ := exists_of_mem_writes hu
  · exact hapart v hv cd crc hverdict hux
  · exact not_covers_of_fixLocal hv hw hx hux

end Frame

/-- The byte at `x` is in the CRC-32 field of a visited local header or of a directory record. -/
def InCrcField (readToEnd : ReadToEnd) (source : Bytes) (x : ℕ) : Prop :=
  (∃ v ∈ visits readToEnd source, v.header.pos + 14 ≤ x ∧ x < v.header.pos + 14 + 4) ∨
    ∃ r ∈ indexCentralDirectory source, r.2.fieldOffset ≤ x ∧ x < r.2.fieldOffset + 4

/-- The output is the source but for CRC-32 fields, and no payload byte differs. -/
structure Framed (readToEnd : ReadToEnd) (source output : Bytes) : Prop where
  length_eq : output.length = source.length
  in_fields : ∀ x, output[x]? ≠ source[x]? → InCrcField readToEnd source x
  payloads : ∀ w ∈ visits readToEnd source, ∀ x, w.InPayload source.length x →
    output[x]? = source[x]?

/-- A directory field that is synced already holds the new value wherever it lies in a payload. -/
def SparesPayloads (readToEnd : ReadToEnd) (source : Bytes) : Prop :=
  ∀ v ∈ visits readToEnd source, ∀ cd crc, v.verdict = .fixDirectory cd crc →
    ∀ w ∈ visits readToEnd source, ∀ x, Covers (cd.fieldOffset, le32 crc) x →
      w.InPayload source.length x → source[x]? = (le32 crc)[x - cd.fieldOffset]?

theorem inCrcField_of_walked_ne (readToEnd : ReadToEnd) (source : Bytes) (x : ℕ)
    (h : (walked readToEnd source).data[x]? ≠ source[x]?) : InCrcField readToEnd source x := by
  by_contra hout
  apply h
  rw [walked_data]
  apply getElem?_writeAll_of_apart (fits_writes readToEnd source)
  intro u hu hux
  obtain ⟨hlow, hhigh⟩ := hux
  obtain ⟨v, hv, ⟨cd, crc, hverdict, rfl⟩ | ⟨crc, -, rfl⟩⟩ := exists_of_mem_writes hu
  · rw [length_le32] at hhigh
    exact hout (Or.inr ⟨_, mem_of_lookup (lookup_of_mem hv hverdict), hlow, hhigh⟩)
  · rw [length_le32] at hhigh
    exact hout (Or.inl ⟨v, hv, hlow, hhigh⟩)

theorem eq_walked_of_apply {readToEnd : ReadToEnd} {source output : Bytes} {report : RecoveryReport}
    (h : apply readToEnd source = .ok (output, report)) (hwritten : report.success = true) :
    output = (walked readToEnd source).data := by
  simp only [apply] at h
  split at h
  · obtain ⟨-, rfl⟩ := Prod.mk.inj (Except.ok.inj h)
    cases hwritten
  · exact (Prod.mk.inj (Except.ok.inj h)).1.symm

theorem exists_apply {readToEnd : ReadToEnd} {source : Bytes}
    (h : (walked readToEnd source).lfhFixed + (walked readToEnd source).cdFixed ≠ 0) :
    ∃ report, apply readToEnd source = .ok ((walked readToEnd source).data, report) ∧
      report.success = true := by
  rw [apply]
  dsimp only
  rw [if_neg h]
  exact ⟨_, rfl, rfl⟩

/-- What is written differs from the source in CRC-32 fields only; the payloads stay exactly
when the synced directory fields spare them. -/
theorem apply_framed_iff (readToEnd : ReadToEnd) (source output : Bytes) (report : RecoveryReport)
    (h : apply readToEnd source = .ok (output, report)) (hwritten : report.success = true) :
    Framed readToEnd source output ↔ SparesPayloads readToEnd source := by
  have houtput := eq_walked_of_apply h hwritten
  subst houtput
  constructor
  · intro hframed v hv cd crc hverdict w hw x hcovers hx
    rw [← getElem?_walked_of_synced hv hverdict hw hcovers hx]
    exact (hframed.payloads w hw x hx).symm
  · intro hspares
    refine ⟨length_walked readToEnd source, inCrcField_of_walked_ne readToEnd source, ?_⟩
    intro w hw x hx
    by_cases hsynced : ∃ v ∈ visits readToEnd source, ∃ cd crc,
        v.verdict = .fixDirectory cd crc ∧ Covers (cd.fieldOffset, le32 crc) x
    · obtain ⟨v, hv, cd, crc, hverdict, hcovers⟩ := hsynced
      rw [getElem?_walked_of_synced hv hverdict hw hcovers hx]
      exact (hspares v hv cd crc hverdict w hw x hcovers hx).symm
    · apply getElem?_walked_of_unsynced hw hx
      intro v hv cd crc hverdict hcovers
      exact hsynced ⟨v, hv, cd, crc, hverdict, hcovers⟩

/-! ## Two archives -/

/-- A stored member called `a`, with a sound checksum. -/
def storedMember (payload : Bytes) : Bytes :=
  [0x50, 0x4b, 0x03, 0x04] ++ List.replicate 10 0 ++ le32 (crc32Of payload) ++
    le32 payload.length ++ le32 payload.length ++ le16 1 ++ le16 0 ++ [0x61] ++ payload

/-- A directory record for the first member, with a damaged checksum. -/
def damagedRecord : Bytes := [0x50, 0x4b, 0x01, 0x02] ++ List.replicate 42 0

def endOfDirectory (cdOffset : ℕ) : Bytes :=
  [0x50, 0x4b, 0x05, 0x06] ++ List.replicate 12 0 ++ le32 cdOffset ++ le16 0

/-- The record stands behind the member. -/
def misfiledArchive : Bytes :=
  storedMember [0x68, 0x69] ++ damagedRecord ++ endOfDirectory 33

/-- The record stands in the member. -/
def nestedRecord : Bytes := storedMember damagedRecord ++ endOfDirectory 31

/-- A decoder that no stored member calls. -/
def noDeflate : ReadToEnd := fun _ ↦ ([], true)

theorem misfiledArchive_framed_iff : ∃ output report,
    apply noDeflate misfiledArchive = .ok (output, report) ∧ report.success = true ∧
      (Framed noDeflate misfiledArchive output ↔ SparesPayloads noDeflate misfiledArchive) := by
  obtain ⟨report, happly, hwritten⟩ :=
    @exists_apply noDeflate misfiledArchive (by decide +kernel)
  exact ⟨_, report, happly, hwritten,
    apply_framed_iff noDeflate misfiledArchive _ report happly hwritten⟩

/-- The walk finds the member intact and then writes into its payload. -/
theorem nestedRecord_not_framed : ∃ output report,
    apply noDeflate nestedRecord = .ok (output, report) ∧ report.success = true ∧
      ¬Framed noDeflate nestedRecord output := by
  obtain ⟨report, happly, hwritten⟩ := @exists_apply noDeflate nestedRecord (by decide +kernel)
  refine ⟨_, report, happly, hwritten, ?_⟩
  intro hframed
  have hvisits : visits noDeflate nestedRecord =
      [⟨headerAt nestedRecord 0, .fixDirectory ⟨47, 0⟩ (crc32Of damagedRecord)⟩] := by
    decide +kernel
  have hmember : ⟨headerAt nestedRecord 0, .fixDirectory ⟨47, 0⟩ (crc32Of damagedRecord)⟩ ∈
      visits noDeflate nestedRecord := by
    rw [hvisits]
    exact List.mem_singleton_self _
  have hkept := hframed.payloads _ hmember 47 ⟨by decide, by decide⟩
  have hbefore : nestedRecord[47]? = some 0 := by decide
  have hafter : (walked noDeflate nestedRecord).data[47]? = some 0x52 := by decide +kernel
  rw [hbefore, hafter] at hkept
  cases hkept

end ZipCrcFix

end VeraqisRecover.Recovery
