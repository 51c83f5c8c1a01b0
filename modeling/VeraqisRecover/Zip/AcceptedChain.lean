import VeraqisRecover.Support.FirstOfRun
import VeraqisRecover.Zip.OffsetMonotone
import VeraqisRecover.Zip.StoredCodec
import VeraqisRecover.Zip.SurvivingDirectory

/-!
# Acceptance as a proof

An accepted chain is contiguous, agrees with the EOCD, and one shift explains
all of its records.  A record's name is compared in its lossy decoding, so the
header it lands on carries the record's exact name just when that name is UTF-8.
-/

namespace VeraqisRecover.Zip

open ByteString LossyUtf8

namespace CdScan

/-! ## Chains -/

/-- A contiguous chain of parsed records, each with the position it was parsed at. -/
inductive ChainAt (data : Bytes) : ℕ → List (ℕ × CdRecord) → ℕ → Prop
  | nil (pos : ℕ) : ChainAt data pos [] pos
  | cons {pos stop : ℕ} {r : CdRecord} {rest : List (ℕ × CdRecord)}
      (head : parseRecord data pos = some r) (tail : ChainAt data r.stop rest stop) :
      ChainAt data pos ((pos, r) :: rest) stop

namespace ChainAt

variable {data : Bytes} {pos stop : ℕ} {recs : List (ℕ × CdRecord)}

theorem le (h : ChainAt data pos recs stop) : pos ≤ stop := by
  induction h with
  | nil => exact le_rfl
  | cons head tail ih =>
      have hb := parseRecord_bounds head
      omega

theorem lt_of_ne_nil (h : ChainAt data pos recs stop) (hne : recs ≠ []) : pos < stop := by
  cases h with
  | nil => exact absurd rfl hne
  | cons head tail =>
      have hb := parseRecord_bounds head
      have hle := tail.le
      omega

/-- Where a chain starts and stops determines its records. -/
theorem unique (h : ChainAt data pos recs stop) {recs' : List (ℕ × CdRecord)}
    (h' : ChainAt data pos recs' stop) : recs = recs' := by
  induction h generalizing recs' with
  | nil pos =>
      by_contra hne
      exact absurd (h'.lt_of_ne_nil (Ne.symm hne)) (lt_irrefl _)
  | cons head tail ih =>
      cases h' with
      | nil =>
          have hb := parseRecord_bounds head
          have hle := tail.le
          omega
      | cons head' tail' =>
          obtain rfl := Option.some.inj (head.symm.trans head')
          rw [ih tail']

theorem parsed (h : ChainAt data pos recs stop) : ∀ q ∈ recs, parseRecord data q.1 = some q.2 := by
  induction h with
  | nil => simp
  | cons head tail ih =>
      intro q hq
      rcases List.mem_cons.mp hq with rfl | hq
      · exact head
      · exact ih q hq

end ChainAt

theorem walkChain_chain {data : Bytes} {pos : ℕ} {records : List CdRecord} :
    ∃ recs, ChainAt data pos recs (walkChain data pos records).2 ∧
      (walkChain data pos records).1 = records ++ recs.map Prod.snd := by
  fun_induction walkChain data pos records with
  | case1 pos records hlt hrec => exact ⟨[], .nil pos, by simp⟩
  | case2 pos records hlt r hrec hb ih =>
      obtain ⟨recs, hchain, hrecs⟩ := ih
      exact ⟨(pos, r) :: recs, .cons hrec hchain, by simp [hrecs]⟩
  | case3 pos records hlt => exact ⟨[], .nil pos, by simp⟩

/-! ## What a record says and what it lands on -/

/-- The name of the record at `pos`, as it stands in the file. -/
def nameBytes (data : Bytes) (pos : ℕ) : Option Bytes :=
  (u16le data (pos + 28)).bind fun nameLen ↦ slice? data (pos + 46) (pos + 46 + nameLen)

theorem parseRecord_name {data : Bytes} {pos : ℕ} {r : CdRecord}
    (h : parseRecord data pos = some r) :
    ∃ raw, nameBytes data pos = some raw ∧ r.name = fromUtf8Lossy raw := by
  simp only [parseRecord, Option.bind_eq_bind, Option.bind_eq_some_iff,
    Option.ite_none_left_eq_some, Option.some.injEq] at h
  obtain ⟨_, -, -, nameLen, hlen, _, -, _, -, _, -, _, -, _, -, -, raw, hraw, -, _, -, _, -,
    rfl⟩ := h
  exact ⟨raw, by rw [nameBytes, hlen, Option.bind_some, hraw], rfl⟩

/-- A local header with this name and method stands at `pos`. -/
structure HeaderFor (data : Bytes) (pos : ℕ) (name : Bytes) (method : ℕ) : Prop where
  signature : u32le data pos = some lfhSig
  named : ∃ nameLen, u16le data (pos + 26) = some nameLen ∧
    slice? data (pos + 30) (pos + 30 + nameLen) = some name
  method : u16le data (pos + 8) = some method

theorem HeaderFor.name_unique {data : Bytes} {pos : ℕ} {name name' : Bytes} {method method' : ℕ}
    (h : HeaderFor data pos name method) (h' : HeaderFor data pos name' method') :
    name = name' := by
  obtain ⟨n, hn, hs⟩ := h.named
  obtain ⟨n', hn', hs'⟩ := h'.named
  obtain rfl := Option.some.inj (hn.symm.trans hn')
  exact Option.some.inj (hs.symm.trans hs')

/-- The shifted offset of a record is a file position, and a local header with the record's exact
name and method stands there. -/
def Lands (data : Bytes) (delta : ℤ) (q : ℕ × CdRecord) : Prop :=
  ∃ (o : ℕ) (raw : Bytes), (q.2.lfhOffset : ℤ) + delta = o ∧ o < 2 ^ 63 ∧
    nameBytes data q.1 = some raw ∧ HeaderFor data o raw q.2.method

theorem supportOf_eq_supported {data : Bytes} {delta : ℤ} {r : CdRecord} :
    supportOf data delta r = .supported ↔ ∃ o : ℕ, (r.lfhOffset : ℤ) + delta = o ∧ o < 2 ^ 63 ∧
      HeaderFor data o (asBytes r.name) r.method := by
  constructor
  · intro h
    unfold supportOf at h
    split at h
    · cases h
    · rename_i x hx
      obtain ⟨hrange, hsum⟩ := checkedAddI64_eq_some.mp hx
      dsimp only at h
      split_ifs at h with hneg hlen hok
      obtain ⟨hsig, hname, hmethod⟩ := hok
      obtain ⟨n, hn, hs⟩ := (Option.any_eq_true _ _).mp hname
      exact ⟨x.toNat, by omega, by omega, hsig, ⟨n, hn, of_decide_eq_true hs⟩, hmethod⟩
  · rintro ⟨o, hsum, ho, hsig, ⟨n, hn, hs⟩, hmethod⟩
    have hx : checkedAddI64 r.lfhOffset delta = some (o : ℤ) :=
      checkedAddI64_eq_some.mpr ⟨by omega, hsum⟩
    obtain ⟨⟨-, hend⟩, -⟩ := slice?_eq_some.mp hs
    unfold supportOf
    rw [hx]
    dsimp only
    rw [if_neg (by omega), Int.toNat_natCast, if_pos (by omega), if_pos]
    exact ⟨hsig, by rw [hn, Option.any_some, decide_eq_true hs], hmethod⟩

theorem supportOf_ne_conflicting {data : Bytes} {delta : ℤ} {r : CdRecord}
    (h : supportOf data delta r ≠ .conflicting) :
    (r.lfhOffset : ℤ) + delta < 0 ∨ 2 ^ 63 ≤ (r.lfhOffset : ℤ) + delta ∨
      supportOf data delta r = .supported := by
  unfold supportOf at h ⊢
  split at h
  · rename_i hnone
    unfold checkedAddI64 at hnone
    split at hnone
    · cases hnone
    · omega
  · rename_i x hx
    obtain ⟨-, hsum⟩ := checkedAddI64_eq_some.mp hx
    dsimp only at h ⊢
    split_ifs at h ⊢ with hneg hlen hok
    · exact .inl (by omega)
    · exact .inr (.inr rfl)
    · exact absurd rfl h
    · exact absurd rfl h

/-- A record whose decoded name matches lands on its exact name just when that name is UTF-8. -/
theorem lands_iff_of_supported {data : Bytes} {delta : ℤ} {q : ℕ × CdRecord}
    (hparse : parseRecord data q.1 = some q.2) (h : supportOf data delta q.2 = .supported) :
    Lands data delta q ↔ ∃ raw, nameBytes data q.1 = some raw ∧ isUtf8 raw = true := by
  obtain ⟨o, hsum, ho, hheader⟩ := supportOf_eq_supported.mp h
  obtain ⟨raw, hraw, hname⟩ := parseRecord_name hparse
  rw [hname] at hheader
  constructor
  · rintro ⟨o', raw', hsum', -, hraw', hheader'⟩
    obtain rfl : o = o' := by omega
    obtain rfl := Option.some.inj (hraw.symm.trans hraw')
    exact ⟨raw, hraw, asBytes_fromUtf8Lossy_iff.mp (hheader.name_unique hheader')⟩
  · rintro ⟨raw', hraw', hutf⟩
    obtain rfl := Option.some.inj (hraw.symm.trans hraw')
    rw [asBytes_fromUtf8Lossy hutf] at hheader
    exact ⟨o, raw, hsum, ho, hraw, hheader⟩

/-! ## What the report records about a candidate -/

/-- The shift that one record implies: where the first local header with its decoded name stands. -/
def impliedDelta (data : Bytes) (r : CdRecord) : Option ℤ :=
  ((indexLocalHeaders data).lookup r.name).bind fun actual ↦ checkedAddI64 actual (-r.lfhOffset)

theorem mem_impliedDeltas {data : Bytes} {records : List CdRecord} {delta : ℤ} :
    delta ∈ impliedDeltas (indexLocalHeaders data) records ↔
      ∃ r ∈ records, impliedDelta data r = some delta := by
  have hsub : ∀ l : List ℤ, delta ∈ l.destutter (· ≠ ·) ↔ delta ∈ l := by
    refine fun l ↦ ⟨fun h ↦ (List.destutter_sublist _ _).subset h, fun h ↦ ?_⟩
    have hkept : ∃ x ∈ l.destutter (· ≠ ·), x = delta := FirstOfRun.exists_mem_destutter h
    obtain ⟨x, hx, hkey⟩ := hkept
    exact hkey ▸ hx
  rw [impliedDeltas, hsub, List.mem_insertionSort, List.mem_filterMap]
  rfl

theorem judge_start (data : Bytes) (lfh : List (Text × ℕ)) (records : List CdRecord)
    (c : CdCandidate) : (judge data lfh records c).start = c.start ∧
      (judge data lfh records c).stop = c.stop ∧
      (judge data lfh records c).recordCount = c.recordCount := by
  unfold judge
  dsimp only
  split
  · exact ⟨rfl, rfl, rfl⟩
  · split_ifs <;> exact ⟨rfl, rfl, rfl⟩
  · exact ⟨rfl, rfl, rfl⟩

theorem judge_isProven {data : Bytes} {lfh : List (Text × ℕ)} {records : List CdRecord}
    {c : CdCandidate} (h : (judge data lfh records c).isProven = true) :
    ∃ delta, (judge data lfh records c).acceptedDelta = some delta ∧
      impliedDeltas lfh records = [delta] ∧
      (∀ r ∈ records, supportOf data delta r ≠ .conflicting) ∧
      ∃ r ∈ records, supportOf data delta r = .supported := by
  unfold judge at h ⊢
  dsimp only at h ⊢
  split at h
  · simp [CdCandidate.isProven] at h
  · rename_i delta hdeltas
    split_ifs at h ⊢ with hconflict hsupported hcons
    · simp [CdCandidate.isProven] at h
    · simp [CdCandidate.isProven] at h
    · refine ⟨delta, rfl, hdeltas, fun r hr hbad ↦ hconflict ?_, ?_⟩
      · exact List.count_pos_iff.mpr (List.mem_map.mpr ⟨r, hr, hbad⟩)
      · exact List.mem_map.mp (List.count_pos_iff.mp (Nat.pos_of_ne_zero hsupported))
    · simp [CdCandidate.isProven] at h
  · simp [CdCandidate.isProven] at h

/-- What a recorded candidate says about the chain it was walked from. -/
structure CdCandidate.Judged (data : Bytes) (c : CdCandidate) : Prop where
  chain : ∃ recs, ChainAt data c.start recs c.stop ∧ c.recordCount = recs.length ∧
    (c.isProven = true → ∃ delta, c.acceptedDelta = some delta ∧
      (∀ d, (∃ q ∈ recs, impliedDelta data q.2 = some d) ↔ d = delta) ∧
      (∀ q ∈ recs, supportOf data delta q.2 ≠ .conflicting) ∧
      ∃ q ∈ recs, supportOf data delta q.2 = .supported)

/-- The candidates so far are judged, start below the end of the last chain and are in order of
their starts. -/
structure Enumerated (data : Bytes) (acc : ℕ × List CdCandidate) : Prop where
  judged : ∀ c ∈ acc.2, c.Judged data
  below : ∀ c ∈ acc.2, c.start < acc.1
  ordered : acc.2.Pairwise fun c c' ↦ c.start < c'.start

theorem judge_judged {data : Bytes} {c : CdCandidate} {recs : List (ℕ × CdRecord)}
    (hchain : ChainAt data c.start recs c.stop) (hcount : c.recordCount = recs.length) :
    (judge data (indexLocalHeaders data) (recs.map Prod.snd) c).Judged data := by
  obtain ⟨hstart, hstop, hrecords⟩ :=
    judge_start data (indexLocalHeaders data) (recs.map Prod.snd) c
  refine ⟨recs, hstart ▸ hstop ▸ hchain, hrecords ▸ hcount, fun hproven ↦ ?_⟩
  obtain ⟨delta, hdelta, himplied, hnone, r, hr, hsupported⟩ := judge_isProven hproven
  refine ⟨delta, hdelta, fun d ↦ ?_, fun q hq ↦ hnone q.2 (List.mem_map_of_mem hq), ?_⟩
  · have hmem : d ∈ impliedDeltas (indexLocalHeaders data) (recs.map Prod.snd) ↔ _ :=
      mem_impliedDeltas
    rw [himplied, List.mem_singleton] at hmem
    rw [hmem]
    exact ⟨fun ⟨q, hq, hd⟩ ↦ ⟨q.2, List.mem_map_of_mem hq, hd⟩, fun ⟨r, hr, hd⟩ ↦
      have ⟨q, hq, hqr⟩ := List.mem_map.mp hr
      ⟨q, hq, hqr ▸ hd⟩⟩
  · obtain ⟨q, hq, rfl⟩ := List.mem_map.mp hr
    exact ⟨q, hq, hsupported⟩

theorem validateStart_enumerated {data : Bytes} {declared : DeclaredEocd}
    {acc : ℕ × List CdCandidate} (start : ℕ) (h : Enumerated data acc) :
    Enumerated data (validateStart data (indexLocalHeaders data) declared acc start) := by
  unfold validateStart
  split
  · exact h
  · rename_i hstart
    dsimp only
    split
    · exact h
    · rename_i hne
      obtain ⟨recs, hchain, hrecs⟩ := @walkChain_chain data start []
      rw [List.nil_append] at hrecs
      have hlt : start < (walkChain data start []).2 :=
        hchain.lt_of_ne_nil fun hnil ↦ hne (by rw [hrecs, hnil, List.map_nil])
      have hkept := fun c ↦ judge_start data (indexLocalHeaders data)
        (walkChain data start []).1 c
      refine ⟨fun c hc ↦ ?_, fun c hc ↦ ?_, ?_⟩
      · rcases List.mem_append.mp hc with hc | hc
        · exact h.judged c hc
        · rw [List.mem_singleton.mp hc, hrecs]
          exact judge_judged hchain (List.length_map _)
      · rcases List.mem_append.mp hc with hc | hc
        · have hb := h.below c hc
          dsimp only
          omega
        · rw [List.mem_singleton.mp hc, (hkept _).1]
          exact hlt
      · refine List.pairwise_append.mpr ⟨h.ordered, List.pairwise_singleton _ _, ?_⟩
        intro c hc c' hc'
        rw [List.mem_singleton.mp hc', (hkept _).1]
        have hb := h.below c hc
        dsimp only
        omega

theorem foldl_enumerated {data : Bytes} {declared : DeclaredEocd} (starts : List ℕ)
    {acc : ℕ × List CdCandidate} (h : Enumerated data acc) :
    Enumerated data (starts.foldl (validateStart data (indexLocalHeaders data) declared) acc) := by
  induction starts generalizing acc with
  | nil => exact h
  | cons start starts ih => exact ih (validateStart_enumerated start h)

/-- With a candidate accepted, the report is the plain enumeration. -/
theorem accepted_enumerated {data : Bytes} {c : CdCandidate}
    (h : (scanSurvivingCd data).acceptedCandidate = some c) :
    ∃ last, Enumerated data (last, (scanSurvivingCd data).candidates) := by
  have hnone : Enumerated data (0, []) := ⟨by simp, by simp, List.Pairwise.nil⟩
  have hall := @foldl_enumerated data (declaredEocd data) (signatureStarts data) _ hnone
  unfold scanSurvivingCd at h ⊢
  by_cases hlen : data.length < 46
  · rw [if_pos hlen] at h
    cases h
  · rw [if_neg hlen] at h ⊢
    dsimp only at h ⊢
    split at h
    · cases h
    · exact ⟨_, hall⟩
    · cases h

/-! ## Acceptance -/

/-- The chain of a candidate is contiguous, agrees with the EOCD, and `delta` takes every record
before the file or to its own local header, and some record to its header. -/
structure ShownBy (data : Bytes) (c : CdCandidate) (delta : ℤ) (recs : List (ℕ × CdRecord)) :
    Prop where
  chain : ChainAt data c.start recs c.stop
  recordCount : c.recordCount = recs.length
  byteLen : c.byteLen = c.stop - c.start
  eocd : findEocd data = some c.stop
  count : u16le data (c.stop + 10) = some c.recordCount
  size : u32le data (c.stop + 12) = some c.byteLen
  explained : ∀ q ∈ recs, (q.2.lfhOffset : ℤ) + delta < 0 ∨ Lands data delta q
  lands : ∃ q ∈ recs, Lands data delta q

/-- The shift a candidate was accepted with shows its chain, and no other candidate of the report
can be shown by any shift. -/
def IsProof (data : Bytes) (c : CdCandidate) : Prop :=
  (∃ delta recs, c.acceptedDelta = some delta ∧ ShownBy data c delta recs) ∧
    ∀ i c', (scanSurvivingCd data).candidates[i]? = some c' →
      (∃ delta recs, ShownBy data c' delta recs) → (scanSurvivingCd data).accepted = some i

/-- Every shift that a record of the EOCD's directory implies takes each of its records before the
file, or to a file position and its name is UTF-8. -/
def NamesDecode (data : Bytes) : Prop :=
  ∀ start stop recs, findEocd data = some stop → u32le data (stop + 12) = some (stop - start) →
    ChainAt data start recs stop →
      ∀ p ∈ recs, ∀ delta, impliedDelta data p.2 = some delta →
        ∀ q ∈ recs, (q.2.lfhOffset : ℤ) + delta < 0 ∨ (q.2.lfhOffset : ℤ) + delta < 2 ^ 63 ∧
          ∃ raw, nameBytes data q.1 = some raw ∧ isUtf8 raw = true

theorem accepted_getElem? {data : Bytes} {c : CdCandidate}
    (h : (scanSurvivingCd data).acceptedCandidate = some c) :
    ∃ i, (scanSurvivingCd data).accepted = some i ∧
      (scanSurvivingCd data).candidates[i]? = some c :=
  Option.bind_eq_some_iff.mp h

/-- Two candidates that agree with the EOCD start at one place, so they are one. -/
theorem accepted_only {data : Bytes} {c c' : CdCandidate} {i : ℕ}
    (h : (scanSurvivingCd data).acceptedCandidate = some c)
    (hc' : (scanSurvivingCd data).candidates[i]? = some c')
    (hshown : ∃ delta recs, ShownBy data c' delta recs) :
    (scanSurvivingCd data).accepted = some i := by
  obtain ⟨delta, recs, hs⟩ := hshown
  obtain ⟨hle, heocd, -, hsize⟩ := accepted_consistent h
  obtain ⟨last, henum⟩ := accepted_enumerated h
  obtain ⟨j, hj, hc⟩ := accepted_getElem? h
  have hstop : c.stop = c'.stop := Option.some.inj (heocd.symm.trans hs.eocd)
  have hlen : c.stop - c.start = c'.stop - c'.start := by
    rw [← hs.byteLen]
    exact Option.some.inj (hsize.symm.trans (hstop ▸ hs.size))
  have hle' := hs.chain.le
  have hstart : c.start = c'.start := by omega
  obtain ⟨hi, rfl⟩ := List.getElem?_eq_some_iff.mp hc'
  obtain ⟨hjlt, rfl⟩ := List.getElem?_eq_some_iff.mp hc
  rw [hj, Option.some.injEq]
  have hordered := List.pairwise_iff_getElem.mp henum.ordered
  rcases lt_trichotomy j i with hlt | heq | hgt
  · exact absurd hstart (hordered j i hjlt hi hlt).ne
  · exact heq
  · exact absurd hstart.symm (hordered i j hi hjlt hgt).ne

/-- The chain of the accepted candidate, with what its acceptance established. -/
theorem accepted_chain {data : Bytes} {c : CdCandidate}
    (h : (scanSurvivingCd data).acceptedCandidate = some c) :
    ∃ recs delta, ChainAt data c.start recs c.stop ∧ c.recordCount = recs.length ∧
      c.acceptedDelta = some delta ∧
      (∀ d, (∃ q ∈ recs, impliedDelta data q.2 = some d) ↔ d = delta) ∧
      (∀ q ∈ recs, supportOf data delta q.2 ≠ .conflicting) ∧
      ∃ q ∈ recs, supportOf data delta q.2 = .supported := by
  obtain ⟨-, hproven⟩ := accepted_sound h
  obtain ⟨last, henum⟩ := accepted_enumerated h
  obtain ⟨i, -, hi⟩ := accepted_getElem? h
  obtain ⟨recs, hchain, hrecords, haccepted⟩ := (henum.judged c (List.mem_of_getElem? hi)).chain
  obtain ⟨delta, hdelta, hrest⟩ := haccepted hproven
  exact ⟨recs, delta, hchain, hrecords, hdelta, hrest⟩

theorem namesDecode_of_isProof {data : Bytes} {c : CdCandidate}
    (h : (scanSurvivingCd data).acceptedCandidate = some c) (hproof : IsProof data c) :
    NamesDecode data := by
  obtain ⟨-, heocd, -, hsize⟩ := accepted_consistent h
  obtain ⟨recs, delta, hchain, -, hdelta, himplied, hnone, -⟩ := accepted_chain h
  obtain ⟨⟨delta', recs', hdelta', hs⟩, -⟩ := hproof
  obtain rfl := Option.some.inj (hdelta.symm.trans hdelta')
  obtain rfl := hchain.unique hs.chain
  intro start stop recs'' he hsz hchain'' p hp d hd q hq
  obtain rfl := Option.some.inj (heocd.symm.trans he)
  have hle := hchain.le
  have hle'' := hchain''.le
  have hlen := Option.some.inj (hsize.symm.trans hsz)
  obtain rfl : c.start = start := by omega
  obtain rfl := hchain.unique hchain''
  obtain rfl := (himplied d).mp ⟨p, hp, hd⟩
  rcases hs.explained q hq with hneg | hlands
  · exact .inl hneg
  · obtain ⟨o, -, hsum, ho, -, -⟩ := id hlands
    rcases supportOf_ne_conflicting (hnone q hq) with hneg | hlarge | hsup
    · exact .inl hneg
    · omega
    · exact .inr ⟨by omega, (lands_iff_of_supported (hchain.parsed q hq) hsup).mp hlands⟩

theorem isProof_of_namesDecode {data : Bytes} {c : CdCandidate}
    (h : (scanSurvivingCd data).acceptedCandidate = some c) (hnames : NamesDecode data) :
    IsProof data c := by
  obtain ⟨hsound, -⟩ := accepted_sound h
  obtain ⟨-, heocd, hcount, hsize⟩ := accepted_consistent h
  obtain ⟨recs, delta, hchain, hrecords, hdelta, himplied, hnone, q₀, hq₀, hsupported⟩ :=
    accepted_chain h
  obtain ⟨p, hp, hd⟩ := (himplied delta).mpr rfl
  have hdecode := hnames c.start c.stop recs heocd hsize hchain p hp delta hd
  have hland : ∀ q ∈ recs, supportOf data delta q.2 = .supported → Lands data delta q := by
    intro q hq hsup
    obtain ⟨o, hsum, -, -⟩ := supportOf_eq_supported.mp hsup
    rcases hdecode q hq with hneg | ⟨-, hutf⟩
    · omega
    · exact (lands_iff_of_supported (hchain.parsed q hq) hsup).mpr hutf
  refine ⟨⟨delta, recs, hdelta, hchain, hrecords, hsound.byteLen, heocd, hcount,
    hsound.byteLen ▸ hsize, fun q hq ↦ ?_, q₀, hq₀, hland q₀ hq₀ hsupported⟩,
    fun j c' hc' hshown ↦ accepted_only h hc' hshown⟩
  rcases supportOf_ne_conflicting (hnone q hq) with hneg | hlarge | hsup
  · exact .inl hneg
  · rcases hdecode q hq with hneg | ⟨hlt, -⟩
    · exact .inl hneg
    · omega
  · exact .inr (hland q hq hsup)

/-- An accepted chain is shown by its shift, and it alone is, exactly when no record is taken for
the header of its lossily decoded name. -/
theorem accepted_isProof_iff {data : Bytes} {c : CdCandidate}
    (h : (scanSurvivingCd data).acceptedCandidate = some c) :
    IsProof data c ↔ NamesDecode data :=
  ⟨namesDecode_of_isProof h, isProof_of_namesDecode h⟩

/-- Two members whose head was cut off inside the first. -/
def cutArchive : Bytes :=
  (encodeZip storedFlate [⟨['a'], [0x61]⟩, ⟨['b'], [0x62]⟩]).drop 20

theorem accepted_isProof_iff_cutArchive :
    ∃ c, (scanSurvivingCd cutArchive).acceptedCandidate = some c ∧
      (IsProof cutArchive c ↔ NamesDecode cutArchive) := by
  have hsome : (scanSurvivingCd cutArchive).acceptedCandidate.isSome = true := by decide +kernel
  obtain ⟨c, hc⟩ := Option.isSome_iff_exists.mp hsome
  exact ⟨c, hc, accepted_isProof_iff hc⟩

/-- A member named U+FFFD, and a directory, ten bytes further on than stored, whose one record is
named by the byte 0xFF. -/
def mangledName : Bytes :=
  localRecord storedFlate ⟨[Char.ofNat 0xFFFD], [0x61]⟩ ++
    centralHeader storedFlate ⟨['b'], [0x61]⟩ 10 ++ [0xFF] ++ endRecord 1 47 44

theorem mangledName_not_isProof :
    ∃ c, (scanSurvivingCd mangledName).acceptedCandidate = some c ∧ ¬ IsProof mangledName c := by
  have hsome : (scanSurvivingCd mangledName).acceptedCandidate.isSome = true := by decide +kernel
  obtain ⟨c, hc⟩ := Option.isSome_iff_exists.mp hsome
  refine ⟨c, hc, fun hproof ↦ ?_⟩
  have hrecord : parseRecord mangledName 34 = some ⟨81, [Char.ofNat 0xFFFD], 10, 0⟩ := by
    decide +kernel
  rcases namesDecode_of_isProof hc hproof 34 81 _ (by decide +kernel) (by decide +kernel)
    (.cons hrecord (.nil 81)) _ List.mem_cons_self (-10) (by decide +kernel) _
    List.mem_cons_self with hneg | ⟨-, raw, hraw, hutf⟩
  · exact absurd hneg (by decide)
  · have hname : nameBytes mangledName 34 = some [0xFF] := by decide +kernel
    obtain rfl := Option.some.inj (hname.symm.trans hraw)
    exact absurd hutf (by decide +kernel)

end CdScan

end VeraqisRecover.Zip
