import VeraqisRecover.Zip.Directoryless
import VeraqisRecover.Zip.StoredCodec
import VeraqisRecover.Zip.StoredRecord

/-!
# One damaged size in a file without a directory

The scan resumes behind the payload that the header under the cursor declares.
A damaged size therefore hides the headers inside the payload it declares, and
no others.
-/

namespace VeraqisRecover.Zip

open ByteString LossyUtf8

variable {data : Bytes} {policy : ZipRecoveryPolicy}

/-! ## The headers a scan meets -/

/-- From the cursor on, the scan meets the headers at these offsets first. -/
def Visits (data : Bytes) : ℕ → List ℕ → Prop
  | _, [] => True
  | i, o :: os => i ≤ o ∧ (∀ p, i ≤ p → p < o → u32le data p ≠ some lfhSig) ∧
      u32le data o = some lfhSig ∧ Visits data (resumeAt data o) os

/-- Where the scan stands behind them. -/
def cursorAfter (data : Bytes) : ℕ → List ℕ → ℕ
  | i, [] => i
  | _, o :: os => cursorAfter data (resumeAt data o) os

theorem scanLocalFrom_skip {horizon i o : ℕ} {entries : List ZipEntry} (hio : i ≤ o)
    (hquiet : ∀ p, i ≤ p → p < o → u32le data p ≠ some lfhSig) (ho : o + 30 ≤ horizon)
    (hcap : entries.length < policy.maxCandidateRecords) :
    scanLocalFrom data policy horizon i entries = scanLocalFrom data policy horizon o entries := by
  induction hn : o - i generalizing i with
  | zero => rw [show i = o by omega]
  | succ n ih =>
      rw [← ih (show i + 1 ≤ o by omega) (fun p hp ↦ hquiet p (by omega)) (by omega)]
      rw [scanLocalFrom, if_pos (by omega), if_neg (by omega),
        if_pos (hquiet i (le_refl i) (by omega))]

theorem scanLocalFrom_header {horizon o : ℕ} {entries : List ZipEntry}
    (hsig : u32le data o = some lfhSig) (ho : o + 30 ≤ horizon)
    (hcap : entries.length < policy.maxCandidateRecords) :
    scanLocalFrom data policy horizon o entries =
      scanLocalFrom data policy horizon (resumeAt data o)
        (entries ++ [(scannedHeaderAt data o).1]) := by
  rw [scanLocalFrom, if_pos ho, if_neg (by omega), if_neg (not_not.mpr hsig)]
  rfl

theorem scanLocalFrom_visits {horizon i : ℕ} {os : List ℕ} {entries : List ZipEntry}
    (h : Visits data i os) (hos : ∀ o ∈ os, o + 30 ≤ horizon)
    (hcap : entries.length + os.length ≤ policy.maxCandidateRecords) :
    scanLocalFrom data policy horizon i entries =
      scanLocalFrom data policy horizon (cursorAfter data i os)
        (entries ++ os.map fun o ↦ (scannedHeaderAt data o).1) := by
  induction os generalizing i entries with
  | nil => simp [cursorAfter]
  | cons o os ih =>
      obtain ⟨hio, hquiet, hsig, hrest⟩ := h
      rw [List.length_cons] at hcap
      have ho := hos o List.mem_cons_self
      rw [scanLocalFrom_skip hio hquiet ho (by omega), scanLocalFrom_header hsig ho (by omega),
        ih hrest (fun p hp ↦ hos p (List.mem_cons_of_mem o hp)) (by
          rw [List.length_append, List.length_singleton]
          omega)]
      simp [cursorAfter]

/-- What a scan adds lies at or behind its cursor and inside its horizon. -/
theorem mem_scanLocalFrom {horizon i : ℕ} {entries : List ZipEntry} {e : ZipEntry}
    (h : e ∈ (scanLocalFrom data policy horizon i entries).1) :
    e ∈ entries ∨ i ≤ e.localHeaderOffset ∧ e.localHeaderOffset + 30 ≤ horizon := by
  fun_induction scanLocalFrom data policy horizon i entries with
  | case1 => exact .inl h
  | case2 i entries _ _ _ ih =>
      rcases ih h with h | ⟨hle, hlt⟩
      · exact .inl h
      · exact .inr ⟨by omega, hlt⟩
  | case3 i entries hlt _ _ x next hscan ih =>
      have hx : x.localHeaderOffset = i := by
        rw [show x = (scannedHeaderAt data i).1 from (congrArg Prod.fst hscan).symm]
        rfl
      rcases ih h with h | ⟨hle, hwithin⟩
      · rcases List.mem_append.mp h with h | h
        · exact .inl h
        · rw [List.mem_singleton.mp h, hx]
          exact .inr ⟨le_rfl, hlt⟩
      · refine .inr ⟨?_, hwithin⟩
        split at hle <;> omega
  | case4 => exact .inl h

/-! ## Behind a stored record -/

/-- No signature at which a scan can stop stands from `a` up to `b`. -/
def Quiet (data : Bytes) (a b : ℕ) : Prop :=
  ∀ p, a ≤ p → p < b →
    u32le data p ≠ some lfhSig ∧ u32le data p ≠ some cdfhSig ∧ u32le data p ≠ some ddSig

theorem nextSignature_of_quiet {a b : ℕ} (hab : a ≤ b) (hquiet : Quiet data a b)
    (hsig : u32le data b = some lfhSig) : nextSignature data a = some b := by
  have hlen := le_length_of_u32le hsig
  induction hn : b - a generalizing a with
  | zero =>
      obtain rfl : a = b := by omega
      rw [nextSignature, if_pos hlen, if_pos (.inl hsig)]
  | succ n ih =>
      obtain ⟨hl, hc, hdd⟩ := hquiet a (le_refl a) (by omega)
      rw [nextSignature, if_pos (by omega), if_neg (by simp [hl, hc, hdd])]
      exact ih (by omega) (fun p hp ↦ hquiet p (by omega)) (by omega)

/-- The first byte of a local-header signature. -/
theorem getElem?_of_lfhSig {o : ℕ} (h : u32le data o = some lfhSig) :
    ∃ b, data[o]? = some b ∧ b.toNat = 0x50 := by
  simp only [u32le, Option.bind_eq_bind, Option.bind_eq_some_iff, Option.some.injEq] at h
  obtain ⟨b₀, h₀, b₁, -, b₂, -, b₃, -, hsum⟩ := h
  have hb := b₀.toNat_lt
  unfold lfhSig at hsum
  exact ⟨b₀, h₀, by omega⟩

/-- No scan signature reaches into a header that follows: none has the header's first byte
again. -/
theorem not_sig_of_straddle {p o v : ℕ} (hlo : p < o) (hhi : o < p + 4)
    (ho : u32le data o = some lfhSig) (hv : v = lfhSig ∨ v = cdfhSig ∨ v = ddSig) :
    u32le data p ≠ some v := by
  intro h
  obtain ⟨b, hb, hb0⟩ := getElem?_of_lfhSig ho
  simp only [u32le, Option.bind_eq_bind, Option.bind_eq_some_iff, Option.some.injEq] at h
  obtain ⟨b₀, -, b₁, h₁, b₂, h₂, b₃, h₃, hsum⟩ := h
  have hlt₀ := b₀.toNat_lt
  have hlt₁ := b₁.toNat_lt
  have hlt₂ := b₂.toNat_lt
  have hlt₃ := b₃.toNat_lt
  have hcases : o = p + 1 ∨ o = p + 2 ∨ o = p + 3 := by omega
  have hsame : b₁.toNat = 0x50 ∨ b₂.toNat = 0x50 ∨ b₃.toNat = 0x50 := by
    rcases hcases with rfl | rfl | rfl
    · exact .inl (by rw [Option.some.inj (h₁.symm.trans hb), hb0])
    · exact .inr (.inl (by rw [Option.some.inj (h₂.symm.trans hb), hb0]))
    · exact .inr (.inr (by rw [Option.some.inj (h₃.symm.trans hb), hb0]))
  unfold lfhSig cdfhSig ddSig at hv
  omega

variable {fl : Flate2} {o size : ℕ} {e : StoredEntry}

/-- The payload of a record is quiet up to the header behind it. -/
theorem Stands.quiet (h : Stands fl data o e size) (hw : e.WellFormed)
    (hnext : u32le data (o + e.recordLength) = some lfhSig) :
    Quiet data (o + e.headerLength) (o + e.recordLength) := by
  intro p hlo hhi
  by_cases hin : p + 4 ≤ o + e.recordLength
  · obtain ⟨k, rfl⟩ := Nat.exists_eq_add_of_le hlo
    unfold StoredEntry.recordLength at hin
    rw [h.payload.u32le (by omega)]
    exact hw.signatureFree k
  · refine ⟨?_, ?_, ?_⟩
    · exact not_sig_of_straddle hhi (by omega) hnext (.inl rfl)
    · exact not_sig_of_straddle hhi (by omega) hnext (.inr (.inl rfl))
    · exact not_sig_of_straddle hhi (by omega) hnext (.inr (.inr rfl))

/-- Behind a record that declares a size the scan resumes where that size ends. -/
theorem Stands.resumeAt_of_pos (h : Stands fl data o e size) (hd : data.length < 2 ^ 63)
    (hpos : 0 < size) (hsize : size < 2 ^ 32) : resumeAt data o = o + e.headerLength + size := by
  have hnext := h.scanned_next
  have hlen := h.length_le
  unfold StoredEntry.recordLength at hlen
  have hword : wordMax = 2 ^ 64 - 1 := rfl
  rw [if_pos hpos, saturatingAdd_of_le (by omega)] at hnext
  rw [resumeAt, hnext, if_pos (by omega)]

/-- Behind one that declares none it resumes at the next header. -/
theorem Stands.resumeAt_of_zero (h : Stands fl data o e 0) (hw : e.WellFormed)
    (hnext : u32le data (o + e.recordLength) = some lfhSig) :
    resumeAt data o = o + e.recordLength := by
  have hpos := e.headerLength_pos
  have hgo := h.scanned_next
  have hle : o + e.headerLength ≤ o + e.recordLength := by
    unfold StoredEntry.recordLength
    omega
  rw [if_neg (by omega), nextSignature_of_quiet hle (h.quiet hw hnext) hnext,
    Option.getD_some] at hgo
  rw [resumeAt, hgo, if_pos (by omega)]

/-! ## The layout of the damaged file -/

theorem headerOffset_succ (es : List StoredEntry) {j : ℕ} (hj : j < es.length) :
    headerOffset es (j + 1) = headerOffset es j + es[j].recordLength := by
  rw [headerOffset, List.take_add_one, List.getElem?_eq_getElem hj, Option.toList_some,
    List.map_append, List.sum_append, List.map_singleton, List.sum_singleton]
  rfl

theorem headerOffset_lt (es : List StoredEntry) {i j : ℕ} (hij : i < j) (hj : j < es.length) :
    headerOffset es i < headerOffset es j := by
  induction j with
  | zero => omega
  | succ j ih =>
      have hj' : j < es.length := by omega
      have hstep := headerOffset_succ es hj'
      have hpos := es[j].headerLength_pos
      unfold StoredEntry.recordLength at hstep
      rcases Nat.lt_succ_iff_lt_or_eq.mp hij with h | rfl
      · have hlt := ih h (by omega)
        omega
      · omega

theorem at_storedRecords (qs : List (StoredEntry × ℕ)) {j : ℕ} (hj : j < qs.length) :
    At (storedRecords fl qs) (headerOffset (qs.map Prod.fst) j) (qs[j].1.record fl qs[j].2) := by
  induction qs generalizing j with
  | nil => simp at hj
  | cons q qs ih =>
      rw [storedRecords_cons]
      cases j with
      | zero => exact ⟨storedRecords fl qs, rfl⟩
      | succ j =>
          rw [List.map_cons, headerOffset_cons_succ, ← q.1.length_record fl q.2]
          exact (ih (by simpa using hj)).shift _

variable {es : List StoredEntry} {k v : ℕ}

/-- The size the header of the `j`-th entry declares. -/
def declaredSize (es : List StoredEntry) (k v j : ℕ) (hj : j < es.length) : ℕ :=
  if j = k then v else (es[j]).data.length

/-- A file of well-formed stored entries with one size exchanged, and without a directory. -/
structure Damaged (fl : Flate2) (es : List StoredEntry) (k v : ℕ) : Prop where
  index : k < es.length
  value : v < 2 ^ 32
  wellFormed : ∀ e ∈ es, e.WellFormed
  word : (damagedFile fl es k v).length < 2 ^ 63
  noDirectory : NoDirectory (damagedFile fl es k v)

namespace Damaged

theorem stands (h : Damaged fl es k v) {j : ℕ} (hj : j < es.length) :
    Stands fl (damagedFile fl es k v) (headerOffset es j) es[j] (declaredSize es k v j hj) := by
  have hget : ∀ i (hi : i < es.length) (hi' : i < ((ownSizes es).modify k fun q ↦ (q.1, v)).length),
      ((ownSizes es).modify k fun q ↦ (q.1, v))[i] = (es[i], declaredSize es k v i hi) := by
    intro i hi hi'
    rw [List.getElem_modify]
    by_cases hik : k = i
    · simp [hik, declaredSize, ownSizes]
    · simp [hik, Ne.symm hik, declaredSize, ownSizes]
  have hfst : ((ownSizes es).modify k fun q ↦ (q.1, v)).map Prod.fst = es := by
    refine List.ext_getElem (by simp [ownSizes]) fun i hi hi' ↦ ?_
    rw [List.getElem_map, hget i hi']
  have hw := h.wellFormed _ (List.getElem_mem hj)
  have hdata := hw.data
  have hsize : declaredSize es k v j hj < 2 ^ 32 := by
    have hv := h.value
    unfold declaredSize
    split <;> omega
  refine stands_of_at ?_ hw hsize
  have hlen : j < ((ownSizes es).modify k fun q ↦ (q.1, v)).length := by simpa [ownSizes] using hj
  have hat := @at_storedRecords fl _ _ hlen
  rw [hfst, hget j hj hlen] at hat
  rw [damagedFile_eq es h.index]
  exact hat

theorem sig (h : Damaged fl es k v) {j : ℕ} (hj : j < es.length) :
    u32le (damagedFile fl es k v) (headerOffset es j) = some lfhSig := (h.stands hj).sig

theorem wordMax (h : Damaged fl es k v) : (damagedFile fl es k v).length ≤ wordMax := by
  have hword := h.word
  unfold ByteString.wordMax
  omega

/-- Behind an entry that is not damaged the scan resumes at the next header. -/
theorem resumeAt_of_ne (h : Damaged fl es k v) {j : ℕ} (hj : j + 1 < es.length) (hne : j ≠ k) :
    resumeAt (damagedFile fl es k v) (headerOffset es j) = headerOffset es (j + 1) := by
  have hj' : j < es.length := by omega
  have hstands := h.stands hj'
  have hw := h.wellFormed _ (List.getElem_mem hj')
  have hdata := hw.data
  rw [declaredSize, if_neg hne] at hstands
  have hsucc := headerOffset_succ es hj'
  have hnext := h.sig hj
  rw [hsucc] at hnext ⊢
  by_cases hpos : 0 < es[j].data.length
  · rw [hstands.resumeAt_of_pos h.word hpos (by omega)]
    unfold StoredEntry.recordLength
    omega
  · rw [Nat.eq_zero_of_not_pos hpos] at hstands
    exact hstands.resumeAt_of_zero hw hnext

theorem visits (h : Damaged fl es k v) {i a n : ℕ} (hn : a + n ≤ es.length)
    (hi : n ≠ 0 → i ≤ headerOffset es a)
    (hquiet : n ≠ 0 → ∀ p, i ≤ p → p < headerOffset es a →
      u32le (damagedFile fl es k v) p ≠ some lfhSig)
    (hsound : ∀ b, a ≤ b → b + 1 < a + n → b ≠ k) :
    Visits (damagedFile fl es k v) i ((List.range' a n).map (headerOffset es)) := by
  induction n generalizing a i with
  | zero => exact True.intro
  | succ n ih =>
      rw [List.range'_succ, List.map_cons]
      refine ⟨hi (by omega), hquiet (by omega), h.sig (by omega), ?_⟩
      have hresume : n ≠ 0 → resumeAt (damagedFile fl es k v) (headerOffset es a) =
          headerOffset es (a + 1) :=
        fun hn0 ↦ h.resumeAt_of_ne (by omega) (hsound a (le_refl a) (by omega))
      refine ih (by omega) (fun hn0 ↦ (hresume hn0).le) (fun hn0 p hlo hhi ↦ ?_)
        (fun b hb hlt ↦ hsound b (by omega) (by omega))
      rw [hresume hn0] at hlo
      omega

end Damaged

/-! ## Which entries are listed -/

/-- The entry is listed under its own header and extracts, verified, to its own data. -/
def Listed (fl : Flate2) (data : Bytes) (o : ℕ) (e : StoredEntry) : Prop :=
  ∃ x ∈ (parseZip data).entries, x.localHeaderOffset = o ∧ x.name = fromUtf8Lossy e.name ∧
    extractEntry fl data x = ⟨fromUtf8Lossy e.name, e.data, .verifiedCrc,
      (fl.crc32 e.data).toNat, (fl.crc32 e.data).toNat⟩

/-- The default policy's limits leave the scan room to reach the `j`-th header. -/
structure WithinLimits (es : List StoredEntry) (j : ℕ) : Prop where
  count : j < ZipRecoveryPolicy.default.maxCandidateRecords
  bytes : headerOffset es j + 30 ≤ ZipRecoveryPolicy.default.maxScanBytes

/-- The end of the payload the damaged header declares. -/
def declaredStop (es : List StoredEntry) (k v : ℕ) : ℕ :=
  headerOffset es k + (es[k]?.map StoredEntry.headerLength).getD 0 + v

/-- From there to the next header the file spells no local-header signature. -/
def CleanLanding (fl : Flate2) (es : List StoredEntry) (k v : ℕ) : Prop :=
  ∀ m < es.length, (∀ i < m, headerOffset es i < declaredStop es k v) →
    ∀ p, declaredStop es k v ≤ p → p < headerOffset es m →
      u32le (damagedFile fl es k v) p ≠ some lfhSig

theorem subset_scanLocalFrom {horizon i : ℕ} {entries : List ZipEntry} {x : ZipEntry}
    (h : x ∈ entries) : x ∈ (scanLocalFrom data policy horizon i entries).1 := by
  fun_induction scanLocalFrom data policy horizon i entries with
  | case1 => exact h
  | case2 i entries _ _ _ ih => exact ih h
  | case3 i entries _ _ _ y next hscan ih => exact ih (List.mem_append_left _ h)
  | case4 => exact h

/-- A record with its own size is listed exactly when the scan stands on its header. -/
theorem Stands.listed_iff (h : Stands fl data o e e.data.length) (hw : e.WellFormed)
    (hd : data.length ≤ wordMax) (hnodir : NoDirectory data) :
    Listed fl data o e ↔
      (scannedHeaderAt data o).1 ∈ (scanLocalHeadersBounded data .default).1 := by
  constructor
  · rintro ⟨x, hx, hoff, -⟩
    have hscan := ((mem_parse_iff hnodir hd _).mp hx).1
    have heq := (scanLocalHeadersBounded_sound x hscan).2
    rwa [← hoff, ← heq]
  · intro hscan
    have hname : (scannedHeaderAt data o).1.name = fromUtf8Lossy e.name := by rw [h.scanned]
    have hlen := h.length_le
    unfold StoredEntry.recordLength at hlen
    have hstart : Zip.payloadStart data (scannedHeaderAt data o).1.localHeaderOffset =
        some (o + e.headerLength) := h.payloadStart hd
    have hextent : (extent data (scannedHeaderAt data o).1).isSome = true := by
      have hcomp : (scannedHeaderAt data o).1.compSize = e.data.length := by rw [h.scanned]
      rw [extent, payloadRangeLenient, hstart, hcomp]
      simp only [Option.bind_eq_bind, Option.bind_some]
      rw [if_neg (by omega), checkedAdd_of_le (by omega), Option.bind_some, if_pos (by omega)]
      rfl
    exact ⟨_, (mem_parse_iff hnodir hd _).mpr ⟨hscan, hextent⟩, rfl, hname, h.extractEntry hw hd⟩

namespace Damaged

theorem listed_iff_scanned (h : Damaged fl es k v) {j : ℕ} (hj : j < es.length) (hne : j ≠ k) :
    Listed fl (damagedFile fl es k v) (headerOffset es j) es[j] ↔
      (scannedHeaderAt (damagedFile fl es k v) (headerOffset es j)).1 ∈
        (scanLocalHeadersBounded (damagedFile fl es k v) .default).1 := by
  have hstands := h.stands hj
  rw [declaredSize, if_neg hne] at hstands
  exact hstands.listed_iff (h.wellFormed _ (List.getElem_mem hj)) h.wordMax h.noDirectory

theorem within (h : Damaged fl es k v) {i j : ℕ} (hij : i ≤ j) (hj : j < es.length)
    (hlim : WithinLimits es j) : headerOffset es i + 30 ≤
      min (damagedFile fl es k v).length ZipRecoveryPolicy.default.maxScanBytes := by
  have hlen := (h.stands hj).length_le
  have hpos := (es[j]).headerLength_pos
  have hbytes := hlim.bytes
  have hle : headerOffset es i ≤ headerOffset es j := by
    rcases Nat.eq_or_lt_of_le hij with rfl | hlt
    · exact le_rfl
    · exact (headerOffset_lt es hlt hj).le
  unfold StoredEntry.recordLength at hlen
  exact le_min (by omega) (by omega)

/-- The scan up to and including the headers `0 .. n - 1`, when the damaged one is the last of
them or not among them. -/
theorem scan_eq (h : Damaged fl es k v) {n j : ℕ} (hn : n ≤ k + 1) (hnj : n ≤ j + 1)
    (hj : j < es.length) (hlim : WithinLimits es j) :
    scanLocalHeadersBounded (damagedFile fl es k v) .default =
      scanLocalFrom (damagedFile fl es k v) .default
        (min (damagedFile fl es k v).length ZipRecoveryPolicy.default.maxScanBytes)
        (cursorAfter (damagedFile fl es k v) 0 ((List.range' 0 n).map (headerOffset es)))
        ((List.range' 0 n).map fun i ↦
          (scannedHeaderAt (damagedFile fl es k v) (headerOffset es i)).1) := by
  have hvisits : Visits (damagedFile fl es k v) 0 ((List.range' 0 n).map (headerOffset es)) :=
    h.visits (by omega) (fun _ ↦ Nat.zero_le _) (fun _ p _ hp ↦ absurd hp (Nat.not_lt_zero p))
      (fun b _ hb ↦ by omega)
  have hcount := hlim.count
  rw [scanLocalHeadersBounded, scanLocalFrom_visits hvisits]
  · rw [List.nil_append, List.map_map]
    rfl
  · intro o ho
    obtain ⟨i, hi, rfl⟩ := List.mem_map.mp ho
    have hi' := List.mem_range'_1.mp hi
    exact h.within (by omega) hj hlim
  · simp only [List.length_nil, List.length_map, List.length_range']
    omega

/-- Entries before the damaged one are listed. -/
theorem listed_before (h : Damaged fl es k v) {j : ℕ} (hj : j < es.length) (hjk : j < k)
    (hlim : WithinLimits es j) :
    Listed fl (damagedFile fl es k v) (headerOffset es j) es[j] := by
  rw [h.listed_iff_scanned hj hjk.ne, h.scan_eq (show j + 1 ≤ k + 1 by omega) le_rfl hj hlim]
  refine subset_scanLocalFrom (List.mem_map.mpr ⟨j, ?_, rfl⟩)
  exact List.mem_range'_1.mpr ⟨Nat.zero_le _, by omega⟩

theorem cursorAfter_range (data : Bytes) (es : List StoredEntry) (i a n : ℕ) :
    cursorAfter data i ((List.range' a (n + 1)).map (headerOffset es)) =
      resumeAt data (headerOffset es (a + n)) := by
  induction n generalizing i a with
  | zero => simp [cursorAfter]
  | succ n ih =>
      rw [List.range'_succ, List.map_cons, cursorAfter, ih]
      congr 2
      omega

/-- Where the scan stands behind the damaged header: at the end it declares, or, when it declares
nothing, at the next header. -/
theorem resumeAt_damaged (h : Damaged fl es k v) :
    (0 < v → resumeAt (damagedFile fl es k v) (headerOffset es k) = declaredStop es k v) ∧
      (v = 0 → k + 1 < es.length →
        resumeAt (damagedFile fl es k v) (headerOffset es k) = headerOffset es (k + 1)) := by
  have hstands := h.stands h.index
  rw [declaredSize, if_pos rfl] at hstands
  constructor
  · intro hpos
    rw [hstands.resumeAt_of_pos h.word hpos h.value, declaredStop,
      List.getElem?_eq_getElem h.index]
    rfl
  · rintro rfl hk
    have hsucc := headerOffset_succ es h.index
    have hnext := h.sig hk
    rw [hsucc] at hnext ⊢
    exact hstands.resumeAt_of_zero (h.wellFormed _ (List.getElem_mem h.index)) hnext

/-- An entry behind the damaged one is listed when the scan comes down at a header no later than
its own. -/
theorem listed_behind (h : Damaged fl es k v) {m j : ℕ} (hkm : k < m) (hmj : m ≤ j)
    (hj : j < es.length) (hlim : WithinLimits es j)
    (hresume : resumeAt (damagedFile fl es k v) (headerOffset es k) ≤ headerOffset es m)
    (hquiet : ∀ p, resumeAt (damagedFile fl es k v) (headerOffset es k) ≤ p →
      p < headerOffset es m → u32le (damagedFile fl es k v) p ≠ some lfhSig) :
    Listed fl (damagedFile fl es k v) (headerOffset es j) es[j] := by
  have hcount := hlim.count
  have hvisits : Visits (damagedFile fl es k v)
      (resumeAt (damagedFile fl es k v) (headerOffset es k))
      ((List.range' m (j - m + 1)).map (headerOffset es)) :=
    h.visits (by omega) (fun _ ↦ hresume) (fun _ ↦ hquiet) (fun b hb _ ↦ by omega)
  rw [h.listed_iff_scanned hj (by omega), h.scan_eq (le_refl (k + 1)) (by omega) hj hlim,
    cursorAfter_range, Nat.zero_add, scanLocalFrom_visits hvisits]
  · refine subset_scanLocalFrom (List.mem_append_right _ ?_)
    refine List.mem_map.mpr ⟨_, List.mem_map.mpr ⟨j, ?_, rfl⟩, rfl⟩
    exact List.mem_range'_1.mpr ⟨hmj, by omega⟩
  · intro o ho
    obtain ⟨i, hi, rfl⟩ := List.mem_map.mp ho
    have hi' := List.mem_range'_1.mp hi
    exact h.within (by omega) hj hlim
  · simp only [List.length_map, List.length_range']
    omega

theorem headerOffset_lt_declaredStop (h : Damaged fl es k v) :
    headerOffset es k < declaredStop es k v := by
  have hk := h.index
  have hpos := es[k].headerLength_pos
  rw [declaredStop, List.getElem?_eq_getElem h.index, Option.map_some, Option.getD_some]
  omega

/-- Between the declared end and the first header at or behind it the scan meets nothing. -/
theorem quiet_landing (h : Damaged fl es k v)
    (hland : ∀ e ∈ es[k]?, e.data.length < v → CleanLanding fl es k v) {m : ℕ} (hkm : k < m)
    (hm : m < es.length) (hfirst : ∀ i < m, headerOffset es i < declaredStop es k v) {p : ℕ}
    (hlo : declaredStop es k v ≤ p) (hhi : p < headerOffset es m) :
    u32le (damagedFile fl es k v) p ≠ some lfhSig := by
  have hk := h.index
  have hget := List.getElem?_eq_getElem hk
  by_cases hlong : es[k].data.length < v
  · exact hland _ hget hlong m hm hfirst p hlo hhi
  · -- the declared end lies in the record's own payload
    have hsucc := headerOffset_succ es h.index
    have hstop := hlo
    rw [declaredStop, hget, Option.map_some, Option.getD_some] at hstop
    have hmk : m = k + 1 := by
      by_contra hne
      have hlast := hfirst (k + 1) (by omega)
      rw [declaredStop, hget, Option.map_some, Option.getD_some, hsucc] at hlast
      unfold StoredEntry.recordLength at hlast
      omega
    have hstands := h.stands h.index
    have hnext := h.sig (show k + 1 < es.length by omega)
    rw [hsucc] at hnext
    rw [hmk, hsucc] at hhi
    exact (hstands.quiet (h.wellFormed _ (List.getElem_mem h.index)) hnext p (by omega) hhi).1

/-- A header at or behind the declared end is listed. -/
theorem listed_of_stop (h : Damaged fl es k v)
    (hland : ∀ e ∈ es[k]?, e.data.length < v → CleanLanding fl es k v) {j : ℕ} (hkj : k < j)
    (hj : j < es.length) (hlim : WithinLimits es j)
    (hstop : declaredStop es k v ≤ headerOffset es j) :
    Listed fl (damagedFile fl es k v) (headerOffset es j) es[j] := by
  by_cases hzero : v = 0
  · subst hzero
    have hresume := h.resumeAt_damaged.2 rfl (by omega)
    exact h.listed_behind (m := k + 1) (by omega) hkj hj hlim hresume.le fun p hlo hhi ↦ by omega
  · have hresume := h.resumeAt_damaged.1 (by omega)
    have hex : ∃ m, k < m ∧ declaredStop es k v ≤ headerOffset es m := ⟨j, hkj, hstop⟩
    obtain ⟨hkm, hm⟩ := Nat.find_spec hex
    have hmj : Nat.find hex ≤ j := Nat.find_min' hex ⟨hkj, hstop⟩
    have hfirst : ∀ i < Nat.find hex, headerOffset es i < declaredStop es k v := by
      intro i hi
      rcases Nat.lt_or_ge k i with hki | hik
      · have hnot := Nat.find_min hex hi
        exact Nat.lt_of_not_le fun hle ↦ hnot ⟨hki, hle⟩
      · have hk := h.headerOffset_lt_declaredStop
        rcases Nat.eq_or_lt_of_le hik with rfl | hlt
        · exact hk
        · exact (headerOffset_lt es hlt h.index).trans hk
    refine h.listed_behind hkm hmj hj hlim (hresume.trans_le hm) fun p hlo hhi ↦ ?_
    rw [hresume] at hlo
    exact h.quiet_landing hland hkm (by omega) hfirst hlo hhi

/-- A header inside the payload the damaged one declares is not listed. -/
theorem not_listed_inside (h : Damaged fl es k v) {j : ℕ} (hkj : k < j) (hj : j < es.length)
    (hlim : WithinLimits es j) (hpos : 0 < v) (hinside : headerOffset es j < declaredStop es k v) :
    ¬ Listed fl (damagedFile fl es k v) (headerOffset es j) es[j] := by
  rw [h.listed_iff_scanned hj (by omega), h.scan_eq (le_refl (k + 1)) (by omega) hj hlim,
    cursorAfter_range, Nat.zero_add, h.resumeAt_damaged.1 hpos]
  intro hmem
  rcases mem_scanLocalFrom hmem with hbefore | ⟨hle, -⟩
  · obtain ⟨i, hi, heq⟩ := List.mem_map.mp hbefore
    have hi' := List.mem_range'_1.mp hi
    have hsame : headerOffset es i = headerOffset es j :=
      congrArg ZipEntry.localHeaderOffset heq
    have hlt := headerOffset_lt es (show i < j by omega) hj
    omega
  · have hge : declaredStop es k v ≤ headerOffset es j := hle
    omega

end Damaged

/-- Of the entries that are not damaged, exactly those are listed and extract to their data whose
headers do not stand in the payload the damaged header declares. -/
theorem listed_iff_outside_declared (fl : Flate2) (es : List StoredEntry) (k v : ℕ)
    (h : Damaged fl es k v)
    (hland : ∀ e ∈ es[k]?, e.data.length < v → CleanLanding fl es k v) (j : ℕ)
    (hj : j < es.length) (hne : j ≠ k) (hlim : WithinLimits es j) :
    Listed fl (damagedFile fl es k v) (headerOffset es j) es[j] ↔
      j < k ∨ v = 0 ∨ declaredStop es k v ≤ headerOffset es j := by
  rcases Nat.lt_or_gt_of_ne hne with hjk | hkj
  · exact iff_of_true (h.listed_before hj hjk hlim) (.inl hjk)
  · constructor
    · intro hlisted
      by_contra hnot
      simp only [not_or] at hnot
      exact h.not_listed_inside hkj hj hlim (by omega) (by omega) hlisted
    · rintro (hjk | rfl | hstop)
      · omega
      · have hresume := h.resumeAt_damaged.2 rfl (by omega)
        refine h.listed_behind (m := k + 1) (by omega) hkj hj hlim hresume.le fun p hlo hhi ↦ ?_
        omega
      · exact h.listed_of_stop hland hkj hj hlim hstop

/-- Two stored one-byte entries. -/
def storedLetters : List StoredEntry :=
  [⟨20, 0, 0, 0, [0x61], [], [0x78]⟩, ⟨20, 0, 0, 0, [0x62], [], [0x79]⟩]

theorem storedLetters_wellFormed : ∀ e ∈ storedLetters, e.WellFormed := by
  have hfree : ∀ b : UInt8, SignatureFree [b] := by
    intro b p
    have hnone : u32le [b] p = none := by
      cases hread : u32le [b] p with
      | none => rfl
      | some x => exact absurd (le_length_of_u32le hread) (by simp)
    simp [hnone]
  have hwell : ∀ name data : UInt8, StoredEntry.WellFormed ⟨20, 0, 0, 0, [name], [], [data]⟩ :=
    fun _ data ↦ ⟨by simp, by simp, by simp, by simp, by simp, by simp,
      by simp [extraHasZip64, extraHasZip64From], hfree data⟩
  intro e he
  rcases List.mem_cons.mp he with rfl | he
  · exact hwell _ _
  · rw [List.mem_singleton.mp he]
    exact hwell _ _

/-- The first entry declares two bytes instead of its one. -/
theorem storedLetters_damaged : Damaged storedFlate storedLetters 0 2 where
  index := by decide
  value := by decide
  wellFormed := storedLetters_wellFormed
  word := by decide
  noDirectory := by
    refine .inl fun p hp ↦ ?_
    have hlen := le_length_of_u32le hp
    have hlength : (damagedFile storedFlate storedLetters 0 2).length = 64 := by decide
    have hnone : ∀ q < 64, u32le (damagedFile storedFlate storedLetters 0 2) q ≠ some cdfhSig := by
      decide
    exact hnone p (by omega) hp

theorem listed_iff_storedLetters :
    Listed storedFlate (damagedFile storedFlate storedLetters 0 2) (headerOffset storedLetters 1)
        storedLetters[1] ↔
      1 < 0 ∨ 2 = 0 ∨ declaredStop storedLetters 0 2 ≤ headerOffset storedLetters 1 := by
  refine listed_iff_outside_declared storedFlate storedLetters 0 2 storedLetters_damaged
    (fun _ _ _ m hm _ p hlo hhi ↦ ?_) 1 (by decide) (by decide) ⟨by decide, by decide⟩
  -- the declared end lies behind the second header already
  have hstop : declaredStop storedLetters 0 2 = 33 := by decide
  have hoff : ∀ i < 2, headerOffset storedLetters i ≤ 32 := by decide
  have hm' := hoff m hm
  omega

theorem storedLetters_hidden : Damaged storedFlate storedLetters 0 2 ∧
    ¬ Listed storedFlate (damagedFile storedFlate storedLetters 0 2) (headerOffset storedLetters 1)
      storedLetters[1] := by
  refine ⟨storedLetters_damaged, fun ⟨x, hx, hoff, _⟩ ↦ ?_⟩
  have hnone : ∀ x ∈ (parseZip (damagedFile storedFlate storedLetters 0 2)).entries,
      x.localHeaderOffset ≠ headerOffset storedLetters 1 := by decide +kernel
  exact hnone x hx hoff

end VeraqisRecover.Zip
