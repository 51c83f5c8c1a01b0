import VeraqisRecover.Zip.StoredCodec
import VeraqisRecover.Zip.Truncated

/-!
# Recovery after head truncation

The parse of a cut archive lists its directory with the survivors moved onto
their headers, unless the cut made the declared offset point into the middle of
the directory.  A removed part keeps its stale offset, and reads another entry's
payload when the cut has brought a surviving header there.
-/

namespace VeraqisRecover.Zip

open ByteString LossyUtf8

variable {fl : Flate2} {parts : List Part} {k : ℕ}

/-- What a part of a cut archive becomes: found and verified after the cut, without bytes before
it. -/
def CutEntry (fl : Flate2) (data : Bytes) (k : ℕ) (q : Part × ℕ) (e : ZipEntry) : Prop :=
  e.name = q.1.name ∧
    if k ≤ q.2 then e.localHeaderOffset = q.2 - k ∧ extractEntry fl data e = q.1.verified fl
    else (extractEntry fl data e).bytes = []

/-- The parse lists one entry per part, and each is what the cut makes of the part. -/
def RecoversCut (fl : Flate2) (parts : List Part) (k : ℕ) : Prop :=
  ∃ es, es.Perm (parseZip ((encodeZip fl parts).drop k)).entries ∧
    List.Forall₂ (CutEntry fl ((encodeZip fl parts).drop k) k) (placed fl 0 parts) es

/-- The EOCD's stale offset does not carry a directory record after the cut. -/
def StaleOffsetClear (fl : Flate2) (parts : List Part) (k : ℕ) : Prop :=
  k = 0 ∨ cdfhAt ((encodeZip fl parts).drop k) (localRecords fl parts).length = false

/-- No removed part is at the stale offset of a surviving header behind which as many bytes as
the part has compressed decode to anything. -/
def StaleHeadersSilent (fl : Flate2) (parts : List Part) (k : ℕ) : Prop :=
  ∀ q ∈ placed fl 0 parts, q.2 < k → ∀ q' ∈ placed fl 0 parts, q'.2 = q.2 + k →
    ∀ comp, slice? ((encodeZip fl parts).drop k) (q.2 + 30 + q'.1.rawName.length)
        (q.2 + 30 + q'.1.rawName.length + (q.1.payload fl).length) = some comp →
      ∀ bytes, decodePayload fl (q.1.method fl) comp = some (some bytes) → bytes = []

theorem exists_mem_of_forall₂ {α β : Type*} {R : α → β → Prop} {l : List α} {l' : List β}
    (h : List.Forall₂ R l l') {a : α} (ha : a ∈ l) : ∃ b ∈ l', R a b := by
  induction h with
  | nil => simp at ha
  | cons hr _ ih =>
      rcases List.mem_cons.mp ha with rfl | ha
      · exact ⟨_, List.mem_cons_self, hr⟩
      · obtain ⟨b, hb, hab⟩ := ih ha
        exact ⟨b, List.mem_cons_of_mem _ hb, hab⟩

namespace HeadCut

theorem parts_ne_nil (h : HeadCut fl parts k) : parts ≠ [] := by
  obtain ⟨q, hq, -⟩ := h.survivor
  exact List.ne_nil_of_mem (mem_placed_bounds hq).1

theorem valid (h : HeadCut fl parts k) : (cutHost fl parts k).Valid := by
  obtain ⟨hn, hf, hc, ho, hs, -⟩ := h.bounds.valid h.parts_ne_nil
  exact ⟨hn, hf, hc, ho, hs, h.word⟩

theorem start_eq (h : HeadCut fl parts k) :
    (cutHost fl parts k).start + k = (localRecords fl parts).length := by
  have hle := h.le
  simp only [Host.start, cutHost, List.length_drop]
  omega

/-- Nothing is embedded: the only EOCD ends the file. -/
theorem detect_eq (h : HeadCut fl parts k) :
    ContainerOwnershipMap.detect (cutHost fl parts k).data .default = ⟨[]⟩ := by
  refine detect_eq_empty fun o hsig ↦ validateEmbedded_at_end ?_
  rw [← drop_encodeZip h.le, u32le_drop] at hsig
  have hend := h.inPlace.endRecord _ hsig
  rw [← drop_encodeZip h.le, List.length_drop]
  omega

/-! ## The directory as it is adopted -/

/-- The directory of the cut archive, reconciled. -/
theorem readDirectory_entries (h : HeadCut fl parts k) (hclear : StaleOffsetClear fl parts k) :
    (readDirectory (cutHost fl parts k).data .default).out.entries =
      (placed fl 0 parts).map fun q ↦ q.1.entry fl (landed k q.2) := by
  have hstart : cdfhAt (cutHost fl parts k).data (cutHost fl parts k).cdOffset = true →
      (cutHost fl parts k).cdOffset = (cutHost fl parts k).start := by
    intro hcd
    rcases hclear with rfl | hfalse
    · exact h.start_eq.symm
    · rw [drop_encodeZip h.le] at hfalse
      exact absurd (hfalse.symm.trans hcd) Bool.false_ne_true
  obtain ⟨hent, -⟩ := readDirectory_host h.valid h.bounds.admits hstart (by rw [h.detect_eq]; rfl)
  rw [hent, show (cutHost fl parts k).rs = dirRecords fl 0 parts from rfl,
    map_entry_dirRecords, List.map_map]
  refine List.map_congr_left fun q hq ↦ ?_
  rw [Function.comp_apply, h.reconciled_placed hq, h.entry_landed hq]

end HeadCut

/-- Reconciliation keeps the names of the records. -/
theorem name_of_reconcileDirectory {data : Bytes} {policy : ZipRecoveryPolicy} {st : ParseState}
    {e : ZipEntry} (h : e ∈ (reconcileDirectory data policy st).out.entries) :
    ∃ e' ∈ st.out.entries, e.name = e'.name := by
  unfold reconcileDirectory at h
  dsimp only at h
  split at h
  · exact ⟨e, h, rfl⟩
  · rw [map_ite] at h
    obtain ⟨e', he', rfl⟩ := List.mem_map.mp h
    refine ⟨e', he', ?_⟩
    split
    · rw [repoint_movesOnly]
    · rfl

/-! ## Extraction without a matching header -/

theorem extractEntry_bytes_eq_nil_iff {data : Bytes} {e : ZipEntry} (henc : e.isEncrypted = false)
    (hzip64 : e.zip64 = false) (hcd : e.fromCentralDir = true) :
    (extractEntry fl data e).bytes = [] ↔ ∀ comp, compressedBytes data e = .ok comp →
      ∀ bytes, decodePayload fl e.method comp = some (some bytes) → bytes = [] := by
  unfold extractEntry
  simp only [henc, hzip64, hcd]
  cases hcomp : compressedBytes data e with
  | error status => simp
  | ok comp =>
      cases hdec : decodePayload fl e.method comp with
      | none => simp [hdec]
      | some decoded => cases decoded <;> simp [hdec]

theorem sig_of_compressedBytes {data : Bytes} {e : ZipEntry} {comp : Bytes}
    (h : compressedBytes data e = .ok comp) : u32le data e.localHeaderOffset = some lfhSig := by
  unfold compressedBytes at h
  dsimp only at h
  split at h
  · simp at h
  · rename_i hsig
    exact not_not.mp hsig

/-- What a record pointed at another part's header reads. -/
theorem HeaderAt.compressedBytes_eq_ok {d : Bytes} {p : Part} {e : ZipEntry}
    (h : HeaderAt fl d e.localHeaderOffset p)
    (hroom : e.localHeaderOffset + 30 + p.rawName.length + e.compSize ≤ wordMax) {comp : Bytes} :
    Zip.compressedBytes d e = .ok comp ↔
      slice? d (e.localHeaderOffset + 30 + p.rawName.length)
        (e.localHeaderOffset + 30 + p.rawName.length + e.compSize) = some comp := by
  unfold Zip.compressedBytes
  dsimp only
  rw [if_neg (not_not.mpr h.sig), h.nameLen, h.extraLen]
  dsimp only
  rw [Nat.add_zero, checkedAdd_of_le hroom]
  dsimp only
  cases slice? d (e.localHeaderOffset + 30 + p.rawName.length)
      (e.localHeaderOffset + 30 + p.rawName.length + e.compSize) <;> simp

/-! ## The merge -/

/-- Candidates at offsets the merge already knows change nothing. -/
theorem ReconcileState.considerAll_of_known {data : Bytes} {containers : ContainerOwnershipMap}
    {policy : ZipRecoveryPolicy} {s : ReconcileState} {scanned : List ZipEntry}
    (h : ∀ e ∈ scanned, (containers.ownerOf e.localHeaderOffset).isSome = false ∧
      e.localHeaderOffset ∈ s.byOffset) :
    (considerAll data containers policy s scanned).entries = s.entries := by
  induction scanned with
  | nil => rfl
  | cons e rest ih =>
      obtain ⟨hown, hknown⟩ := h e List.mem_cons_self
      have hstep : s.consider data containers e = s := by
        unfold consider
        rw [if_neg (by simp [hown]), if_pos hknown]
      rw [considerAll]
      split
      · rfl
      · rw [hstep]
        exact ih fun e' he' ↦ h e' (List.mem_cons_of_mem e he')

/-- Where nothing is embedded and every scanned header is one the directory points at, the merge
is the directory. -/
theorem mergeScan_perm {data : Bytes} {policy : ZipRecoveryPolicy} {st : ParseState}
    (hdetect : ContainerOwnershipMap.detect data policy = ⟨[]⟩)
    (hknown : ∀ e ∈ (scanLocalHeadersBounded data policy).1,
      e.localHeaderOffset ∈ st.out.entries.map (·.localHeaderOffset)) :
    (mergeScan data policy st).entries.Perm st.out.entries := by
  refine (List.perm_insertionSort _ _).trans ?_
  rw [ReconcileState.considerAll_of_known]
  · simp [reconcileStart, hdetect, ZipParse.warn]
  · intro e he
    rw [hdetect]
    refine ⟨rfl, ?_⟩
    simpa [reconcileStart, ZipParse.warn] using hknown e he

namespace HeadCut

/-- A scanned entry is a surviving header. -/
theorem scanned_survivor (h : HeadCut fl parts k) {e : ZipEntry}
    (he : e ∈ (scanLocalHeadersBounded (cutHost fl parts k).data .default).1) :
    ∃ q ∈ survivors fl parts k, e.localHeaderOffset = q.2 ∧ e.name = q.1.name := by
  obtain ⟨hsig, heq⟩ := scanLocalHeadersBounded_sound e he
  obtain ⟨q, hq, hoff⟩ := h.sig_survivors _ hsig
  refine ⟨q, hq, hoff.symm, ?_⟩
  rw [heq, ← hoff]
  exact (h.inPlace_survivors q hq).1.scanned_name

/-- On either path the parse lists the reconciled directory. -/
theorem parse_perm (h : HeadCut fl parts k) (hclear : StaleOffsetClear fl parts k) :
    (parseZip (cutHost fl parts k).data).entries.Perm
      ((placed fl 0 parts).map fun q ↦ q.1.entry fl (landed k q.2)) := by
  have hent := h.readDirectory_entries hclear
  cases hc : cdComplete (cutHost fl parts k).data
      (readDirectory (cutHost fl parts k).data .default) with
  | true =>
      rw [parseZip, parseZipWithPolicy_of_complete hc, noteCount_entries, hent]
  | false =>
      rw [parseZip, parseZipWithPolicy_of_incomplete hc, ← hent]
      refine mergeScan_perm h.detect_eq fun e he ↦ ?_
      obtain ⟨q, hq, hoff, -⟩ := h.scanned_survivor he
      rw [hent, List.map_map, hoff]
      refine List.mem_map.mpr ⟨_, mem_survivors.mp hq, ?_⟩
      simp [landed]

/-! ## What extraction returns -/

theorem extractEntry_survivor (h : HeadCut fl parts k) (hrt : fl.RoundTrips) {q : Part × ℕ}
    (hq : q ∈ placed fl 0 parts) (hle : k ≤ q.2) :
    extractEntry fl (cutHost fl parts k).data (q.1.entry fl (q.2 - k)) = q.1.verified fl := by
  obtain ⟨hmem, -, hend⟩ := mem_placed_bounds hq
  have hlen := h.bounds.length_localRecords_lt
  refine extractEntry_part hrt (h.headerAt hq hle) h.word (h.bounds.data q.1 hmem)
    (q.1.entry_name _) (q.1.entry_isEncrypted _) (Part.entry_zip64 (h.bounds.fits hmem) ?_) rfl rfl
    rfl rfl rfl
  omega

theorem word_room (h : HeadCut fl parts k) {q : Part × ℕ} (hq : q ∈ placed fl 0 parts)
    {p : Part} (hp : p ∈ parts) :
    q.2 + 30 + p.rawName.length + (q.1.payload fl).length ≤ wordMax := by
  obtain ⟨hmem, -, hend⟩ := mem_placed_bounds hq
  have hname := h.bounds.names p hp
  have hlen := h.bounds.length_localRecords_lt
  have hpay := (h.bounds.fits hmem).payload
  unfold wordMax
  omega

/-- A removed part's record reads nothing exactly when no surviving header at its stale offset
leads it to bytes that decode. -/
theorem extractEntry_removed (h : HeadCut fl parts k) {q : Part × ℕ}
    (hq : q ∈ placed fl 0 parts) :
    (extractEntry fl (cutHost fl parts k).data (q.1.entry fl q.2)).bytes = [] ↔
      ∀ q' ∈ placed fl 0 parts, q'.2 = q.2 + k →
        ∀ comp, slice? (cutHost fl parts k).data (q.2 + 30 + q'.1.rawName.length)
            (q.2 + 30 + q'.1.rawName.length + (q.1.payload fl).length) = some comp →
          ∀ bytes, decodePayload fl (q.1.method fl) comp = some (some bytes) → bytes = [] := by
  obtain ⟨hmem, -, hend⟩ := mem_placed_bounds hq
  have hlen := h.bounds.length_localRecords_lt
  rw [extractEntry_bytes_eq_nil_iff (q.1.entry_isEncrypted _)
    (Part.entry_zip64 (h.bounds.fits hmem) (by omega)) rfl]
  constructor
  · intro hall q' hq' hoff comp hslice
    have hat := h.headerAt hq' (by omega)
    rw [hoff, Nat.add_sub_cancel] at hat
    exact hall comp ((hat.compressedBytes_eq_ok (e := q.1.entry fl q.2) (h.word_room hq
      (mem_placed_bounds hq').1)).mpr hslice)
  · intro hall comp hcomp
    obtain ⟨q', hq', hoff⟩ := h.sig_survivors _ (sig_of_compressedBytes hcomp)
    have hplaced := mem_survivors.mp hq'
    have hat := (h.inPlace_survivors q' hq').1
    rw [hoff] at hat
    exact hall _ hplaced (by simp only [hoff, Part.entry_localHeaderOffset])
      comp ((hat.compressedBytes_eq_ok (h.word_room hq (mem_placed_bounds hplaced).1)).mp hcomp)

/-- With the offset clear, the cut is recovered exactly when the stale headers are silent. -/
theorem recoversCut_iff_of_clear (h : HeadCut fl parts k) (hrt : fl.RoundTrips)
    (hclear : StaleOffsetClear fl parts k) :
    RecoversCut fl parts k ↔ StaleHeadersSilent fl parts k := by
  have hperm := h.parse_perm hclear
  unfold RecoversCut StaleHeadersSilent
  rw [drop_encodeZip h.le]
  constructor
  · rintro ⟨es, hes, hall⟩ q hq hlt
    obtain ⟨e, he, hname, hread⟩ := exists_mem_of_forall₂ hall hq
    -- the entry of the part's name is the part's reconciled record
    obtain ⟨q', hq', rfl⟩ := List.mem_map.mp (hperm.subset (hes.subset he))
    rw [Part.entry_name] at hname
    obtain rfl := h.eq_of_name hq' hq hname
    rw [if_neg (by omega), landed, if_neg (by omega)] at hread
    exact (h.extractEntry_removed hq).mp hread
  · intro hsilent
    refine ⟨_, hperm.symm, ?_⟩
    rw [List.forall₂_map_right_iff, List.forall₂_same]
    intro q hq
    refine ⟨q.1.entry_name _, ?_⟩
    split
    · rename_i hle
      rw [landed, if_pos hle]
      exact ⟨rfl, h.extractEntry_survivor hrt hq hle⟩
    · rename_i hlt
      rw [landed, if_neg hlt]
      exact (h.extractEntry_removed hq).mpr (hsilent q hq (by omega))

/-! ## A declared offset inside the directory -/

/-- A record at the stale offset splits the directory; the cut is as long as the part before it. -/
theorem split_of_stale (h : HeadCut fl parts k)
    (hcd : cdfhAt (cutHost fl parts k).data (localRecords fl parts).length = true) :
    ∃ before r rest, dirRecords fl 0 parts = before ++ r :: rest ∧
      k = (dirBytes before).length := by
  simp only [cdfhAt, Bool.and_eq_true, decide_eq_true_eq] at hcd
  have hsig := hcd.2
  rw [← drop_encodeZip h.le, u32le_drop] at hsig
  obtain ⟨before, r, rest, hrs, hoff⟩ := h.inPlace.directory _ hsig
  exact ⟨before, r, rest, hrs, by omega⟩

/-- The first part's name is then not among what the directory gives. -/
theorem first_unlisted (h : HeadCut fl parts k) (hk : k ≠ 0)
    (hcd : cdfhAt (cutHost fl parts k).data (localRecords fl parts).length = true)
    {p : Part} {ps : List Part} (hparts : parts = p :: ps) :
    ∀ e ∈ (readDirectory (cutHost fl parts k).data .default).out.entries, e.name ≠ p.name := by
  obtain ⟨before, r, rest, hrs, hlen⟩ := h.split_of_stale hcd
  have hbefore : before ≠ [] := by
    rintro rfl
    exact hk hlen
  have hdirectory := h.bounds.length_directory
  have hroom : (dirBytes (cutHost fl parts k).rs).length + 22 ≤
      ZipRecoveryPolicy.default.maxCentralBytes := by
    refine le_trans (Nat.add_le_add_right hdirectory 22) (by decide)
  have hoff : (cutHost fl parts k).cdOffset =
      (cutHost fl parts k).start + (dirBytes before).length := by
    rw [← hlen]
    exact h.start_eq.symm
  have hent := Host.followEocd_within ⟨[]⟩ h.valid h.bounds.admits hroom hrs
    hbefore hoff rfl
  intro e he heq
  have hread : readDirectory (cutHost fl parts k).data .default =
      reconcileDirectory (cutHost fl parts k).data .default
        (followEocd (cutHost fl parts k).data .default ⟨[]⟩) := by
    unfold readDirectory
    dsimp only
    rw [h.detect_eq, recoverSurvivingCd_of_entries (by rw [hent]; simp)]
  rw [hread] at he
  obtain ⟨e', he', hname⟩ := name_of_reconcileDirectory he
  rw [hent] at he'
  obtain ⟨r', hr', rfl⟩ := List.mem_map.mp he'
  -- the records' names are the parts' names, and the first one is not repeated
  have hnames : (dirRecords fl 0 parts).map (fun r ↦ r.entry.name) = parts.map (·.name) := by
    conv_rhs => rw [← map_fst_placed fl 0 parts, List.map_map]
    rw [dirRecords, List.map_map]
    exact List.map_congr_left fun q _ ↦ q.1.entry_name q.2
  obtain ⟨r₀, before, rfl⟩ := List.exists_cons_of_ne_nil hbefore
  have hnodup := h.distinct
  rw [← hnames, hrs] at hnodup
  have hfirst : r₀.entry.name = p.name := by
    have hhead := congrArg List.head? hnames
    rw [hrs, hparts] at hhead
    simpa using hhead
  rw [List.cons_append, List.map_cons, List.nodup_cons] at hnodup
  refine hnodup.1 ?_
  rw [hfirst, ← heq, hname]
  exact List.mem_map_of_mem (List.mem_append_right _ hr')

theorem not_recoversCut_of_stale (h : HeadCut fl parts k) (hk : k ≠ 0)
    (hcd : cdfhAt (cutHost fl parts k).data (localRecords fl parts).length = true) :
    ¬ RecoversCut fl parts k := by
  rintro ⟨es, hes, hall⟩
  rw [drop_encodeZip h.le] at hes hall
  obtain ⟨p, ps, hparts⟩ := List.exists_cons_of_ne_nil h.parts_ne_nil
  have hp : (p, 0) ∈ placed fl 0 parts := by
    rw [hparts, placed_cons]
    exact List.mem_cons_self
  obtain ⟨e, he, hname, -⟩ := exists_mem_of_forall₂ hall hp
  have hunlisted := h.first_unlisted hk hcd hparts
  have hmem : e ∈ (readDirectory (cutHost fl parts k).data .default).out.entries ∨
      e ∈ (scanLocalHeadersBounded (cutHost fl parts k).data .default).1 := by
    have hparse := hes.subset he
    rw [parseZip] at hparse
    cases hc : cdComplete (cutHost fl parts k).data
        (readDirectory (cutHost fl parts k).data .default) with
    | true => exact .inl (by simpa [parseZipWithPolicy_of_complete hc] using hparse)
    | false => exact mem_mergeScan (by rwa [parseZipWithPolicy_of_incomplete hc] at hparse)
  rcases hmem with hmem | hmem
  · exact hunlisted e hmem hname
  · -- a scanned header survived the cut, and the first part's did not
    obtain ⟨q, hq, -, hscan⟩ := h.scanned_survivor hmem
    have heq := h.eq_of_name (mem_survivors.mp hq) hp (hscan.symm.trans hname)
    have hzero : q.2 + k = 0 := congrArg Prod.snd heq
    omega

end HeadCut

/-- A head cut is recovered exactly when the stale directory offset is clear of records and the
stale headers are silent. -/
theorem recoversCut_iff (h : HeadCut fl parts k) (hrt : fl.RoundTrips) :
    RecoversCut fl parts k ↔ StaleOffsetClear fl parts k ∧ StaleHeadersSilent fl parts k := by
  by_cases hclear : StaleOffsetClear fl parts k
  · rw [h.recoversCut_iff_of_clear hrt hclear, and_iff_right hclear]
  · refine iff_of_false ?_ fun hboth ↦ hclear hboth.1
    unfold StaleOffsetClear at hclear
    rw [drop_encodeZip h.le, not_or, Bool.not_eq_false] at hclear
    exact h.not_recoversCut_of_stale hclear.1 hclear.2

/-- Two stored letters. -/
def letters : List Part := [⟨['a'], [0x78]⟩, ⟨['b'], [0x79]⟩]

theorem letters_signaturesInPlace : SignaturesInPlace storedFlate letters := by
  have hbound : ∀ o, ∀ v, u32le (encodeZip storedFlate letters) o = some v → o < 180 := by
    intro o v hv
    have hle := le_length_of_u32le hv
    have hlen : (encodeZip storedFlate letters).length = 180 := by decide +kernel
    omega
  have hlocal : ∀ o < 180, u32le (encodeZip storedFlate letters) o = some lfhSig →
      o ∈ (placed storedFlate 0 letters).map Prod.snd := by decide +kernel
  have hdirectory : ∀ o < 180, u32le (encodeZip storedFlate letters) o = some cdfhSig →
      o = 64 ∨ o = 111 := by decide +kernel
  have hend : ∀ o < 180, u32le (encodeZip storedFlate letters) o = some eocdSig →
      o + eocdLen = (encodeZip storedFlate letters).length := by decide +kernel
  refine ⟨fun o ho ↦ ?_, fun o ho ↦ ?_, fun o ho ↦ hend o (hbound o _ ho) ho⟩
  · exact List.mem_map.mp (hlocal o (hbound o _ ho) ho)
  · rcases hdirectory o (hbound o _ ho) ho with rfl | rfl
    · exact ⟨[], _, _, rfl, by decide +kernel⟩
    · exact ⟨[_], _, [], rfl, by decide +kernel⟩

theorem letters_headCut {k : ℕ} (hk : k ≤ 32) : HeadCut storedFlate letters k where
  bounds := ⟨by decide, by decide +kernel, by decide +kernel, by decide, by decide +kernel⟩
  named := by decide
  distinct := by decide
  inPlace := letters_signaturesInPlace
  le := le_trans hk (by decide +kernel)
  survivor := ⟨(⟨['b'], [0x79]⟩, 32), by decide +kernel, hk⟩

theorem recoversCut_iff_letters :
    RecoversCut storedFlate letters 1 ↔
      StaleOffsetClear storedFlate letters 1 ∧ StaleHeadersSilent storedFlate letters 1 :=
  recoversCut_iff (letters_headCut (by decide)) storedFlate_roundTrips

/-- A cut on an entry boundary brings the second header to the first one's stale offset: the
removed letter's entry reads the other's payload. -/
theorem letters_cut_not_recovered :
    HeadCut storedFlate letters 32 ∧ ¬ RecoversCut storedFlate letters 32 := by
  refine ⟨letters_headCut (by decide), ?_⟩
  rintro ⟨es, hes, hall⟩
  obtain ⟨e, he, hname, hread⟩ := exists_mem_of_forall₂ hall
    (show (⟨['a'], [0x78]⟩, 0) ∈ placed storedFlate 0 letters by decide)
  have hforeign : ∀ e ∈ (parseZip ((encodeZip storedFlate letters).drop 32)).entries,
      e.name = ['a'] →
        (extractEntry storedFlate ((encodeZip storedFlate letters).drop 32) e).bytes = [0x79] := by
    decide +kernel
  rw [if_neg (by decide), hforeign e (hes.subset he) hname] at hread
  simp at hread

end VeraqisRecover.Zip
