import VeraqisRecover.Zip.Completeness
import VeraqisRecover.Zip.Layout
import VeraqisRecover.Zip.Merge
import VeraqisRecover.Zip.SurvivingDirectory

/-!
# Reading back what the encoder wrote

The encoder's output ends in a written directory whose records name the headers
they point at.  Unless an embedded archive owns the directory's start, the
reader adopts the directory, leaves every offset alone, finds the payload area
tiled without a gap and returns the directory as it is.
-/

namespace VeraqisRecover.Zip

open ByteString LossyUtf8

variable {fl : Flate2} {parts : List Part}

/-- Fewer than 65536 parts within the default policy's bounds. -/
structure WithinBounds (fl : Flate2) (parts : List Part) : Prop where
  count : parts.length < 65536
  names : ∀ p ∈ parts, p.rawName.length ≤ 65535
  total : (parts.map (·.rawName.length)).sum ≤ 64 * 1024 * 1024
  data : ∀ p ∈ parts, p.data.length ≤ 512 * 1024 * 1024
  output : (encodeZip fl parts).length ≤ 2 * 1024 * 1024 * 1024

/-- The encoder's output as a prefix with a written directory. -/
def encodeHost (fl : Flate2) (parts : List Part) : Host :=
  ⟨localRecords fl parts, dirRecords fl 0 parts, parts.length, (localRecords fl parts).length⟩

theorem encodeZip_eq (fl : Flate2) (parts : List Part) :
    encodeZip fl parts = (encodeHost fl parts).data := by
  unfold encodeZip
  rw [centralRecords_eq]
  rfl

theorem nameBytes_dirRecords (o : ℕ) (parts : List Part) :
    nameBytes (dirRecords fl o parts) = (parts.map (·.rawName.length)).sum := by
  rw [nameBytes, dirRecords, List.map_map]
  conv_rhs => rw [← map_fst_placed fl o parts, List.map_map]
  rfl

namespace WithinBounds

theorem length_localRecords_lt (h : WithinBounds fl parts) :
    (localRecords fl parts).length + (dirBytes (dirRecords fl 0 parts)).length + 22 ≤
      2 * 1024 * 1024 * 1024 := by
  have hout := h.output
  rw [encodeZip_eq, Host.length_data] at hout
  exact hout

theorem fits (h : WithinBounds fl parts) {p : Part} (hp : p ∈ parts) : p.Fits fl := by
  have hname := h.names p hp
  have hdata := h.data p hp
  have hpay := payload_le fl p
  exact ⟨by omega, by omega, by omega⟩

theorem fits_dirRecords (h : WithinBounds fl parts) :
    ∀ r ∈ dirRecords fl 0 parts, r.Fits := by
  intro r hr
  obtain ⟨q, hq, rfl⟩ := List.mem_map.mp hr
  obtain ⟨hmem, -, hend⟩ := mem_placed_bounds hq
  have hlen := h.length_localRecords_lt
  exact Part.dirRecord_fits (h.fits hmem) (by omega)

theorem length_directory (h : WithinBounds fl parts) :
    (dirBytes (dirRecords fl 0 parts)).length ≤ 46 * 65535 + 64 * 1024 * 1024 := by
  have hcount := h.count
  have htotal := h.total
  rw [length_dirBytes, nameBytes_dirRecords, length_dirRecords]
  omega

theorem admits (h : WithinBounds fl parts) : Admits .default (dirRecords fl 0 parts) where
  records := by
    have hcount := h.count
    rw [length_dirRecords]
    exact le_trans (le_of_lt hcount) (by decide)
  bytes := le_trans h.length_directory (by decide)
  metadata := by
    rw [nameBytes_dirRecords]
    exact h.total
  names := by
    intro r hr
    obtain ⟨q, hq, rfl⟩ := List.mem_map.mp hr
    exact h.names q.1 (mem_placed_bounds hq).1

theorem word (h : WithinBounds fl parts) : (encodeHost fl parts).data.length ≤ wordMax := by
  rw [← encodeZip_eq]
  exact le_trans h.output (by decide)

theorem valid (h : WithinBounds fl parts) (hne : parts ≠ []) : (encodeHost fl parts).Valid where
  nonempty := by
    rw [← List.length_pos_iff_ne_nil] at hne ⊢
    simpa [encodeHost] using hne
  fits := h.fits_dirRecords
  count := h.count
  cdOffset := by
    have hlen := h.length_localRecords_lt
    simp only [encodeHost]
    omega
  size := by
    have hlen := h.length_directory
    simp only [encodeHost]
    omega
  word := h.word

end WithinBounds

/-! ## Headers and ranges in the output -/

theorem at_localRecords : At (encodeHost fl parts).data 0 (localRecords fl parts) := by
  have h : At (localRecords fl parts) 0 (localRecords fl parts) := by simp [At]
  exact (h.extend _).extend _

theorem headerAt_placed (h : WithinBounds fl parts) {q : Part × ℕ} (hq : q ∈ placed fl 0 parts) :
    HeaderAt fl (encodeHost fl parts).data q.2 q.1 :=
  headerAt (at_localRecord at_localRecords hq) (h.fits (mem_placed_bounds hq).1)

theorem consecutive_placed (fl : Flate2) (o : ℕ) (parts : List Part) :
    Consecutive o ((placed fl o parts).map fun q ↦ (q.2, q.2 + (localRecord fl q.1).length))
      (o + (localRecords fl parts).length) := by
  induction parts generalizing o with
  | nil => rfl
  | cons p parts ih =>
      refine ⟨rfl, ?_, ?_⟩
      · dsimp only
        rw [length_localRecord]
        omega
      · rw [length_localRecords_cons, ← Nat.add_assoc]
        exact ih _

/-! ## The directory is returned as it is -/

/-- What reading the output's directory yields when no embedded archive owns its start. -/
theorem readDirectory_encodeZip (h : WithinBounds fl parts) (hne : parts ≠ [])
    (hown : ((ContainerOwnershipMap.detect (encodeHost fl parts).data .default).ownerOf
      (encodeHost fl parts).start).isSome = false) :
    let st := readDirectory (encodeHost fl parts).data .default
    st.out.entries = (placed fl 0 parts).map (fun q ↦ q.1.entry fl q.2) ∧
      st.out.cdFound = true ∧ st.declaredCount = some parts.length ∧
      st.cdRegionStart = some (encodeHost fl parts).start ∧ st.out.scanOnlyEntries = 0 ∧
      st.out.conflicts = [] ∧ st.out.rejectedCandidates = [] := by
  obtain ⟨hent, hrest⟩ := readDirectory_host (h.valid hne) h.admits (fun _ ↦ rfl) hown
  refine ⟨?_, hrest⟩
  rw [hent, show (encodeHost fl parts).rs = dirRecords fl 0 parts from rfl,
    map_entry_dirRecords, List.map_map]
  refine List.map_congr_left fun q hq ↦ reconciled_of_named ?_
  have hnamed := (headerAt_placed h hq).named h.word
  simpa [Part.rawName] using hnamed

theorem filterMap_payloadRange_placed (h : WithinBounds fl parts) :
    ((placed fl 0 parts).map fun q ↦ q.1.entry fl q.2).filterMap
        (payloadRange (encodeHost fl parts).data) =
      (placed fl 0 parts).map fun q ↦ (q.2, q.2 + (localRecord fl q.1).length) := by
  rw [List.filterMap_map, ← List.filterMap_eq_map]
  refine List.filterMap_congr fun q hq ↦ ?_
  exact (headerAt_placed h hq).payloadRange h.word rfl rfl

theorem cdComplete_encodeZip (h : WithinBounds fl parts) (hne : parts ≠ [])
    (hown : ((ContainerOwnershipMap.detect (encodeHost fl parts).data .default).ownerOf
      (encodeHost fl parts).start).isSome = false) :
    cdComplete (encodeHost fl parts).data
      (readDirectory (encodeHost fl parts).data .default) = true := by
  obtain ⟨hent, hcd, hcount, hstart, -⟩ := readDirectory_encodeZip h hne hown
  suffices hacc : Accounts (encodeHost fl parts).data
      (readDirectory (encodeHost fl parts).data .default)
      ((placed fl 0 parts).map fun q ↦ (q.2, q.2 + (localRecord fl q.1).length)) from
    hacc.cdComplete
  refine ⟨hcd, ?_, ?_, ?_, ?_, ?_⟩
  · rw [hent, ← List.length_pos_iff_ne_nil, List.length_map, length_placed]
    exact List.length_pos_of_ne_nil hne
  · rw [hent, hcount, List.length_map, length_placed]
  · rw [hent]
    intro e he
    obtain ⟨q, hq, rfl⟩ := List.mem_map.mp he
    exact (headerAt_placed h hq).present h.word
  · rw [hent]
    exact filterMap_payloadRange_placed h
  · have htile := consecutive_placed fl 0 parts
    rw [Nat.zero_add] at htile
    rw [hstart]
    exact htile

/-- The parse of `data` is the parts again: one directory entry for each, in order, extracting
to the part's name and data, and nothing else. -/
structure ReadsBack (fl : Flate2) (data : Bytes) (parts : List Part) : Prop where
  entries : List.Forall₂ (fun p e ↦ e.name = p.name ∧ e.fromCentralDir = true ∧
    extractEntry fl data e = p.verified fl) parts (parseZip data).entries
  scanOnly : (parseZip data).scanOnlyEntries = 0
  rejected : (parseZip data).rejectedCandidates = []
  conflicts : (parseZip data).conflicts = []

theorem forall₂_placed {R : Part → ZipEntry → Prop} {g : Part × ℕ → ZipEntry} {o : ℕ}
    {parts : List Part} (h : ∀ q ∈ placed fl o parts, R q.1 (g q)) :
    List.Forall₂ R parts ((placed fl o parts).map g) := by
  have hsame : List.Forall₂ R ((placed fl o parts).map Prod.fst) ((placed fl o parts).map g) := by
    rw [List.forall₂_map_left_iff, List.forall₂_map_right_iff, List.forall₂_same]
    exact h
  rwa [map_fst_placed] at hsame

/-- The empty archive reads back as no entries. -/
theorem readsBack_nil (fl : Flate2) : ReadsBack fl (encodeZip fl []) [] := by
  have hdata : encodeZip fl [] = endRecord 0 0 0 := rfl
  have hparse : (parseZip (endRecord 0 0 0)).entries = [] ∧
      (parseZip (endRecord 0 0 0)).scanOnlyEntries = 0 ∧
      (parseZip (endRecord 0 0 0)).rejectedCandidates = [] ∧
      (parseZip (endRecord 0 0 0)).conflicts = [] := by decide +kernel
  rw [hdata]
  exact ⟨hparse.1 ▸ .nil, hparse.2.1, hparse.2.2.1, hparse.2.2.2⟩

theorem readsBack_of_unowned (h : WithinBounds fl parts) (hrt : fl.RoundTrips)
    (hne : parts ≠ [])
    (hown : ((ContainerOwnershipMap.detect (encodeHost fl parts).data .default).ownerOf
      (encodeHost fl parts).start).isSome = false) :
    ReadsBack fl (encodeHost fl parts).data parts := by
  obtain ⟨hent, -, -, -, hscan, hconf, hrej⟩ := readDirectory_encodeZip h hne hown
  have hparse : parseZip (encodeHost fl parts).data =
      noteCount (readDirectory (encodeHost fl parts).data .default) :=
    parseZipWithPolicy_of_complete (cdComplete_encodeZip h hne hown)
  have hframe : (noteCount (readDirectory (encodeHost fl parts).data .default)).scanOnlyEntries =
        0 ∧
      (noteCount (readDirectory (encodeHost fl parts).data .default)).rejectedCandidates = [] ∧
      (noteCount (readDirectory (encodeHost fl parts).data .default)).conflicts = [] := by
    unfold noteCount
    dsimp only
    split
    · split <;> exact ⟨hscan, hrej, hconf⟩
    · exact ⟨hscan, hrej, hconf⟩
  refine ⟨?_, ?_, ?_, ?_⟩ <;> rw [hparse]
  · rw [noteCount_entries, hent]
    refine forall₂_placed fun q hq ↦ ⟨q.1.entry_name q.2, rfl, ?_⟩
    obtain ⟨hmem, -, hend⟩ := mem_placed_bounds hq
    have hlen := h.length_localRecords_lt
    refine extractEntry_part hrt (headerAt_placed h hq) h.word (h.data q.1 hmem)
      (q.1.entry_name q.2) (q.1.entry_isEncrypted q.2) (Part.entry_zip64 (h.fits hmem) ?_) rfl rfl
      rfl rfl rfl
    omega
  · exact hframe.1
  · exact hframe.2.1
  · exact hframe.2.2

/-- An owned directory leaves only scanned headers, none of which is a directory entry. -/
theorem not_readsBack_of_owned (h : WithinBounds fl parts) (hne : parts ≠ [])
    (hown : ((ContainerOwnershipMap.detect (encodeHost fl parts).data .default).ownerOf
      (encodeHost fl parts).start).isSome = true) :
    ¬ ReadsBack fl (encodeHost fl parts).data parts := by
  intro hback
  obtain ⟨p, ps, rfl⟩ := List.exists_cons_of_ne_nil hne
  obtain ⟨e, es, ⟨-, hcd, -⟩, -, hes⟩ := List.forall₂_cons_left_iff.mp hback.entries
  have hmem : e ∈ (parseZip (encodeHost fl (p :: ps)).data).entries := by simp [hes]
  have hdir := mem_directory_of_parse hmem hcd
  rw [Host.readDirectory_of_owned (h.valid hne) (fun _ ↦ rfl) hown] at hdir
  simp at hdir

/-- The round trip holds exactly when there is nothing to read or no embedded archive validated
in the output covers the start of its directory. -/
theorem encodeZip_readsBack_iff (h : WithinBounds fl parts) (hrt : fl.RoundTrips) :
    ReadsBack fl (encodeZip fl parts) parts ↔
      parts = [] ∨ ∀ a ∈ (ContainerOwnershipMap.detect (encodeZip fl parts) .default).archives,
        a.contains (localRecords fl parts).length = false := by
  have howner := ContainerOwnershipMap.ownerOf_isSome_iff
    (ContainerOwnershipMap.detect_sorted (encodeHost fl parts).data .default)
    (encodeHost fl parts).start
  rw [encodeZip_eq]
  by_cases hne : parts = []
  · subst hne
    simpa [← encodeZip_eq] using readsBack_nil fl
  · cases hown : ((ContainerOwnershipMap.detect (encodeHost fl parts).data .default).ownerOf
        (encodeHost fl parts).start).isSome with
    | true =>
        obtain ⟨a, ha, hc⟩ := howner.mp hown
        refine iff_of_false (not_readsBack_of_owned h hne hown) ?_
        rintro (hnil | hall)
        · exact hne hnil
        · exact absurd hc (Bool.eq_false_iff.mp (hall a ha))
    | false =>
        refine iff_of_true (readsBack_of_unowned h hrt hne hown) (.inr fun a ha ↦ ?_)
        by_contra hc
        rw [howner.mpr ⟨a, ha, Bool.not_eq_false _ ▸ hc⟩] at hown
        exact Bool.noConfusion hown

theorem encodeZip_readsBack_iff_letter :
    ReadsBack storedFlate (encodeZip storedFlate [⟨['a'], [0x78]⟩]) [⟨['a'], [0x78]⟩] ↔
      [(⟨['a'], [0x78]⟩ : Part)] = [] ∨ ∀ a ∈ (ContainerOwnershipMap.detect
        (encodeZip storedFlate [⟨['a'], [0x78]⟩]) .default).archives,
          a.contains (localRecords storedFlate [⟨['a'], [0x78]⟩]).length = false :=
  encodeZip_readsBack_iff
    ⟨by decide, by decide +kernel, by decide +kernel, by decide, by decide +kernel⟩
    storedFlate_roundTrips

/-- Bytes that count upwards. -/
def counting (first n : ℕ) : Bytes := (List.range n).map fun i ↦ UInt8.ofNat (first + i)

/-- A small archive whose EOCD declares a comment of sixty bytes: followed by an outer directory,
the comment covers its start.  The fields that nothing reads hold bytes that do not repeat, so that
the archive does not deflate to fewer bytes and is stored. -/
def denseArchive : Bytes :=
  let body := le32 lfhSig ++ counting 0x90 22 ++ le16 1 ++ counting 0xA6 2 ++ [0x78]
  let cd := le32 cdfhSig ++ counting 0xA8 24 ++ le16 1 ++ le16 9 ++ le16 7 ++ counting 0xC0 8 ++
    le32 0 ++ [0x78] ++ counting 0xC8 9 ++ counting 0xD1 7
  body ++ cd ++ le32 eocdSig ++ counting 0xD8 6 ++ le16 1 ++ le32 cd.length ++ le32 body.length ++
    le16 60

/-- An inner archive whose comment reaches into the outer directory makes the round trip fail. -/
theorem denseArchive_not_readsBack :
    WithinBounds storedFlate [⟨['i'], denseArchive⟩] ∧
      ¬ ReadsBack storedFlate (encodeZip storedFlate [⟨['i'], denseArchive⟩])
        [⟨['i'], denseArchive⟩] := by
  refine ⟨⟨by decide, by decide +kernel, by decide +kernel, by decide +kernel,
    by decide +kernel⟩, fun hback ↦ ?_⟩
  obtain ⟨e, es, ⟨-, hcd, -⟩, -, hes⟩ := List.forall₂_cons_left_iff.mp hback.entries
  have hnone : ∀ e ∈ (parseZip (encodeZip storedFlate [⟨['i'], denseArchive⟩])).entries,
      e.fromCentralDir = false := by decide +kernel
  rw [hnone e (by simp [hes])] at hcd
  simp at hcd

end VeraqisRecover.Zip
