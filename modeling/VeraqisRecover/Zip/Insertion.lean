import VeraqisRecover.Zip.Emission
import VeraqisRecover.Zip.RoundTrip

/-!
# Recovery after an insertion

Bytes inserted before the directory move it as a whole.  The reader finds it by
measured size, its records keep their names and checksums, and a directory
whose count is right vouches for its own entries only: a planted header is
never emitted, and what is emitted carries the checksum of a part of its name.
-/

namespace VeraqisRecover.Zip

open ByteString LossyUtf8

variable {fl : Flate2} {parts : List Part}

/-- The archive of `parts` with `g` inserted at position `p`. -/
def inserted (fl : Flate2) (parts : List Part) (p : ℕ) (g : Bytes) : Bytes :=
  (encodeZip fl parts).take p ++ g ++ (encodeZip fl parts).drop p

/-- The same, as a prefix with the written directory of the parts. -/
def insertedHost (fl : Flate2) (parts : List Part) (p : ℕ) (g : Bytes) : Host :=
  { encodeHost fl parts with
    pre := (localRecords fl parts).take p ++ g ++ (localRecords fl parts).drop p }

theorem inserted_eq {p : ℕ} (hp : p ≤ (localRecords fl parts).length) (g : Bytes) :
    inserted fl parts p g = (insertedHost fl parts p g).data := by
  unfold inserted
  rw [encodeZip_eq]
  unfold Host.data insertedHost encodeHost
  dsimp only
  rw [List.append_assoc (localRecords fl parts), List.take_append_of_le_length hp,
    List.drop_append_of_le_length hp]
  simp only [List.append_assoc]

theorem insertedHost_start {p : ℕ} (hp : p ≤ (localRecords fl parts).length) (g : Bytes) :
    (insertedHost fl parts p g).start = (localRecords fl parts).length + g.length := by
  simp only [Host.start, insertedHost, List.length_append, List.length_take, List.length_drop]
  omega

/-- The declared offset does not happen to carry a directory record. -/
def DeclaredOffsetClear (data : Bytes) (offset : ℕ) (g : Bytes) : Prop :=
  g = [] ∨ cdfhAt data offset = false

/-- No embedded archive of `data` covers the directory's real start. -/
def DirectoryUncovered (data : Bytes) (start : ℕ) : Prop :=
  ∀ a ∈ (ContainerOwnershipMap.detect data .default).archives, a.contains start = false

theorem DirectoryUncovered.unowned {data : Bytes} {start : ℕ}
    (h : DirectoryUncovered data start) :
    ((ContainerOwnershipMap.detect data .default).ownerOf start).isSome = false := by
  rw [← Bool.not_eq_true, ContainerOwnershipMap.ownerOf_isSome_iff
    (ContainerOwnershipMap.detect_sorted data .default)]
  rintro ⟨a, ha, hc⟩
  rw [h a ha] at hc
  exact Bool.noConfusion hc

theorem insertedHost_valid (h : WithinBounds fl parts) (hne : parts ≠ []) {p : ℕ} {g : Bytes}
    (hword : (insertedHost fl parts p g).data.length ≤ wordMax) :
    (insertedHost fl parts p g).Valid := by
  obtain ⟨hn, hf, hc, ho, hs, -⟩ := h.valid hne
  exact ⟨hn, hf, hc, ho, hs, hword⟩

/-- Every directory entry read after the insertion has a part's name and checksum, and the
directory's count is right. -/
theorem readDirectory_inserted (h : WithinBounds fl parts) (hne : parts ≠ []) {p : ℕ}
    (hp : p ≤ (localRecords fl parts).length) {g : Bytes}
    (hword : (inserted fl parts p g).length ≤ wordMax)
    (hclear : DeclaredOffsetClear (inserted fl parts p g) (localRecords fl parts).length g)
    (hcover : DirectoryUncovered (inserted fl parts p g)
      ((localRecords fl parts).length + g.length)) :
    (∀ e ∈ (readDirectory (inserted fl parts p g) .default).out.entries,
      ∃ q ∈ parts, e.name = q.name ∧ e.crc32 = q.crc fl) ∧
      (parseZip (inserted fl parts p g)).cdCountConsistent = true := by
  rw [inserted_eq hp] at hword hclear hcover ⊢
  rw [← insertedHost_start hp] at hcover
  obtain ⟨hent, hcd, hcount, -⟩ := readDirectory_host (insertedHost_valid h hne hword) h.admits
    (fun hcdfh ↦ by
      rcases hclear with rfl | hfalse
      · rw [insertedHost_start hp]
        rfl
      · rw [show (insertedHost fl parts p g).cdOffset = (localRecords fl parts).length from rfl,
          hfalse] at hcdfh
        exact Bool.noConfusion hcdfh) hcover.unowned
  rw [show (insertedHost fl parts p g).rs = dirRecords fl 0 parts from rfl,
    map_entry_dirRecords, List.map_map] at hent
  constructor
  · intro e he
    rw [hent] at he
    obtain ⟨q, hq, rfl⟩ := List.mem_map.mp he
    refine ⟨q.1, (mem_placed_bounds hq).1, ?_⟩
    rw [Function.comp_apply, reconciled_movesOnly]
    exact ⟨q.1.entry_name q.2, rfl⟩
  · have hlen : (readDirectory (insertedHost fl parts p g).data .default).out.entries.length =
        parts.length := by
      rw [hent, List.length_map, length_placed]
    have hpos := List.length_pos_of_ne_nil hne
    rw [parseZip, parse_cdCountConsistent, noteCount_cdCountConsistent, hcd, hcount, hlen]
    simpa [insertedHost, encodeHost] using hpos

/-- Whatever is inserted before the directory: as long as the declared offset stays clear and the
directory uncovered, everything emitted has the path of a part and that part's checksum. -/
theorem recover_inserted (toLowercase : Text → Text) (h : WithinBounds fl parts)
    (hne : parts ≠ []) {p : ℕ} (hp : p ≤ (localRecords fl parts).length) {g : Bytes}
    (hword : (inserted fl parts p g).length ≤ wordMax)
    (hclear : DeclaredOffsetClear (inserted fl parts p g) (localRecords fl parts).length g)
    (hcover : DirectoryUncovered (inserted fl parts p g)
      ((localRecords fl parts).length + g.length)) :
    ∃ r, RecoveryRun.recoverVerifiedEntries
        ⟨fl, toLowercase, inserted fl parts p g, {}, .originalSurviving⟩ = .ok r ∧
      ∀ x ∈ r.entries, ∃ q ∈ parts, safeRelativePath q.name 240 24 = some x.safePath ∧
        fl.crc32 x.bytes = fl.crc32 q.data := by
  obtain ⟨hdir, hcount⟩ := readDirectory_inserted h hne hp hword hclear hcover
  obtain ⟨r, hr, hemit⟩ := RecoveryRun.recoverVerifiedEntries_emits
    ⟨fl, toLowercase, inserted fl parts p g, {}, .originalSurviving⟩
  refine ⟨r, hr, fun x hx ↦ ?_⟩
  obtain ⟨e, he, hpath, hver, hbytes, hatt⟩ := hemit x hx
  have hcd : e.fromCentralDir = true := by
    rcases hatt with ha | ha
    · simpa [CdProvenance.entryIsAttested, CdProvenance.attestsExistence] using ha
    · simp [RecoveryRun.directoryEnumeratesArchive, hcount, CdProvenance.attestsExistence] at ha
  obtain ⟨q, hq, hname, hcrc⟩ := hdir e (mem_directory_of_parse he hcd)
  obtain ⟨-, bytes, -, -, hsum, hext⟩ := extractEntry_verified hver
  refine ⟨q, hq, hname ▸ hpath, ?_⟩
  rw [hbytes, hext]
  exact UInt32.toNat_inj.mp (hsum.trans hcrc)

/-- Two members with a byte inserted between them. -/
def twoLetters : List Part := [⟨['a'], [0x78]⟩, ⟨['b'], [0x79]⟩]

theorem recover_inserted_twoLetters : ∃ r, RecoveryRun.recoverVerifiedEntries
    ⟨storedFlate, id, inserted storedFlate twoLetters 32 [0x00], {}, .originalSurviving⟩ = .ok r ∧
      r.entries.length = 2 ∧
      ∀ x ∈ r.entries, ∃ q ∈ twoLetters, safeRelativePath q.name 240 24 = some x.safePath ∧
        storedFlate.crc32 x.bytes = storedFlate.crc32 q.data := by
  obtain ⟨r, hr, hall⟩ := @recover_inserted storedFlate twoLetters id
    ⟨by decide, by decide +kernel, by decide +kernel, by decide, by decide +kernel⟩
    (by decide) 32 (by decide +kernel) [0x00] (by decide +kernel)
    (.inr (by decide +kernel)) (by unfold DirectoryUncovered; decide +kernel)
  have hcount : (RecoveryRun.recoverVerifiedEntries
      ⟨storedFlate, id, inserted storedFlate twoLetters 32 [0x00], {},
        .originalSurviving⟩).toOption.map (·.entries.length) = some 2 := by decide +kernel
  rw [hr] at hcount
  exact ⟨r, hr, Option.some.inj hcount, hall⟩

/-- Something emitted after the insertion is not the path and data of any part. -/
def EmitsForeign (parts : List Part) (p : ℕ) (g : Bytes) : Prop :=
  ∃ r, RecoveryRun.recoverVerifiedEntries
    ⟨storedFlate, id, inserted storedFlate parts p g, {}, .originalSurviving⟩ = .ok r ∧
      ∃ x ∈ r.entries, ∀ q ∈ parts,
        ¬ (safeRelativePath q.name 240 24 = some x.safePath ∧ x.bytes = q.data)

theorem emitsForeign_of_any {parts : List Part} {p : ℕ} {g : Bytes}
    (h : (match RecoveryRun.recoverVerifiedEntries
        ⟨storedFlate, id, inserted storedFlate parts p g, {}, .originalSurviving⟩ with
      | .ok r => r.entries.any fun x ↦ parts.all fun q ↦
          !(safeRelativePath q.name 240 24 = some x.safePath && x.bytes = q.data)
      | .error _ => false) = true) : EmitsForeign parts p g := by
  split at h
  · rename_i r hr
    obtain ⟨x, hx, hall⟩ := List.any_eq_true.mp h
    refine ⟨r, hr, x, hx, ?_⟩
    rintro q hq ⟨hpath, hbytes⟩
    have hq' := List.all_eq_true.mp hall q hq
    simp [hpath, hbytes] at hq'
  · simp at h

/-- A ghost entry with a directory record of its own, placed so that the record lands on the
declared directory offset. -/
def ghostInsertion : Bytes :=
  centralRecord storedFlate ⟨['b'], [0x79]⟩ 79 ++ localRecord storedFlate ⟨['b'], [0x79]⟩

/-- The bytes of a small archive whose EOCD declares a comment of sixty bytes: followed by an
outer directory, the comment covers its start. -/
def commentedArchive : Bytes :=
  let p : Part := ⟨['x'], [0x01]⟩
  let body := localRecord storedFlate p
  let cd := centralRecord storedFlate p 0
  body ++ cd ++ (endRecord 1 cd.length body.length).take 20 ++ le16 60

/-- Four insertions after which a foreign entry is emitted: a planted directory record at the
declared offset, a payload of equal checksum, a header in an archive without entries, and an
embedded archive whose comment covers the directory. -/
theorem inserted_emitsForeign :
    EmitsForeign [⟨['a'], [0x78]⟩] 32 ghostInsertion ∧
      EmitsForeign [⟨['a'], [0, 0, 0, 0, 0]⟩] 31 [0x41, 0x06, 0x71, 0xDB, 0x01] ∧
      EmitsForeign [] 0 (localRecord storedFlate ⟨['b'], [0x79]⟩) ∧
      EmitsForeign [⟨['a'], [0x78]⟩] 32 (localRecord storedFlate ⟨['i'], commentedArchive⟩) := by
  refine ⟨?_, ?_, ?_, ?_⟩
  all_goals
    apply emitsForeign_of_any
    decide +kernel

end VeraqisRecover.Zip
