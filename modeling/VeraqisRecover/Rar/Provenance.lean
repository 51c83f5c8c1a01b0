import VeraqisRecover.Rar.RoundTrip

/-!
# Which bytes the facts come from

A fact is decoded from a verified header when it can be read off the bytes of
that header alone.  For file and service entries the final bound on the name
sees to that.  The type and the archive flags are read without a bound, and
can lie behind a header that is too short for them.
-/

namespace VeraqisRecover.Rar

open ByteString LossyUtf8 Reader

namespace Block

/-- The file with nothing left of it but `[header-size field, header end)`. -/
def header (b : Block) (file : Bytes) : Bytes := window file b.hsStart b.bodyEnd

/-- The block's fields, read again out of another byte string. -/
def reread (b : Block) (d : Bytes) : Option Block :=
  (blockFields d b.bodyStart).map fun x ↦ { b with fields := x.1, cursor := x.2 }

/-- The archive flags mark a recovery record or a volume. -/
def Marks (v : ℕ) : Prop := v &&& arcRecoveryRecord ≠ 0 ∨ v &&& arcVolume ≠ 0

/-- What the block proves can be read off the bytes of its header alone. -/
structure FromHeader (b : Block) (file : Bytes) : Prop where
  entry : ∀ e, b.entry file = some e →
    (b.reread (b.header file)).bind (·.entry (b.header file)) = some e
  service : ∀ name, b.service file = some name →
    (b.reread (b.header file)).bind (·.service (b.header file)) = some name
  arcFlags : ∀ v, b.arcFlags file = some v → Marks v →
    (b.reread (b.header file)).bind (·.arcFlags (b.header file)) = some v
  hasEnd : b.setsEnd = true →
    (vint (b.header file) b.bodyStart).map Prod.fst = some tEndarc

/-- The unbounded reads end inside of the header: the type of an end block,
and archive flags that mark something. -/
structure ReadsInside (b : Block) (file : Bytes) : Prop where
  type : b.fields.htype = tEndarc → ∀ t q, vint file b.bodyStart = some (t, q) → q ≤ b.bodyEnd
  arcFlags : b.fields.htype = tMain → ∀ v q, vint file b.cursor = some (v, q) → Marks v →
    q ≤ b.bodyEnd

end Block

section Sound

variable {file : Bytes} {p : ℕ} {b : Block} (hread : readBlock file p = some (some b))

include hread

theorem reread_header_iff {c : Block} :
    b.reread (b.header file) = some c ↔ c = b ∧ b.cursor ≤ b.bodyEnd := by
  obtain ⟨hs, he, -⟩ := readBlock_bounds hread
  obtain ⟨-, -, -, -, -, -, -, -, hfields⟩ := readBlock_eq_some hread
  rw [Block.reread, Block.header, Option.map_eq_some_iff]
  constructor
  · rintro ⟨⟨f, q⟩, hf, rfl⟩
    obtain ⟨hf, hq⟩ := (blockFields_framed.window_iff hs he).mp hf
    rw [hfields] at hf
    cases hf
    exact ⟨rfl, hq⟩
  · rintro ⟨rfl, hq⟩
    exact ⟨_, (blockFields_framed.window_iff hs he).mpr ⟨hfields, hq⟩, rfl⟩

theorem bodyStart_le_cursor : b.bodyStart ≤ b.cursor := by
  obtain ⟨-, -, -, -, -, -, -, -, hfields⟩ := readBlock_eq_some hread
  exact blockFields_framed.le hfields

/-- The bound on the end of the name bounds every cursor before it. -/
theorem parseFileHeader_header {e : FileEntry}
    (h : parseFileHeader file b.cursor b.bodyEnd = some e) :
    b.cursor ≤ b.bodyEnd ∧ parseFileHeader (b.header file) b.cursor b.bodyEnd = some e := by
  obtain ⟨hs, -, hle⟩ := readBlock_bounds hread
  have hcursor := bodyStart_le_cursor hread
  simp only [parseFileHeader, Option.bind_eq_bind, Option.bind_eq_some_iff] at h
  obtain ⟨⟨f, q⟩, hf, stop, hstop, h⟩ := h
  split at h
  · cases h
  · rename_i hbound
    obtain ⟨name, hname, h⟩ := Option.bind_eq_some_iff.mp h
    have hq := headerFields_framed.le hf
    have hstop' := checkedAdd_eq_some.mp hstop
    have hf' : headerFields (b.header file) b.cursor = some (f, q) :=
      (headerFields_framed.window_iff (hs.trans hcursor) (by omega)).mpr ⟨hf, by omega⟩
    have hname' : slice? (b.header file) q stop = some name := by
      rw [Block.header, slice?_window file (by omega) (not_lt.mp hbound) hle, hname]
    refine ⟨by omega, ?_⟩
    simp only [parseFileHeader, hf', Option.bind_eq_bind, Option.bind_some, hstop, if_neg hbound,
      hname']
    exact h

theorem fromHeader_entry {e : FileEntry} (h : b.entry file = some e) :
    (b.reread (b.header file)).bind (·.entry (b.header file)) = some e := by
  rw [Block.entry] at h
  split at h
  · rename_i htype
    obtain ⟨e', he', hfill⟩ := Option.map_eq_some_iff.mp h
    obtain ⟨hcursor, hheader⟩ := parseFileHeader_header hread he'
    rw [(reread_header_iff hread).mpr ⟨rfl, hcursor⟩, Option.bind_some, Block.entry, if_pos htype,
      hheader, Option.map_some, hfill]
  · cases h

theorem fromHeader_service {name : Text} (h : b.service file = some name) :
    (b.reread (b.header file)).bind (·.service (b.header file)) = some name := by
  rw [Block.service] at h
  split at h
  · rename_i htype
    obtain ⟨e', he', hfill⟩ := Option.map_eq_some_iff.mp h
    obtain ⟨hcursor, hheader⟩ := parseFileHeader_header hread he'
    rw [(reread_header_iff hread).mpr ⟨rfl, hcursor⟩, Option.bind_some, Block.service, if_pos htype,
      hheader, Option.map_some, hfill]
  · cases h

theorem fromHeader_iff : b.FromHeader file ↔ b.ReadsInside file := by
  obtain ⟨hs, he, -⟩ := readBlock_bounds hread
  have hcursor := bodyStart_le_cursor hread
  constructor
  · intro h
    constructor
    · intro htype t q hq
      have hend := h.hasEnd (beq_iff_eq.mpr htype)
      obtain ⟨⟨t', q'⟩, hq', -⟩ := Option.map_eq_some_iff.mp hend
      obtain ⟨hq', hle⟩ := (vint_framed.window_iff hs he).mp hq'
      rw [hq] at hq'
      cases hq'
      exact hle
    · intro htype v q hq hmarks
      have hflags : b.arcFlags file = some v := by
        rw [Block.arcFlags, if_pos htype, hq]
        rfl
      obtain ⟨c, hc, hv⟩ := Option.bind_eq_some_iff.mp (h.arcFlags v hflags hmarks)
      obtain ⟨rfl, hle⟩ := (reread_header_iff hread).mp hc
      rw [Block.arcFlags, if_pos htype] at hv
      obtain ⟨⟨v', q'⟩, hq', -⟩ := Option.map_eq_some_iff.mp hv
      obtain ⟨hq', hle'⟩ := (vint_framed.window_iff (hs.trans hcursor) hle).mp hq'
      rw [hq] at hq'
      cases hq'
      exact hle'
  · intro h
    constructor
    · intro e hentry
      exact fromHeader_entry hread hentry
    · intro name hservice
      exact fromHeader_service hread hservice
    · intro v hflags hmarks
      rw [Block.arcFlags] at hflags
      split at hflags
      · rename_i htype
        obtain ⟨⟨v', q⟩, hq, rfl⟩ := Option.map_eq_some_iff.mp hflags
        have hle := h.arcFlags htype v' q hq hmarks
        have hinside := (vint_framed.le hq).trans hle
        rw [(reread_header_iff hread).mpr ⟨rfl, hinside⟩, Option.bind_some, Block.arcFlags,
          if_pos htype, Block.header,
          (vint_framed.window_iff (hs.trans hcursor) hinside).mpr ⟨hq, hle⟩]
        rfl
      · cases hflags
    · intro hend
      obtain ⟨-, -, -, -, -, -, -, -, hfields⟩ := readBlock_eq_some hread
      have htype : b.fields.htype = tEndarc := beq_iff_eq.mp hend
      simp only [blockFields, Option.bind_eq_bind, Option.bind_eq_some_iff] at hfields
      obtain ⟨⟨t, q⟩, hq, _, -, _, -, _, -, hsame⟩ := hfields
      simp only [Option.some.injEq, Prod.mk.injEq] at hsame
      rw [Block.header, (vint_framed.window_iff hs he).mpr ⟨hq, h.type htype t q hq⟩, ← htype,
        ← hsame.1]
      rfl

end Sound

/-- Every block the walk enters into the inventory proves its facts by its header alone. -/
def FactsFromHeaders (file : Bytes) : Prop :=
  (∀ inv, readInventory file = some inv → inv.facts = factsOf file (blockStarts file)) ∧
    ∀ p ∈ blockStarts file, ∀ b, readBlock file p = some (some b) → b.crcOk = true →
      b.FromHeader file

/-- The facts come from verified bytes exactly when the unbounded reads stay inside. -/
theorem factsFromHeaders_iff (file : Bytes) :
    FactsFromHeaders file ↔ ∀ p ∈ blockStarts file, ∀ b, readBlock file p = some (some b) →
      b.crcOk = true → b.ReadsInside file := by
  constructor
  · rintro ⟨-, h⟩ p hp b hread hcrc
    exact (fromHeader_iff hread).mp (h p hp b hread hcrc)
  · intro h
    refine ⟨fun inv hinv ↦ readInventory_facts hinv, ?_⟩
    intro p hp b hread hcrc
    exact (fromHeader_iff hread).mpr (h p hp b hread hcrc)

/-- A main block whose header ends before its archive flags, and one byte more. -/
def strayFlags : Bytes := signature5 ++ block (putVint tMain ++ putVint 0) [] ++ [8]

def strayFlagsMain : Block := ⟨8, 12, 13, 15, true, ⟨tMain, 0, 0, 0⟩, 15⟩

/-- The recovery record is reported from a byte that no checksum covers. -/
theorem strayFlags_not_fromHeaders :
    (readInventory strayFlags).any (·.hasRecoveryRecord) = true ∧ ¬FactsFromHeaders strayFlags := by
  refine ⟨by decide +kernel, ?_⟩
  rintro ⟨-, h⟩
  have hread : readBlock strayFlags 8 = some (some strayFlagsMain) := by decide +kernel
  have hflags : strayFlagsMain.arcFlags strayFlags = some 8 := by decide +kernel
  have hheader : (strayFlagsMain.reread (strayFlagsMain.header strayFlags)).bind
      (·.arcFlags (strayFlagsMain.header strayFlags)) = none := by decide +kernel
  have hfrom := h 8 (by decide +kernel) strayFlagsMain hread rfl
  have hfound := hfrom.arcFlags 8 hflags (Or.inl (by decide))
  rw [hheader] at hfound
  cases hfound

end VeraqisRecover.Rar
