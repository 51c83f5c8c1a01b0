import VeraqisRecover.Zip.Directory

/-!
# Files that end in a written directory

A host is any prefix followed by a written directory and its EOCD.  The EOCD
search lands on that EOCD; when the located start is the directory's own and no
embedded archive owns it, the reader adopts exactly the written records.
-/

namespace VeraqisRecover.Zip

open ByteString LossyUtf8

/-- A prefix, the directory records after it, and what the EOCD declares about their number and
their offset. -/
structure Host where
  pre : Bytes
  rs : List DirRecord
  count : ℕ
  cdOffset : ℕ

namespace Host

variable (H : Host)

def data : Bytes := H.pre ++ dirBytes H.rs ++ endRecord H.count (dirBytes H.rs).length H.cdOffset

/-- Where the directory really starts. -/
def start : ℕ := H.pre.length

/-- Where the EOCD stands. -/
def eocd : ℕ := H.pre.length + (dirBytes H.rs).length

@[simp] theorem length_endRecord (count size offset : ℕ) :
    (endRecord count size offset).length = 22 := rfl

theorem length_data : H.data.length = H.eocd + 22 := by
  simp only [data, eocd, List.length_append, length_endRecord]

/-- The record fields fit and the file is addressable. -/
structure Valid (H : Host) : Prop where
  nonempty : H.rs ≠ []
  fits : ∀ r ∈ H.rs, r.Fits
  count : H.count < 2 ^ 16
  cdOffset : H.cdOffset < 2 ^ 32
  size : (dirBytes H.rs).length < 2 ^ 32
  word : H.data.length ≤ wordMax

variable {H}

theorem at_dirBytes : At H.data H.start (dirBytes H.rs) := by
  unfold data
  exact (At.self_append _ _).extend _

theorem at_endRecord :
    At H.data H.eocd (endRecord H.count (dirBytes H.rs).length H.cdOffset) := by
  have h := At.self_append (H.pre ++ dirBytes H.rs)
    (endRecord H.count (dirBytes H.rs).length H.cdOffset)
  rwa [List.length_append] at h

/-- The EOCD's fields, read back. -/
theorem eocd_fields (hv : H.Valid) :
    u32le H.data H.eocd = some eocdSig ∧ u16le H.data (H.eocd + 10) = some H.count ∧
      u32le H.data (H.eocd + 12) = some (dirBytes H.rs).length ∧
      u32le H.data (H.eocd + 16) = some H.cdOffset ∧ u16le H.data (H.eocd + 20) = some 0 := by
  have h := H.at_endRecord
  simp only [endRecord, List.append_assoc, At.le16_append_iff, At.le32_append_iff] at h
  obtain ⟨h₀, -, -, -, h₁₀, h₁₂, h₁₆, h₂₀⟩ := h
  exact ⟨h₀.u32le_le32 (by decide), h₁₀.u16le_le16 hv.count, h₁₂.u32le_le32 hv.size,
    h₁₆.u32le_le32 hv.cdOffset, h₂₀.u16le_le16 (by decide)⟩

theorem findEocdFrom_self {data : Bytes} {scanStart i : ℕ} (h : u32le data i = some eocdSig) :
    findEocdFrom data scanStart i = some i := by
  cases i <;> simp [findEocdFrom, h]

theorem findEocd_data (hv : H.Valid) : findEocd H.data = some H.eocd := by
  have hlen := H.length_data
  unfold findEocd
  rw [if_neg (by omega), show H.data.length - 22 = H.eocd by omega]
  exact findEocdFrom_self (H.eocd_fields hv).1

/-- The directory's own start carries a record. -/
theorem cdfhAt_start (hv : H.Valid) : cdfhAt H.data H.start = true := by
  obtain ⟨r, rs, hrs⟩ := List.exists_cons_of_ne_nil hv.nonempty
  have h := H.at_dirBytes
  rw [hrs, dirBytes_cons] at h
  have hr := (At.append_iff.mp h).1
  have hread := DirRecord.readAt hr (hv.fits r (by simp [hrs]))
  have hle := le_length_of_u32le hread.sig
  simp [cdfhAt, hread.sig, hle]

/-- Where the reader takes the directory to start, by declared offset or by size. -/
theorem directoryStart_data (hv : H.Valid) :
    (directoryStart H.data H.eocd (dirBytes H.rs).length H.cdOffset).cdStart =
      if cdfhAt H.data H.cdOffset = true then H.cdOffset else H.start := by
  have hsub : checkedSub H.eocd (dirBytes H.rs).length = some H.start := by
    rw [checkedSub_of_le (by unfold eocd; omega)]
    simp [eocd, start]
  unfold directoryStart
  split
  · rfl
  · rw [hsub]
    dsimp only
    rw [if_pos (H.cdfhAt_start hv)]

/-- The slice the reader walks is the directory itself. -/
theorem slice_directory (hv : H.Valid) :
    min (saturatingAdd H.start (dirBytes H.rs).length) H.data.length = H.eocd ∧
      slice H.data H.start H.eocd = dirBytes H.rs := by
  have hlen := H.length_data
  have hword := hv.word
  constructor
  · rw [saturatingAdd_of_le (by unfold start; unfold eocd at hlen; omega)]
    unfold start eocd at *
    omega
  · unfold slice data start eocd
    rw [List.append_assoc, List.drop_left, Nat.add_sub_cancel_left, List.take_left]

/-- What a reader that adopted the written directory has: its records, and nothing else yet. -/
structure Adopted (H : Host) (st : ParseState) : Prop where
  entries : st.out.entries = H.rs.map DirRecord.entry
  cdFound : st.out.cdFound = true
  declaredCount : st.declaredCount = some H.count
  cdRegionStart : st.cdRegionStart = some H.start
  scanOnly : st.out.scanOnlyEntries = 0
  conflicts : st.out.conflicts = []
  rejected : st.out.rejectedCandidates = []

/-- The directory is adopted when the located start is its own and is not owned. -/
theorem followEocd_adopts {policy : ZipRecoveryPolicy} {containers : ContainerOwnershipMap}
    (hv : H.Valid) (hadm : Admits policy H.rs)
    (hstart : cdfhAt H.data H.cdOffset = true → H.cdOffset = H.start)
    (hown : (containers.ownerOf H.start).isSome = false) :
    H.Adopted (followEocd H.data policy containers) := by
  have hlen := H.length_data
  have hword := hv.word
  obtain ⟨-, htotal, hsize, hoffset, -⟩ := H.eocd_fields hv
  obtain ⟨hend, hslice⟩ := H.slice_directory hv
  have hdir : (directoryStart H.data H.eocd (dirBytes H.rs).length H.cdOffset).cdStart =
      H.start := by
    rw [directoryStart_data hv]
    split
    · exact hstart ‹_›
    · rfl
  have hloc : (locateDirectory H.data containers H.eocd (dirBytes H.rs).length
      H.cdOffset).cdStart = H.start := by
    unfold locateDirectory
    dsimp only
    rw [hdir, if_neg (by simp [hown]), hdir]
  have hpos : H.start < H.eocd := by
    obtain ⟨r, rs, hrs⟩ := List.exists_cons_of_ne_nil hv.nonempty
    have hcons : (dirBytes H.rs).length = 46 + r.name.length + (dirBytes rs).length := by
      rw [hrs, dirBytes_cons, List.length_append, DirRecord.length_bytes]
    unfold start eocd
    omega
  have hparse := parseCentralDirectoryBounded_dirBytes H.count hv.fits hadm
    (by unfold eocd at hlen; omega)
  have hne : H.rs.map DirRecord.entry ≠ [] := by simp [hv.nonempty]
  unfold followEocd
  simp only [findEocd_data hv, htotal, hsize, hoffset, hloc, hend, hslice, hparse]
  rw [if_pos ⟨by omega, hpos⟩, if_neg hne]
  exact ⟨rfl, rfl, rfl, rfl, rfl, rfl, rfl⟩

/-- A declared offset inside the directory makes the reader start there. -/
theorem followEocd_within {policy : ZipRecoveryPolicy} (containers : ContainerOwnershipMap)
    {before rest : List DirRecord} {r : DirRecord} (hv : H.Valid) (hadm : Admits policy H.rs)
    (hroom : (dirBytes H.rs).length + 22 ≤ policy.maxCentralBytes)
    (hrs : H.rs = before ++ r :: rest) (hbefore : before ≠ [])
    (hoff : H.cdOffset = H.start + (dirBytes before).length)
    (hown : (containers.ownerOf H.cdOffset).isSome = false) :
    (followEocd H.data policy containers).out.entries = (r :: rest).map DirRecord.entry := by
  have hlen := H.length_data
  have hword := hv.word
  have hsmall := hv.cdOffset
  have hsz := hv.size
  obtain ⟨-, htotal, hsize, hoffset, -⟩ := H.eocd_fields hv
  have hsplit : dirBytes H.rs = dirBytes before ++ dirBytes (r :: rest) := by
    rw [hrs, dirBytes_append]
  have hsum := congrArg List.length hsplit
  rw [List.length_append] at hsum
  have hpos : 46 ≤ (dirBytes before).length := by
    rw [length_dirBytes]
    have := List.length_pos_of_ne_nil hbefore
    omega
  have hat : At H.data H.cdOffset (dirBytes (r :: rest)) := by
    have h := H.at_dirBytes
    rw [hsplit, At.append_iff, ← hoff] at h
    exact h.2
  have hread := DirRecord.readAt (At.append_iff.mp (dirBytes_cons r rest ▸ hat)).1
    (hv.fits r (by simp [hrs]))
  have hcdfh : cdfhAt H.data H.cdOffset = true := by
    have hle := le_length_of_u32le hread.sig
    simp [cdfhAt, hread.sig, hle]
  have hdir : (directoryStart H.data H.eocd (dirBytes H.rs).length H.cdOffset).cdStart =
      H.cdOffset := by
    rw [directoryStart_data hv, if_pos hcdfh]
  have hloc : (locateDirectory H.data containers H.eocd (dirBytes H.rs).length
      H.cdOffset).cdStart = H.cdOffset := by
    unfold locateDirectory
    dsimp only
    rw [hdir, if_neg (by simp [hown]), hdir]
  have hend : min (saturatingAdd H.cdOffset (dirBytes H.rs).length) H.data.length =
      H.data.length := by
    rw [saturatingAdd_of_le (by unfold wordMax; omega)]
    unfold start eocd at *
    omega
  have hslice : slice H.data H.cdOffset H.data.length =
      dirBytes (r :: rest) ++ endRecord H.count (dirBytes H.rs).length H.cdOffset := by
    have hpre : (H.pre ++ dirBytes before).length = H.cdOffset := by
      rw [List.length_append, hoff]
      rfl
    have hdata : H.data = (H.pre ++ dirBytes before) ++
        (dirBytes (r :: rest) ++ endRecord H.count (dirBytes H.rs).length H.cdOffset) := by
      rw [data, hsplit]
      simp only [List.append_assoc]
    unfold slice
    rw [List.take_of_length_le (by rw [List.length_drop])]
    conv_lhs => rw [hdata]
    exact List.drop_left' hpre
  have hsub : ∀ r' ∈ r :: rest, r' ∈ H.rs := fun r' hr' ↦ by
    rw [hrs]
    exact List.mem_append_right _ hr'
  have hadm' : Admits policy (r :: rest) := by
    have hr := hadm.records
    have hm := hadm.metadata
    rw [hrs, List.length_append] at hr
    rw [hrs, nameBytes, List.map_append, List.sum_append] at hm
    exact ⟨by omega, by omega, by unfold nameBytes; omega, fun r' hr' ↦ hadm.names r' (hsub r' hr')⟩
  have hparse := parseCentralDirectoryBounded_append
    (endRecord H.count (dirBytes H.rs).length H.cdOffset) H.count
    (fun r' hr' ↦ hv.fits r' (hsub r' hr')) hadm'
    (by rw [List.length_append, length_endRecord]; omega)
    (by rw [List.length_append, length_endRecord]; unfold eocd at hlen; omega)
    (by rw [length_endRecord]; omega)
  unfold followEocd
  simp only [findEocd_data hv, htotal, hsize, hoffset, hloc, hend, hslice, hparse]
  have hcons : 46 ≤ (dirBytes (r :: rest)).length := by
    rw [length_dirBytes, List.length_cons]
    omega
  rw [if_pos (by unfold start eocd at *; omega), if_neg (by simp)]

end Host

end VeraqisRecover.Zip
