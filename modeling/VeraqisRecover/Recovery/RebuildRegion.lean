import VeraqisRecover.Recovery.RebuildShape
import VeraqisRecover.Zip.Directoryless
import VeraqisRecover.Zip.IndexLookup
import VeraqisRecover.Zip.Locality
import VeraqisRecover.Zip.Spelling

/-!
# How a rebuilt file reads

The rebuilt file keeps the data region, up to the end of the last walked member,
and carries a directory of the walked headers behind it.  The reader adopts that
directory unless an archive embedded in the region claims a comment that runs
over the region's end.  Then the directory counts as the embedded archive's, and
the walked headers are read once more by the scan, without those that an embedded
archive owns.
-/

namespace VeraqisRecover.Recovery

open ByteString LossyUtf8 Zip

variable {fl : Flate2} {source : Bytes}

/-- The rebuilt file as a prefix with a written directory. -/
def rebuiltHost (source : Bytes) : Zip.Host :=
  let headers := scanLocalHeaders source
  ⟨source.take (dataEnd source headers), headers.map (·.dirRecord), headers.length,
    dataEnd source headers⟩

/-- The header's name, replaced as the reader replaces it, is the name of no header but itself. -/
def LocalHeader.Unmistaken (source : Bytes) (h : LocalHeader) : Prop :=
  asBytes (fromUtf8Lossy h.name) = h.name ∨
    ∀ o, o + 4 ≤ dataEnd source (scanLocalHeaders source) → u32le source o = some lfhSig →
      o + 30 + (asBytes (fromUtf8Lossy h.name)).length ≤ dataEnd source (scanLocalHeaders source) ∧
        headerNamedAt source o (asBytes (fromUtf8Lossy h.name)) = false

/-- The walked headers and the data region fit the format's fields and the reader's limits, and
no record signature is spelled where another record's bytes will stand. -/
structure RegionFits (source : Bytes) : Prop where
  dataEnd_lt : dataEnd source (scanLocalHeaders source) < 2 ^ 32
  count : (scanLocalHeaders source).length < 65536
  names : nameBytes ((scanLocalHeaders source).map (·.dirRecord)) ≤ 64 * 1024 * 1024
  shared : ∀ h ∈ scanLocalHeaders source, Unspelled h.dirRecord.shared
  placed : ∀ h ∈ scanLocalHeaders source, Unspelled (le32 h.lfhOffset ++ h.name)
  uncut : ∀ p, p + 4 ≤ dataEnd source (scanLocalHeaders source) →
    u32le source p = some eocdSig → p + 22 ≤ dataEnd source (scanLocalHeaders source)
  unmistaken : ∀ h ∈ scanLocalHeaders source, h.Unmistaken source

theorem dataEnd_le (data : Bytes) (headers : List LocalHeader) :
    dataEnd data headers ≤ data.length := min_le_right _ _

theorem start_rebuilt (source : Bytes) :
    (rebuiltHost source).start = dataEnd source (scanLocalHeaders source) := by
  simp only [Zip.Host.start, rebuiltHost, List.length_take, min_eq_left (dataEnd_le _ _)]

/-! ## One walked header, before and after -/

/-- A walked header lies inside the data region. -/
theorem stop_le_dataEnd {h : LocalHeader} (hh : h ∈ scanLocalHeaders source) :
    h.stop ≤ dataEnd source (scanLocalHeaders source) :=
  ((scanLocalHeaders_tiles source).1.bounds.2 h.range (List.mem_map_of_mem hh)).2.2

/-- The name and the extra field lie between a walked header and its payload. -/
theorem LocalHeader.Parsed.lengths {h : LocalHeader} (hp : h.Parsed source)
    (hlen : h.lfhOffset + 30 ≤ source.length) : ∃ nameLen extraLen,
      u16le source (h.lfhOffset + 26) = some nameLen ∧
      u16le source (h.lfhOffset + 28) = some extraLen ∧
      h.dataOffset = h.lfhOffset + 30 + nameLen + extraLen := by
  have hdata := hp.dataOffset
  obtain ⟨nameLen, hname⟩ := u16le_isSome (d := source) (o := h.lfhOffset + 26) (by omega)
  obtain ⟨extraLen, hextra⟩ := u16le_isSome (d := source) (o := h.lfhOffset + 28) (by omega)
  rw [hname, hextra, Option.getD_some, Option.getD_some] at hdata
  exact ⟨nameLen, extraLen, hname, hextra, hdata⟩

/-- What a file that keeps a walked header reads there. -/
theorem LocalHeader.Parsed.payloadStart {d : Bytes} {h : LocalHeader} (hp : h.Parsed source)
    (hsame : SamePrefix h.stop source d) (hd : d.length ≤ wordMax) :
    payloadStart d h.lfhOffset = some h.dataOffset := by
  have hle := hp.le_stop
  have hleft := hsame.left
  have hright := hsame.right
  obtain ⟨nameLen, extraLen, hname, hextra, hdata⟩ := hp.lengths (by omega)
  have hstop : h.dataOffset ≤ h.stop := Nat.le_add_right _ _
  simp only [Zip.payloadStart, ← hsame.u16le_eq (o := h.lfhOffset + 26) (by omega),
    ← hsame.u16le_eq (o := h.lfhOffset + 28) (by omega), hname, hextra, Option.bind_eq_bind]
  rw [checkedAdd_of_le (by omega), Option.bind_some, if_neg (by omega), Option.bind_some,
    Option.bind_some, checkedAdd_of_le (by omega), Option.bind_some, checkedAdd_of_le (by omega),
    hdata]

theorem LocalHeader.Parsed.payloadRange {d : Bytes} {h : LocalHeader} (hp : h.Parsed source)
    (hsame : SamePrefix h.stop source d) (hd : d.length ≤ wordMax) :
    payloadRange d h.dirRecord.entry = some h.range := by
  have hright := hsame.right
  have hstop : h.dataOffset + h.compSize = h.stop := rfl
  simp only [Zip.payloadRange, DirRecord.entry, LocalHeader.dirRecord,
    hp.payloadStart hsame hd, Option.bind_eq_bind, Option.bind_some]
  rw [checkedAdd_of_le (by omega), Option.bind_some, if_neg (by omega), hstop]
  rfl

theorem LocalHeader.Parsed.present {d : Bytes} {h : LocalHeader} (hp : h.Parsed source)
    (hsame : SamePrefix h.stop source d) (hd : d.length ≤ wordMax) :
    localHeaderPresent d h.lfhOffset = true := by
  have hle := hp.le_stop
  have hright := hsame.right
  rw [localHeaderPresent, checkedAdd_of_le (by omega), ← hsame.u32le_eq (by omega), hp.sig]
  simp only [Option.any_some, decide_true, Bool.and_true, decide_eq_true_eq]
  omega

/-- Every entry at the header's offset with the header's size is led to the same bytes in both
files. -/
theorem LocalHeader.Parsed.compressedBytes {d : Bytes} {h : LocalHeader} (hp : h.Parsed source)
    (hsame : SamePrefix h.stop source d) {e : ZipEntry}
    (hoffset : e.localHeaderOffset = h.lfhOffset) (hsize : e.compSize = h.compSize) :
    compressedBytes d e = compressedBytes source e := by
  have hle := hp.le_stop
  have hleft := hsame.left
  obtain ⟨nameLen, extraLen, hname, hextra, hdata⟩ := hp.lengths (by omega)
  have hstop : h.stop = h.dataOffset + h.compSize := rfl
  simp only [Zip.compressedBytes, hoffset, hsize,
    ← hsame.u32le_eq (o := h.lfhOffset) (by omega),
    ← hsame.u16le_eq (o := h.lfhOffset + 26) (by omega),
    ← hsame.u16le_eq (o := h.lfhOffset + 28) (by omega), hname, hextra, ← hdata]
  cases hadd : checkedAdd h.dataOffset h.compSize with
  | none => rfl
  | some dataEnd =>
      obtain ⟨-, rfl⟩ := checkedAdd_eq_some.mp hadd
      dsimp only
      rw [hsame.slice?_eq (le_of_eq hstop.symm)]

/-- The size field of a header that parses. -/
theorem LocalHeader.compSize_of_parse {data : Bytes} {pos : ℕ} {h : LocalHeader}
    (hp : LocalHeader.parse data pos = some h) : (u32le data (pos + 18)).getD 0 = h.compSize := by
  unfold LocalHeader.parse at hp
  simp only [Option.ite_none_left_eq_some, Option.some.injEq] at hp
  obtain ⟨-, -, -, -, rfl⟩ := hp
  rfl

theorem nameBytes_dirRecord (headers : List LocalHeader) :
    nameBytes (headers.map (·.dirRecord)) = (headers.map (·.name.length)).sum := by
  rw [nameBytes, List.map_map]
  rfl

theorem length_directory (source : Bytes) :
    (dirBytes (rebuiltHost source).rs).length = 46 * (scanLocalHeaders source).length +
      ((scanLocalHeaders source).map (·.name.length)).sum := by
  rw [length_dirBytes, rebuiltHost, nameBytes_dirRecord, List.length_map]

theorem eocd_rebuilt (source : Bytes) :
    (rebuiltHost source).eocd = dataEnd source (scanLocalHeaders source) +
      (46 * (scanLocalHeaders source).length +
        ((scanLocalHeaders source).map (·.name.length)).sum) := by
  rw [← length_directory, ← start_rebuilt]
  rfl

namespace RegionFits

theorem size_lt (hf : RegionFits source) : (dirBytes (rebuiltHost source).rs).length < 2 ^ 27 := by
  have hcount := hf.count
  have hnames := hf.names
  rw [nameBytes_dirRecord] at hnames
  rw [length_directory]
  omega

theorem word (hf : RegionFits source) : (rebuiltHost source).data.length ≤ wordMax := by
  have hend := hf.dataEnd_lt
  have hsize := hf.size_lt
  rw [length_directory] at hsize
  rw [Zip.Host.length_data, eocd_rebuilt]
  unfold wordMax
  omega

theorem fits_dirRecord (hf : RegionFits source) {h : LocalHeader}
    (hh : h ∈ scanLocalHeaders source) : h.dirRecord.Fits := by
  have hp := (scanLocalHeaders_tiles source).2 h hh
  have hle := hp.le_stop
  have hstop := stop_le_dataEnd hh
  have hend := hf.dataEnd_lt
  exact hp.fits (by omega)

theorem valid (hf : RegionFits source) (hne : scanLocalHeaders source ≠ []) :
    (rebuiltHost source).Valid where
  nonempty := by simpa [rebuiltHost] using hne
  fits := by
    intro r hr
    obtain ⟨h, hh, rfl⟩ := List.mem_map.mp hr
    exact hf.fits_dirRecord hh
  count := hf.count
  cdOffset := hf.dataEnd_lt
  size := lt_trans hf.size_lt (by decide)
  word := hf.word

theorem admits (hf : RegionFits source) : Admits .default (rebuiltHost source).rs where
  records := by
    have hcount := hf.count
    simp only [rebuiltHost, List.length_map]
    exact le_trans (le_of_lt hcount) (by decide)
  bytes := le_trans (le_of_lt hf.size_lt) (by decide)
  metadata := hf.names
  names := by
    intro r hr
    obtain ⟨h, hh, rfl⟩ := List.mem_map.mp hr
    exact Nat.le_of_lt_succ (hf.fits_dirRecord hh).name

end RegionFits

end VeraqisRecover.Recovery
