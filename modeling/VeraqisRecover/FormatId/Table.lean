import VeraqisRecover.Support.LongestMatch
import VeraqisRecover.Support.LossyUtf8

/-!
# What a file is, and what its name claims

The shared table of `phx_format_id`.  `identify` reads only bytes, from a head and a tail,
and `fromExtension` reads only the name; the two answers are never merged.
-/

namespace VeraqisRecover.FormatId

open ByteString LossyUtf8

/-- A container or stream format this project can name. -/
inductive Format
  | zip | tar | iso9660 | gzip | sqlite | sevenZ | rar | pdf | bzip2 | xz | zstd | lz4
  | cab | wim | qcow2 | vhd | vhdx | vmdk | dmg | acronisTib | macriumX
  deriving DecidableEq, Repr

namespace Format

def asStr : Format → String
  | zip => "zip"
  | tar => "tar"
  | iso9660 => "iso9660"
  | gzip => "gzip"
  | sqlite => "sqlite"
  | sevenZ => "7z"
  | rar => "rar"
  | pdf => "pdf"
  | bzip2 => "bzip2"
  | xz => "xz"
  | zstd => "zstd"
  | lz4 => "lz4"
  | cab => "cab"
  | wim => "wim"
  | qcow2 => "qcow2"
  | vhd => "vhd"
  | vhdx => "vhdx"
  | vmdk => "vmdk"
  | dmg => "dmg"
  | acronisTib => "acronis_tib"
  | macriumX => "macrium_x"

theorem asStr_injective : Function.Injective asStr := by
  intro f g h
  cases f <;> cases g <;> first | rfl | exact absurd h (by decide)

/-- File extensions conventionally used for this format, lowercase, with the dot. -/
def extensions : Format → List Text
  | zip => [".zip".toList, ".jar".toList, ".apk".toList, ".docx".toList, ".xlsx".toList,
      ".pptx".toList, ".epub".toList, ".odt".toList, ".ods".toList]
  | tar => [".tar".toList]
  | iso9660 => [".iso".toList]
  | gzip => [".gz".toList, ".tgz".toList]
  | sqlite => [".db".toList, ".sqlite".toList, ".sqlite3".toList]
  | sevenZ => [".7z".toList]
  | rar => [".rar".toList]
  | pdf => [".pdf".toList]
  | bzip2 => [".bz2".toList]
  | xz => [".xz".toList]
  | zstd => [".zst".toList, ".zstd".toList]
  | lz4 => [".lz4".toList]
  | cab => [".cab".toList]
  | wim => [".wim".toList]
  | qcow2 => [".qcow2".toList, ".qcow".toList]
  | vhd => [".vhd".toList]
  | vhdx => [".vhdx".toList, ".avhdx".toList]
  | vmdk => [".vmdk".toList]
  | dmg => [".dmg".toList]
  | acronisTib => [".tib".toList]
  | macriumX => [".mrimgx".toList, ".mrbakx".toList]

end Format

/-- Where a magic sits: so many bytes after the start, or before the end, of the file. -/
inductive Anchor
  | start (offset : ℕ)
  | fromEnd (back : ℕ)
  deriving DecidableEq, Repr

/-- How this project came to believe a signature. -/
inductive Provenance
  | measured (specimen : String)
  | documented (source : String) (caveat : Option String)
  deriving DecidableEq, Repr

/-- One magic-byte rule. -/
structure Signature where
  format : Format
  anchor : Anchor
  magic : Bytes
  minLen : ℕ
  provenance : Provenance
  deriving DecidableEq, Repr

/-- The bytes of an ASCII literal. -/
def ascii (s : String) : Bytes := s.toList.map fun c ↦ UInt8.ofNat c.toNat

/-- The rules at the first byte, read off real files. -/
def measuredOpenings : List Signature := [
  ⟨.zip, .start 0, ascii "PK" ++ [0x03], 4,
    .measured "the project's own ZIP corpus (2268 files)"⟩,
  ⟨.zip, .start 0, ascii "PK" ++ [0x05], 4,
    .measured "the project's own ZIP corpus (2268 files)"⟩,
  ⟨.zip, .start 0, ascii "PK" ++ [0x07], 4,
    .measured "the project's own ZIP corpus (2268 files)"⟩,
  ⟨.gzip, .start 0, [0x1F, 0x8B], 2, .measured "engine corpus, gzip members"⟩,
  ⟨.sqlite, .start 0, ascii "SQLite format 3" ++ [0], 16,
    .measured "engine corpus, sqlite databases"⟩,
  ⟨.pdf, .start 0, ascii "%PDF-", 5, .measured "engine corpus, pdf documents"⟩,
  ⟨.bzip2, .start 0, ascii "BZh", 3, .measured "engine corpus, bzip2 streams"⟩,
  ⟨.xz, .start 0, [0xFD] ++ ascii "7zXZ" ++ [0x00], 6, .measured "engine corpus, xz streams"⟩,
  ⟨.zstd, .start 0, [0x28, 0xB5, 0x2F, 0xFD], 4, .measured "engine corpus, zstd streams"⟩,
  ⟨.lz4, .start 0, [0x04, 0x22, 0x4D, 0x18], 4, .measured "engine corpus, lz4 streams"⟩,
  ⟨.sevenZ, .start 0, [0x37, 0x7A, 0xBC, 0xAF, 0x27, 0x1C], 6,
    .measured "engine corpus, 7-Zip archives"⟩,
  ⟨.rar, .start 0, [0x52, 0x61, 0x72, 0x21, 0x1A, 0x07], 7,
    .measured "engine corpus, RAR archives"⟩,
  ⟨.cab, .start 0, ascii "MSCF", 4, .measured "C:\\Windows\\Logs\\CBS\\CbsPersist_*.cab"⟩,
  ⟨.wim, .start 0, ascii "MSWIM" ++ [0, 0, 0], 8,
    .measured "C:\\Windows\\System32\\DrtmAuthTxt.wim"⟩,
  ⟨.qcow2, .start 0, [0x51, 0x46, 0x49, 0xFB], 4,
    .measured "~/.android/avd/*.avd/cache.img.qcow2"⟩]

/-- The rules at the first byte, taken from published documentation. -/
def documentedOpenings : List Signature := [
  ⟨.vhdx, .start 0, ascii "vhdxfile", 8, .documented
    ("Microsoft [MS-VHDX] §2.1 File Type Identifier; matches libyal/libvhdi and " ++
      "qemu block/vhdx.h") none⟩,
  ⟨.vhd, .start 0, ascii "conectix", 512, .documented
    ("Microsoft Virtual Hard Disk Image Format Specification — footer copy at the head of " ++
      "dynamic/differencing disks")
    (some "fixed-size VHDs have no header copy; they match the End(512) rule below")⟩,
  ⟨.vmdk, .start 0, ascii "KDMV", 512, .documented
    ("VMware sparse extent header magic 0x564D444B; matches libyal/libvmdk and " ++
      "qemu block/vmdk.c")
    (some ("monolithic-flat VMDKs are a plain-text descriptor plus a raw extent and carry " ++
      "no magic"))⟩,
  ⟨.acronisTib, .start 0, [0xCE, 0x24, 0xB9, 0xA2, 0x20, 0x00, 0x00, 0x00], 8, .documented
    "file(1) magic database submission, 2018-11 (Magdir/archive)"
    (some ("author verified True Image 2013 and 2019 only; older builds use a different " ++
      "stamp, and TIBX is a separate format"))⟩]

/-- The footer of a VHD. -/
def vhdFooter : Signature :=
  ⟨.vhd, .fromEnd 512, ascii "conectix", 512, .documented
    ("Microsoft Virtual Hard Disk Image Format Specification — the 512-byte footer every VHD " ++
      "ends with") none⟩

/-- The trailer of an Apple disk image. -/
def dmgTrailer : Signature :=
  ⟨.dmg, .fromEnd 512, ascii "koly", 512, .documented
    "UDIF trailer, 0x6B6F6C79; matches libyal/libmodi and qemu block/dmg.c"
    (some ("qemu searches a small window rather than a fixed offset, so an image with padding " ++
      "after the trailer will not match this rule"))⟩

/-- The footer of a Macrium image. -/
def macriumFooter : Signature :=
  ⟨.macriumX, .fromEnd 12, ascii "MACRIUM_FILE", 20, .documented
    ("macrium/mrimgx_file_layout, docs/FILE_LAYOUT.md: struct Footer \x7b uint64 " ++
      "first_metadata_block_header; uint8 magic_bytes[12]; \x7d")
    (some ("Reflect X (.mrimgx/.mrbakx) only; the legacy .mrimg format has no dependable " ++
      "signature"))⟩

/-- The stamp inside the first header block of a tar archive. -/
def ustarStamp : Signature :=
  ⟨.tar, .start 257, ascii "ustar", 263, .measured "engine corpus, tar archives"⟩

/-- The stamp inside the primary volume descriptor of a disc image. -/
def cd001Stamp : Signature :=
  ⟨.iso9660, .start 32769, ascii "CD001", 32775, .measured "engine corpus, ISO 9660 images"⟩

def openings : List Signature := measuredOpenings ++ documentedOpenings

/-- Every rule, in the order they are tried.  First match wins. -/
def SIGNATURES : List Signature :=
  openings ++ [vhdFooter, dmgTrailer, macriumFooter, ustarStamp, cd001Stamp]

/-- The shortest prefix that can decide every start-anchored rule. -/
def REQUIRED_PREFIX : ℕ := 32775

/-- The shortest suffix that can decide every end-anchored rule. -/
def REQUIRED_SUFFIX : ℕ := 512

/-- The bytes a rule can be tested against: a head, a tail, and how long the file is. -/
structure FileBytes where
  head : Bytes
  tail : Bytes
  totalLen : ℕ

namespace FileBytes

/-- For a file small enough to hold entirely. -/
def whole (all : Bytes) : FileBytes := ⟨all, all, all.length⟩

/-- The window a magic of this length would occupy under `anchor`. -/
def window (b : FileBytes) (anchor : Anchor) (len : ℕ) : Option Bytes :=
  match anchor with
  | .start offset => do
      let stop ← checkedAdd offset len
      slice? b.head offset stop
  | .fromEnd back =>
      if b.totalLen < back ∨ b.tail.length < back then none
      else do
        let offset ← checkedSub b.tail.length back
        let stop ← checkedAdd offset len
        slice? b.tail offset stop

end FileBytes

/-- The condition under which `identify_with_provenance` finds this rule. -/
def Signature.fires (s : Signature) (b : FileBytes) : Bool :=
  s.minLen ≤ b.totalLen && b.window s.anchor s.magic.length = some s.magic

def identifyWithProvenance (b : FileBytes) : Option (Format × Provenance) :=
  (SIGNATURES.find? (·.fires b)).map fun s ↦ (s.format, s.provenance)

def identify (b : FileBytes) : Option Format := (identifyWithProvenance b).map Prod.fst

theorem identify_eq (b : FileBytes) :
    identify b = (SIGNATURES.find? (·.fires b)).map Signature.format := by
  rw [identify, identifyWithProvenance, Option.map_map]
  rfl

/-! ## The name -/

/-- Every format, for iteration. -/
def FORMATS : List Format :=
  [.zip, .tar, .iso9660, .gzip, .sqlite, .sevenZ, .rar, .pdf, .bzip2, .xz, .zstd, .lz4, .cab,
    .wim, .qcow2, .vhd, .vhdx, .vmdk, .dmg, .acronisTib, .macriumX]

theorem mem_FORMATS (f : Format) : f ∈ FORMATS := by
  cases f <;> decide

def toAsciiLowercase (name : Text) : Text := name.map Char.toLower

/-- What the name claims.  The longest matching extension wins. -/
def fromExtension (name : Text) : Option Format :=
  let lower := toAsciiLowercase name
  let best := FORMATS.foldl (fun best f ↦ f.extensions.foldl (fun best ext ↦
    if ext.isSuffixOf lower && best.all (·.1 < ext.length) then some (ext.length, f) else best)
    best) (none : Option (ℕ × Format))
  best.map Prod.snd

/-- An extension is a dot and what follows the last dot of a name. -/
def IsExtension (ext : Text) : Prop := ∃ w, ext = '.' :: w ∧ '.' ∉ w

instance : DecidablePred IsExtension
  | [] => isFalse fun ⟨_, h, _⟩ ↦ List.cons_ne_nil _ _ h.symm
  | c :: w => decidable_of_iff (c = '.' ∧ '.' ∉ w) (by
      constructor
      · rintro ⟨rfl, hw⟩
        exact ⟨w, rfl, hw⟩
      · rintro ⟨_, h, hw⟩
        obtain ⟨rfl, rfl⟩ := List.cons.inj h
        exact ⟨rfl, hw⟩)

/-- A name ends in one extension only. -/
theorem IsExtension.eq_of_suffix {ext ext' t : Text} (h : IsExtension ext) (h' : IsExtension ext')
    (hs : ext <:+ t) (hs' : ext' <:+ t) : ext = ext' := by
  have hshort : ∀ {e e' : Text}, IsExtension e → IsExtension e' → e <:+ e' → e = e' := by
    rintro e e' ⟨w, rfl, -⟩ ⟨w', rfl, hw'⟩ ⟨p, hp⟩
    cases p with
    | nil => exact hp
    | cons c p =>
        refine absurd ?_ hw'
        rw [← (List.cons.inj hp).2]
        exact List.mem_append_right _ List.mem_cons_self
  rcases List.suffix_or_suffix_of_suffix hs hs' with hle | hle
  · exact hshort h h' hle
  · exact (hshort h' h hle).symm

/-- The extensions of the table, each with its format. -/
def namedBy : List (Format × Text) := LongestMatch.offers (FORMATS.map fun f ↦ (f, f.extensions))

theorem mem_namedBy {f : Format} {ext : Text} : (f, ext) ∈ namedBy ↔ ext ∈ f.extensions := by
  rw [namedBy, LongestMatch.mem_offers]
  constructor
  · rintro ⟨_, hrow, rfl, hext⟩
    obtain ⟨f, -, rfl⟩ := List.mem_map.mp hrow
    exact hext
  · intro hext
    exact ⟨_, List.mem_map_of_mem (mem_FORMATS f), rfl, hext⟩

theorem namedBy_isExtension : ∀ m ∈ namedBy, IsExtension m.2 := by decide

theorem namedBy_unique : ∀ m ∈ namedBy, ∀ m' ∈ namedBy, m.2 = m'.2 → m.1 = m'.1 := by decide

/-- Any scan of the table for the longest extension finds the one a name ends in. -/
theorem scan_namedBy {t : Text} {f : Format} :
    (LongestMatch.scan (·.isSuffixOf t) List.length
      (FORMATS.map fun f ↦ (f, f.extensions))).map Prod.snd = some f ↔
      ∃ ext ∈ f.extensions, ext <:+ t := by
  rw [LongestMatch.scan_eq_some_iff]
  · constructor
    · rintro ⟨ext, hmem, hhit⟩
      exact ⟨ext, mem_namedBy.mp hmem, List.isSuffixOf_iff_suffix.mp hhit⟩
    · rintro ⟨ext, hmem, hhit⟩
      exact ⟨ext, mem_namedBy.mpr hmem, List.isSuffixOf_iff_suffix.mpr hhit⟩
  · intro m hm m' hm' hhit hhit'
    refine namedBy_unique m hm m' hm' ?_
    exact (namedBy_isExtension m hm).eq_of_suffix (namedBy_isExtension m' hm')
      (List.isSuffixOf_iff_suffix.mp hhit) (List.isSuffixOf_iff_suffix.mp hhit')

theorem fromExtension_eq_some_iff {name : Text} {f : Format} :
    fromExtension name = some f ↔ ∃ ext ∈ f.extensions, ext <:+ toAsciiLowercase name := by
  rw [← scan_namedBy, LongestMatch.scan, List.foldl_map]
  rfl

/-! ## Both answers -/

inductive Agreement
  | agree | mismatch | contentOnly | nameOnly | unknown
  deriving DecidableEq, Repr

/-- The pair of answers, kept apart. -/
structure Identification where
  byContent : Option Format
  byName : Option Format
  provenance : Option Provenance
  deriving DecidableEq, Repr

namespace Identification

def of (b : FileBytes) (name : Text) : Identification where
  byContent := (identifyWithProvenance b).map Prod.fst
  byName := fromExtension name
  provenance := (identifyWithProvenance b).map Prod.snd

def agreement (i : Identification) : Agreement :=
  match i.byContent, i.byName with
  | some c, some n => if c = n then .agree else .mismatch
  | some _, none => .contentOnly
  | none, some _ => .nameOnly
  | none, none => .unknown

/-- The format to act on. -/
def bestEffort (i : Identification) : Option Format := i.byContent.or i.byName

end Identification

end VeraqisRecover.FormatId
