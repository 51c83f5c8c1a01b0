import VeraqisRecover.FormatId.PartialRead

/-!
# Format detection in the engine

`pipeline/format_detection.rs`: the shared table on two bounded reads, and behind it an own
chain of extensions for files whose signature was destroyed.
-/

namespace VeraqisRecover.Analyze.FormatDetection

open ByteString Checked FormatId LossyUtf8

/-- This crate's format, if the engine has a reader for it. -/
def fromShared : Format → Option ArchiveFormat
  | .zip => some .zip
  | .tar => some .tar
  | .iso9660 => some .iso9660
  | .gzip => some .gzip
  | .sqlite => some .sqlite
  | .sevenZ => some .sevenZ
  | .rar => some .rar
  | .pdf => some .pdf
  | .bzip2 => some .bzip2
  | .xz => some .xz
  | .zstd => some .zstd
  | .lz4 => some .lz4
  | .cab | .wim | .qcow2 | .vhd | .vhdx | .vmdk | .dmg | .acronisTib | .macriumX => none

/-- The last bytes of the file; of a short file, what was read at its front. -/
def readTail (s : DataSource) (head : Bytes) : Checked Bytes :=
  if REQUIRED_SUFFIX < s.len then do
    let offset ← sub s.len REQUIRED_SUFFIX
    let tail ← s.readExactAt offset REQUIRED_SUFFIX
    return tail.getD []
  else return head

/-- Two bounded reads. -/
def boundedReads (s : DataSource) : Checked FileBytes := do
  allocate REQUIRED_PREFIX
  let head ← s.readAt 0 REQUIRED_PREFIX
  let tail ← readTail s head
  return ⟨head, tail, s.len⟩

def endsWith (path : Text) (ext : String) : Bool := ext.toList.isSuffixOf path

def hasGzExtension (path : Text) : Bool :=
  let path := toAsciiLowercase path
  endsWith path ".gz" || endsWith path ".tgz"

def hasSqliteExtension (path : Text) : Bool :=
  let path := toAsciiLowercase path
  endsWith path ".db" || endsWith path ".sqlite" || endsWith path ".sqlite3"

def zipExts : List String := [".zip", ".jar", ".apk", ".docx", ".xlsx", ".pptx", ".epub"]

/-- What the name of a file without a readable signature routes it to. -/
def extensionFallback (path : Text) : ArchiveFormat :=
  if hasGzExtension path then .gzip
  else if hasSqliteExtension path then .sqlite
  else
    let path := toAsciiLowercase path
    if endsWith path ".7z" then .sevenZ
    else if endsWith path ".rar" then .rar
    else if endsWith path ".pdf" then .pdf
    else if endsWith path ".bz2" then .bzip2
    else if endsWith path ".xz" then .xz
    else if endsWith path ".zst" || endsWith path ".zstd" then .zstd
    else if endsWith path ".lz4" then .lz4
    else if zipExts.any (endsWith path) then .zip
    else if endsWith path ".tar" then .tar
    else if endsWith path ".iso" then .iso9660
    else .raw

/-- Detect the container format of a source at `path`. -/
def detect (s : DataSource) (path : Text) : Checked ArchiveFormat := do
  let bytes ← boundedReads s
  match (identify bytes).bind fromShared with
  | some af => return af
  | none => return extensionFallback path

/-! ## The bounded reads decide the table -/

theorem readTail_eq (s : DataSource) : readTail s (s.bytes.take REQUIRED_PREFIX) =
    .ok (s.bytes.rtake REQUIRED_SUFFIX) := by
  have hlen := s.len_lt
  unfold readTail REQUIRED_SUFFIX
  split
  · rename_i hlong
    have htake : (s.bytes.drop (s.len - 512)).take 512 = s.bytes.rtake 512 := by
      rw [List.rtake]
      apply List.take_of_length_le
      rw [List.length_drop]
      unfold DataSource.len at *
      omega
    have hfull : (s.bytes.rtake 512).length = 512 := by
      rw [List.rtake, List.length_drop]
      unfold DataSource.len at *
      omega
    have hread : s.readExactAt (s.len - 512) 512 = .ok (some (s.bytes.rtake 512)) := by
      rw [s.readExactAt_eq (by decide), htake, if_neg hfull.not_lt]
    rw [sub_eq hlong.le]
    change (s.readExactAt (s.len - 512) 512 >>= fun tail ↦ Except.ok (tail.getD [])) = _
    rw [hread]
    generalize s.bytes.rtake 512 = tail
    rfl
  · rename_i hshort
    have hall : s.bytes.rtake 512 = s.bytes := by
      unfold DataSource.len at hshort
      rw [List.rtake, Nat.sub_eq_zero_of_le (by omega), List.drop_zero]
    have hhead : s.bytes.take REQUIRED_PREFIX = s.bytes := by
      apply List.take_of_length_le
      apply Nat.le_trans (Nat.le_of_not_lt hshort)
      decide
    rw [hall, hhead]
    rfl

theorem boundedReads_eq (s : DataSource) :
    boundedReads s = .ok (supply s REQUIRED_PREFIX REQUIRED_SUFFIX) := by
  rw [boundedReads, allocate_eq (by decide)]
  change (s.readAt 0 REQUIRED_PREFIX >>= fun head ↦ readTail s head >>= fun tail ↦
    pure (FileBytes.mk head tail s.len)) = _
  rw [s.readAt_eq, List.drop_zero]
  change (readTail s (s.bytes.take REQUIRED_PREFIX) >>= fun tail ↦
    pure (FileBytes.mk (s.bytes.take REQUIRED_PREFIX) tail s.len)) = _
  rw [readTail_eq]
  rfl

theorem supplied_of_mem : ∀ s ∈ SIGNATURES, s.Supplied REQUIRED_PREFIX REQUIRED_SUFFIX := by
  decide

theorem identify_boundedReads (s : DataSource) :
    identify (supply s REQUIRED_PREFIX REQUIRED_SUFFIX) = identify (.whole s.bytes) := by
  rw [identify_eq, identify_eq]
  congr 1
  apply List.find?_congr
  intro rule hrule
  rw [fires_supply_eq hrule, fires_whole_eq, decide_eq_true (supplied_of_mem rule hrule),
    Bool.and_true]

theorem detect_eq (s : DataSource) (path : Text) : detect s path =
    .ok (((identify (.whole s.bytes)).bind fromShared).getD (extensionFallback path)) := by
  rw [detect, boundedReads_eq]
  change (match (identify (supply s REQUIRED_PREFIX REQUIRED_SUFFIX)).bind fromShared with
    | some af => Except.ok af
    | none => Except.ok (extensionFallback path)) = _
  rw [identify_boundedReads]
  cases (identify (.whole s.bytes)).bind fromShared <;> rfl

/-- Two reads answer as the whole file does, and a format the engine can read wins over any
name. -/
theorem boundedReads_decide (s : DataSource) :
    (boundedReads s).map identify = .ok (identify (.whole s.bytes)) ∧
      ∀ path, detect s path =
        .ok (((identify (.whole s.bytes)).bind fromShared).getD (extensionFallback path)) := by
  refine ⟨?_, detect_eq s⟩
  rw [boundedReads_eq, ← identify_boundedReads]
  rfl

/-! ## The extension chain against the shared table -/

/-- The tests of the fallback, in the order they are made. -/
def chain : List (ArchiveFormat × Text) :=
  [(.gzip, ".gz".toList), (.gzip, ".tgz".toList), (.sqlite, ".db".toList),
    (.sqlite, ".sqlite".toList), (.sqlite, ".sqlite3".toList), (.sevenZ, ".7z".toList),
    (.rar, ".rar".toList), (.pdf, ".pdf".toList), (.bzip2, ".bz2".toList), (.xz, ".xz".toList),
    (.zstd, ".zst".toList), (.zstd, ".zstd".toList), (.lz4, ".lz4".toList),
    (.zip, ".zip".toList), (.zip, ".jar".toList), (.zip, ".apk".toList), (.zip, ".docx".toList),
    (.zip, ".xlsx".toList), (.zip, ".pptx".toList), (.zip, ".epub".toList),
    (.tar, ".tar".toList), (.iso9660, ".iso".toList)]

/-- The format of the first test that hits. -/
def firstHit (hit : Text → Bool) (tests : List (ArchiveFormat × Text)) : ArchiveFormat :=
  ((tests.find? (hit ·.2)).map Prod.fst).getD .raw

theorem firstHit_cons (hit : Text → Bool) (af : ArchiveFormat) (ext : Text)
    (tests : List (ArchiveFormat × Text)) :
    firstHit hit ((af, ext) :: tests) = if hit ext then af else firstHit hit tests := by
  unfold firstHit
  rw [List.find?_cons]
  cases hit ext <;> rfl

theorem extensionFallback_eq (path : Text) :
    extensionFallback path = firstHit (·.isSuffixOf (toAsciiLowercase path)) chain := by
  simp only [chain, zipExts, firstHit_cons, extensionFallback, hasGzExtension,
    hasSqliteExtension, endsWith, List.any_cons, List.any_nil, Bool.or_eq_true, ite_or,
    Bool.or_false]
  rfl

theorem chain_isExtension : ∀ m ∈ chain, IsExtension m.2 := by decide

theorem chain_named : ∀ m ∈ chain, m.2 ∈ namedBy.map Prod.snd := by decide

/-- The two zip extensions the chain leaves out. -/
def unchained : List Text := [".odt".toList, ".ods".toList]

theorem unchained_named : ∀ ext ∈ unchained, ext ∈ namedBy.map Prod.snd := by decide

theorem firstHit_named : ∀ m ∈ namedBy,
    firstHit (· = m.2) chain = (fromShared m.1).getD .raw ↔ m.2 ∉ unchained := by
  decide

theorem fromShared_ne_raw (f : Format) : fromShared f ≠ some .raw := by
  cases f <;> decide

/-- A name that ends in an extension passes no other test of the chain. -/
theorem firstHit_of_suffix {ext t : Text} (hext : IsExtension ext) (hs : ext <:+ t) :
    firstHit (·.isSuffixOf t) chain = firstHit (· = ext) chain := by
  unfold firstHit
  congr 2
  apply List.find?_congr
  intro m hm
  rw [Bool.eq_iff_iff, List.isSuffixOf_iff_suffix, decide_eq_true_iff]
  constructor
  · intro hm'
    exact (chain_isExtension m hm).eq_of_suffix hext hm' hs
  · rintro rfl
    exact hs

theorem firstHit_of_unnamed {t : Text} (h : ∀ m ∈ namedBy, ¬ m.2 <:+ t) :
    firstHit (·.isSuffixOf t) chain = .raw := by
  have hnone : chain.find? (·.2.isSuffixOf t) = none := by
    rw [List.find?_eq_none]
    intro m hm hhit
    obtain ⟨m', hm', hext⟩ := List.mem_map.mp (chain_named m hm)
    rw [List.isSuffixOf_iff_suffix, ← hext] at hhit
    exact h m' hm' hhit
  unfold firstHit
  rw [hnone]
  rfl

/-- The chain answers as the shared table does, except for the names it leaves out. -/
theorem extensionFallback_eq_shared_iff (path : Text) :
    extensionFallback path = ((fromExtension path).bind fromShared).getD .raw ↔
      ∀ ext ∈ unchained, ¬ ext <:+ toAsciiLowercase path := by
  rw [extensionFallback_eq]
  by_cases hnamed : ∃ m ∈ namedBy, m.2 <:+ toAsciiLowercase path
  · obtain ⟨m, hm, hs⟩ := hnamed
    have hext : IsExtension m.2 := namedBy_isExtension m hm
    have hname : fromExtension path = some m.1 :=
      fromExtension_eq_some_iff.mpr ⟨m.2, mem_namedBy.mp hm, hs⟩
    rw [firstHit_of_suffix hext hs, hname, Option.bind_some, firstHit_named m hm]
    constructor
    · intro hout ext hin hs'
      obtain ⟨m', hm', rfl⟩ := List.mem_map.mp (unchained_named ext hin)
      rw [hext.eq_of_suffix (namedBy_isExtension m' hm') hs hs'] at hout
      exact hout hin
    · intro hall hin
      exact hall m.2 hin hs
  · push Not at hnamed
    have hname : fromExtension path = none := by
      rw [Option.eq_none_iff_forall_ne_some]
      intro f hf
      obtain ⟨ext, hext, hs⟩ := fromExtension_eq_some_iff.mp hf
      exact hnamed (f, ext) (mem_namedBy.mpr hext) hs
    rw [firstHit_of_unnamed hnamed, hname]
    constructor
    · intro _ ext hin hs
      obtain ⟨m, hm, rfl⟩ := List.mem_map.mp (unchained_named ext hin)
      exact hnamed m hm hs
    · intro _
      rfl

/-- A file with no readable signature goes where the shared table's extensions send it, and
never to the healthy raw data if that is a format with a reader. -/
def RoutesByName (s : DataSource) (path : Text) : Prop :=
  detect s path = .ok (((fromExtension path).bind fromShared).getD .raw) ∧
    (((fromExtension path).bind fromShared).isSome → detect s path ≠ .ok .raw)

/-- The chain and the shared table route a file by its name to the same format unless it is
named as a text document or a spreadsheet of the open document kind. -/
theorem detect_routesByName_iff (s : DataSource) (path : Text)
    (hcontent : (identify (.whole s.bytes)).bind fromShared = none) :
    RoutesByName s path ↔ ¬ (".odt".toList <:+ toAsciiLowercase path ∨
      ".ods".toList <:+ toAsciiLowercase path) := by
  have hout : (∀ ext ∈ unchained, ¬ ext <:+ toAsciiLowercase path) ↔
      ¬ (".odt".toList <:+ toAsciiLowercase path ∨ ".ods".toList <:+ toAsciiLowercase path) := by
    simp [unchained]
  have hdetect : detect s path = .ok (extensionFallback path) := by
    rw [detect_eq, hcontent]
    rfl
  rw [← hout, ← extensionFallback_eq_shared_iff, RoutesByName, hdetect]
  constructor
  · rintro ⟨hroute, -⟩
    exact Except.ok.inj hroute
  · intro hroute
    refine ⟨congrArg Except.ok hroute, ?_⟩
    intro hreadable hraw
    obtain ⟨af, haf⟩ := Option.isSome_iff_exists.mp hreadable
    have hsome : af = .raw := by
      rw [← Except.ok.inj hraw, hroute, haf, Option.getD_some]
    rw [hsome] at haf
    obtain ⟨f, -, hf⟩ := Option.bind_eq_some_iff.mp haf
    exact fromShared_ne_raw f hf

/-- The first bytes of a local header whose signature lost its first letter. -/
def damagedPackage : DataSource := ⟨[0x00, 0x4B, 0x03, 0x04, 0x14, 0x00], by decide⟩

theorem damagedPackage_routed : (identify (.whole damagedPackage.bytes)).bind fromShared = none ∧
    RoutesByName damagedPackage "report.docx".toList := by
  have hcontent : (identify (.whole damagedPackage.bytes)).bind fromShared = none := by decide
  exact ⟨hcontent, (detect_routesByName_iff damagedPackage _ hcontent).mpr (by decide)⟩

/-- The shared table knows the document as a zip; the engine takes it for healthy raw data. -/
theorem openDocument_raw : (identify (.whole damagedPackage.bytes)).bind fromShared = none ∧
    fromExtension "report.odt".toList = some .zip ∧
    detect damagedPackage "report.odt".toList = .ok .raw ∧
    ¬ RoutesByName damagedPackage "report.odt".toList := by
  have hcontent : (identify (.whole damagedPackage.bytes)).bind fromShared = none := by decide
  have hname : fromExtension "report.odt".toList = some .zip := by decide
  have hraw : detect damagedPackage "report.odt".toList = .ok .raw := by
    rw [detect_eq, hcontent]
    decide
  refine ⟨hcontent, hname, hraw, ?_⟩
  rintro ⟨-, hsafe⟩
  exact hsafe (by rw [hname]; decide) hraw

end VeraqisRecover.Analyze.FormatDetection
