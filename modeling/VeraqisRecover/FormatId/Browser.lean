import VeraqisRecover.FormatId.LowerCase
import VeraqisRecover.FormatId.PartialRead

/-!
# The browser's copy of the table

The module `emit_javascript` writes out: the rules and the extensions as JavaScript values, and
functions that walk them.  It answers as the table it is generated from, except for the names
that lower-casing outside ASCII turns into a known extension.
-/

namespace VeraqisRecover.FormatId.Browser

open ByteString Analyze LossyUtf8

/-- One row of the emitted `SIGNATURES`. -/
structure JsSignature where
  format : String
  anchor : String
  offset : ℕ
  minLen : ℕ
  magic : Bytes
  provenance : String
  source : String
  caveat : Option String

/-- How one rule is written out. -/
def emitSignature (s : Signature) : JsSignature where
  format := s.format.asStr
  anchor := match s.anchor with
    | .start _ => "start"
    | .fromEnd _ => "end"
  offset := match s.anchor with
    | .start n => n
    | .fromEnd n => n
  minLen := s.minLen
  magic := s.magic
  provenance := match s.provenance with
    | .measured _ => "measured"
    | .documented _ _ => "documented"
  source := match s.provenance with
    | .measured specimen => specimen
    | .documented source _ => source
  caveat := match s.provenance with
    | .measured _ => none
    | .documented _ caveat => caveat

/-- The emitted `SIGNATURES`. -/
def jsSignatures : List JsSignature := SIGNATURES.map emitSignature

/-- The entries of the emitted `FORMATS`, in the order of insertion. -/
def jsFormats : List (String × List Text) := FORMATS.map fun f ↦ (f.asStr, f.extensions)

def bytesOf (head tail : DataSource) (totalLen : ℕ) : FileBytes :=
  ⟨head.bytes, tail.bytes, totalLen⟩

def windowFor (b : FileBytes) (s : JsSignature) : Option (Bytes × ℕ) :=
  if s.anchor = "start" then
    if b.head.length < s.offset + s.magic.length then none else some (b.head, s.offset)
  else if b.totalLen < s.offset ∨ b.tail.length < s.offset then none
  else if b.tail.length < b.tail.length - s.offset + s.magic.length then none
  else some (b.tail, b.tail.length - s.offset)

/-- The inner loop: an element past the end of the buffer equals no byte. -/
def hit (buf : Bytes) (start : ℕ) (magic : Bytes) : Bool :=
  (List.range magic.length).all fun i ↦ buf[start + i]? = magic[i]?

structure Found where
  format : String
  provenance : String
  source : String
  caveat : Option String

/-- One round of the loop over the rules. -/
def tryRule (b : FileBytes) (s : JsSignature) : Option Found :=
  if b.totalLen < s.minLen then none
  else match windowFor b s with
    | none => none
    | some w =>
        if hit w.1 w.2 s.magic then some ⟨s.format, s.provenance, s.source, s.caveat⟩ else none

def identifyDetailed (b : FileBytes) : Option Found := jsSignatures.findSome? (tryRule b)

def fromExtension (L : LowerCasing) (name : Text) : Option String :=
  let lower := L.toLowerCase name
  let best := jsFormats.foldl (fun best row ↦ row.2.foldl (fun best ext ↦
    if ext.isSuffixOf lower && best.all (·.1 < ext.length) then some (ext.length, row.1) else best)
    best) (none : Option (ℕ × String))
  best.map Prod.snd

/-- Neither `null` nor the empty string is true. -/
def truthy (v : Option String) : Bool := v.any (· ≠ "")

structure JsIdentification where
  byContent : Option String
  byName : Option String
  agreement : String
  bestEffort : Option String
  provenance : Option String
  source : Option String
  caveat : Option String

def identification (L : LowerCasing) (b : FileBytes) (name : Text) : JsIdentification :=
  let found := identifyDetailed b
  let byContent := found.map Found.format
  let byName := fromExtension L name
  { byContent := byContent
    byName := byName
    agreement :=
      if truthy byContent && truthy byName then
        if byContent = byName then "match" else "mismatch"
      else if truthy byContent then "content-only"
      else if truthy byName then "name-only"
      else "unknown"
    bestEffort :=
      if truthy byContent then byContent else if truthy byName then byName else none
    provenance := found.map Found.provenance
    source := found.map Found.source
    caveat := found.bind Found.caveat }

/-! ## The content -/

theorem hit_iff {buf magic : Bytes} {start : ℕ} :
    hit buf start magic = true ↔ magic <+: buf.drop start := by
  simp only [hit, List.all_eq_true, List.mem_range, decide_eq_true_eq, List.prefix_iff_getElem?,
    List.getElem?_drop]
  refine forall₂_congr fun i hi ↦ ?_
  rw [List.getElem?_eq_getElem hi]

/-- The window of a rule is found and holds its magic. -/
def InWindow (b : FileBytes) (s : JsSignature) : Prop :=
  ∃ w, windowFor b s = some w ∧ hit w.1 w.2 s.magic = true

theorem inWindow_start {b : FileBytes} {s : JsSignature} (hs : s.anchor = "start") :
    InWindow b s ↔
      s.magic <+: b.head.drop s.offset ∧ s.offset + s.magic.length ≤ b.head.length := by
  unfold InWindow windowFor
  rw [if_pos hs, ← not_lt]
  by_cases hshort : b.head.length < s.offset + s.magic.length
  · simp [hshort]
  · simp [hshort, hit_iff]

theorem inWindow_end {b : FileBytes} {s : JsSignature} (hs : s.anchor ≠ "start") :
    InWindow b s ↔ s.offset ≤ b.totalLen ∧ s.offset ≤ b.tail.length ∧
      s.magic <+: b.tail.drop (b.tail.length - s.offset) ∧
        b.tail.length - s.offset + s.magic.length ≤ b.tail.length := by
  unfold InWindow windowFor
  rw [if_neg hs, ← not_lt, ← not_lt, ← not_lt]
  by_cases hback : b.totalLen < s.offset ∨ b.tail.length < s.offset
  · simp only [if_pos hback, reduceCtorEq, false_and, exists_false, false_iff]
    tauto
  · by_cases hshort : b.tail.length < b.tail.length - s.offset + s.magic.length
    · simp [hback, hshort]
    · simp only [if_neg hback, if_neg hshort, Option.some.injEq, exists_eq_left', hit_iff]
      tauto

/-- Both windows hold the same bytes. -/
theorem inWindow_emitSignature {b : FileBytes} (htail : b.tail.length < 2 ^ 63) {s : Signature}
    (hs : s.Small) : InWindow b (emitSignature s) ↔
      b.window s.anchor s.magic.length = some s.magic := by
  obtain ⟨hmagic, hanchor⟩ := hs
  have hword : (2 : ℕ) ^ 63 + 32785 ≤ wordMax := by decide
  cases ha : s.anchor with
  | start n =>
      rw [ha] at hanchor
      have hstart : (emitSignature s).anchor = "start" := by
        rw [emitSignature, ha]
      have hoffset : (emitSignature s).offset = n := by
        rw [emitSignature, ha]
      rw [inWindow_start hstart, hoffset, window_start (by omega)]
      rfl
  | fromEnd n =>
      have hend : (emitSignature s).anchor = "end" := by
        rw [emitSignature, ha]
      have hoffset : (emitSignature s).offset = n := by
        rw [emitSignature, ha]
      rw [inWindow_end (by rw [hend]; decide), hoffset, window_fromEnd (by omega)]
      rfl

/-- What the loop keeps of a rule that hits. -/
def foundOf (s : Signature) : Found :=
  ⟨(emitSignature s).format, (emitSignature s).provenance, (emitSignature s).source,
    (emitSignature s).caveat⟩

theorem tryRule_emitSignature {b : FileBytes} (htail : b.tail.length < 2 ^ 63) {s : Signature}
    (hs : s.Small) :
    tryRule b (emitSignature s) = if s.fires b then some (foundOf s) else none := by
  have hwindow := inWindow_emitSignature htail hs
  have hfires : s.fires b = true ↔ s.minLen ≤ b.totalLen ∧ InWindow b (emitSignature s) := by
    rw [Signature.fires, Bool.and_eq_true, decide_eq_true_eq, decide_eq_true_eq, hwindow]
  unfold tryRule
  by_cases hlen : b.totalLen < (emitSignature s).minLen
  · have hmiss : ¬ s.fires b = true := fun hfire ↦ absurd (hfires.mp hfire).1 hlen.not_ge
    rw [if_pos hlen, if_neg hmiss]
  · rw [if_neg hlen]
    by_cases hin : InWindow b (emitSignature s)
    · rw [if_pos (hfires.mpr ⟨Nat.le_of_not_lt hlen, hin⟩)]
      obtain ⟨w, hw, hhit⟩ := hin
      rw [hw]
      exact if_pos hhit
    · rw [if_neg fun hfire ↦ hin (hfires.mp hfire).2]
      cases hw : windowFor b (emitSignature s) with
      | none => rfl
      | some w => exact if_neg fun hhit ↦ hin ⟨w, hw, hhit⟩

theorem findSome?_tryRule {b : FileBytes} (htail : b.tail.length < 2 ^ 63)
    {rules : List Signature} (hrules : ∀ s ∈ rules, s.Small) :
    (rules.map emitSignature).findSome? (tryRule b) =
      (rules.find? (·.fires b)).map foundOf := by
  induction rules with
  | nil => rfl
  | cons s rules ih =>
      rw [List.map_cons, List.findSome?_cons, List.find?_cons,
        tryRule_emitSignature htail (hrules s List.mem_cons_self)]
      cases s.fires b with
      | true => rfl
      | false => exact ih fun s hs ↦ hrules s (List.mem_cons_of_mem _ hs)

theorem identifyDetailed_eq {b : FileBytes} (htail : b.tail.length < 2 ^ 63) :
    identifyDetailed b = (SIGNATURES.find? (·.fires b)).map foundOf :=
  findSome?_tryRule htail small_of_mem

theorem byContent_eq {b : FileBytes} (htail : b.tail.length < 2 ^ 63) :
    (identifyDetailed b).map Found.format = (FormatId.identify b).map Format.asStr := by
  rw [identifyDetailed_eq htail, identify_eq, Option.map_map, Option.map_map]
  rfl

/-! ## The name -/

/-- The format whose extension a text ends in. -/
def namedIn (t : Text) : Option Format :=
  (LongestMatch.scan (·.isSuffixOf t) List.length (FORMATS.map fun f ↦ (f, f.extensions))).map
    Prod.snd

theorem namedIn_congr {s t : Text}
    (h : ∀ f : Format, (∃ ext ∈ f.extensions, ext <:+ s) ↔ ∃ ext ∈ f.extensions, ext <:+ t) :
    namedIn s = namedIn t := by
  apply Option.ext
  intro f
  exact scan_namedBy.trans ((h f).trans scan_namedBy.symm)

theorem fromExtension_eq_namedIn (name : Text) :
    FormatId.fromExtension name = namedIn (toAsciiLowercase name) := by
  rw [namedIn, LongestMatch.scan, List.foldl_map]
  rfl

theorem jsFromExtension_eq_namedIn (L : LowerCasing) (name : Text) :
    fromExtension L name = (namedIn (L.toLowerCase name)).map Format.asStr := by
  have hscan : fromExtension L name =
      (LongestMatch.scan (·.isSuffixOf (L.toLowerCase name)) List.length
        ((FORMATS.map fun f ↦ (f, f.extensions)).map (Prod.map Format.asStr id))).map
          Prod.snd := by
    rw [List.map_map]
    rfl
  rw [hscan, LongestMatch.scan_map, Option.map_map, namedIn, Option.map_map]
  rfl

/-- The Kelvin sign read as the letter. -/
def unKelvin (c : Char) : Char := if c = kelvinSign then 'k' else c

theorem fold_eq_unKelvin (c : Char) : LowerCasing.fold c = unKelvin c.toLower := by
  unfold LowerCasing.fold unKelvin
  by_cases hc : IsAscii c
  · have hk : c ≠ kelvinSign := by
      rintro rfl
      exact absurd hc (by decide)
    have hk' : c.toLower ≠ kelvinSign := by
      intro h
      exact absurd (h ▸ toLower_ascii hc) (by decide)
    rw [if_neg hk, if_neg hk']
  · rw [toLower_of_not_ascii hc]

/-- The ways to spell an extension with Kelvin signs. -/
def spellings : Text → List Text
  | [] => [[]]
  | c :: w => (spellings w).flatMap fun w' ↦
      if c = 'k' then ['k' :: w', kelvinSign :: w'] else [c :: w']

theorem mem_spellings (e : Text) : e ∈ spellings (e.map unKelvin) := by
  induction e with
  | nil => exact List.mem_cons_self
  | cons c w ih =>
      rw [List.map_cons, spellings, List.mem_flatMap]
      refine ⟨w, ih, ?_⟩
      unfold unKelvin
      by_cases hk : c = kelvinSign
      · rw [if_pos hk, if_pos rfl, hk]
        simp
      · rw [if_neg hk]
        split
        · rename_i hc
          rw [hc]
          exact List.mem_cons_self
        · exact List.mem_cons_self

/-- The extensions of the table that hold a `k`, spelled with the Kelvin sign. -/
def kelvinExtensions : List Text :=
  [".ap\u212A".toList, ".vmd\u212A".toList, ".mrba\u212Ax".toList]

theorem spellings_namedBy : ∀ m ∈ namedBy, ∀ e ∈ spellings m.2, e = m.2 ∨ e ∈ kelvinExtensions := by
  decide

theorem unKelvin_of_ascii {c : Char} (hc : IsAscii c) : unKelvin c = c := by
  rw [unKelvin, if_neg]
  rintro rfl
  exact absurd hc (by decide)

theorem extensions_ascii (f : Format) : ∀ ext ∈ f.extensions, ∀ c ∈ ext, IsAscii c := by
  have hall : ∀ ext ∈ f.extensions, ext.all (decide <| IsAscii ·) = true := by
    cases f <;> decide
  intro ext hext c hc
  exact of_decide_eq_true (List.all_eq_true.mp (hall ext hext) c hc)

theorem kelvinExtensions_named : ∀ e ∈ kelvinExtensions, IsExtension e ∧
    e ∉ namedBy.map Prod.snd ∧ e.map unKelvin ∈ namedBy.map Prod.snd := by
  decide

/-- The name ends in an extension of the table spelled with the Kelvin sign. -/
def KelvinNamed (name : Text) : Prop := ∃ e ∈ kelvinExtensions, e <:+ toAsciiLowercase name

instance (name : Text) : Decidable (KelvinNamed name) := by
  unfold KelvinNamed
  infer_instance

theorem map_unKelvin {f : Format} {ext : Text} (hext : ext ∈ f.extensions) :
    ext.map unKelvin = ext := by
  refine Eq.trans ?_ (List.map_id' ext)
  exact List.map_congr_left fun c hc ↦ unKelvin_of_ascii (extensions_ascii f ext hext c hc)

theorem namedIn_toLowerCase (L : LowerCasing) (name : Text) :
    namedIn (L.toLowerCase name) = namedIn ((toAsciiLowercase name).map unKelvin) := by
  have hfold : name.map LowerCasing.fold = (toAsciiLowercase name).map unKelvin := by
    rw [toAsciiLowercase, List.map_map]
    exact List.map_congr_left fun c _ ↦ fold_eq_unKelvin c
  apply namedIn_congr
  intro f
  refine exists_congr fun ext ↦ and_congr_right fun hext ↦ ?_
  rw [← hfold]
  exact L.suffix_toLowerCase_iff (extensions_ascii f ext hext) name

/-- Reading Kelvin signs as letters matters exactly to the names spelled with one. -/
theorem namedIn_unKelvin_iff (name : Text) :
    namedIn ((toAsciiLowercase name).map unKelvin) = namedIn (toAsciiLowercase name) ↔
      ¬ KelvinNamed name := by
  constructor
  · rintro hsame ⟨e, he, hend⟩
    obtain ⟨hextension, hunnamed, hnamed⟩ := kelvinExtensions_named e he
    obtain ⟨m, hm, hme⟩ := List.mem_map.mp hnamed
    have hbrowser : namedIn ((toAsciiLowercase name).map unKelvin) = some m.1 := by
      refine scan_namedBy.mpr ⟨m.2, mem_namedBy.mp hm, ?_⟩
      rw [hme]
      exact hend.map unKelvin
    rw [hsame] at hbrowser
    obtain ⟨ext, hext, hend'⟩ := scan_namedBy.mp hbrowser
    have hmem : (m.1, ext) ∈ namedBy := mem_namedBy.mpr hext
    have heq : e = ext := hextension.eq_of_suffix (namedBy_isExtension _ hmem) hend hend'
    rw [heq] at hunnamed
    exact hunnamed (List.mem_map_of_mem hmem)
  · intro hplain
    apply namedIn_congr
    intro f
    refine exists_congr fun ext ↦ and_congr_right fun hext ↦ ?_
    have hmem : (f, ext) ∈ namedBy := mem_namedBy.mpr hext
    constructor
    · intro hend
      obtain ⟨e, he, heq⟩ := List.suffix_map_iff.mp hend
      have hspelled : e ∈ spellings ext := heq ▸ mem_spellings e
      rcases spellings_namedBy _ hmem e hspelled with rfl | hkelvin
      · exact he
      · exact absurd ⟨e, hkelvin, he⟩ hplain
    · intro hend
      have hend' := hend.map unKelvin
      rwa [map_unKelvin hext] at hend'

/-! ## Both answers -/

/-- The word the module writes for an agreement. -/
def agreementWord : Agreement → String
  | .agree => "match"
  | .mismatch => "mismatch"
  | .contentOnly => "content-only"
  | .nameOnly => "name-only"
  | .unknown => "unknown"

/-- The browser tells a user what the engine does. -/
structure Agrees (j : JsIdentification) (i : Identification) : Prop where
  byContent : j.byContent = i.byContent.map Format.asStr
  byName : j.byName = i.byName.map Format.asStr
  agreement : j.agreement = agreementWord i.agreement
  bestEffort : j.bestEffort = i.bestEffort.map Format.asStr

theorem truthy_asStr (v : Option Format) : truthy (v.map Format.asStr) = v.isSome := by
  cases v with
  | none => rfl
  | some f => cases f <;> rfl

/-- Both products put their two answers together in the same way. -/
theorem agrees_of_byName {L : LowerCasing} {b : FileBytes} {name : Text}
    (hcontent : (identifyDetailed b).map Found.format =
      (FormatId.identify b).map Format.asStr)
    (hname : fromExtension L name = (FormatId.fromExtension name).map Format.asStr) :
    Agrees (identification L b name) (Identification.of b name) where
  byContent := hcontent
  byName := hname
  agreement := by
    change (if truthy ((identifyDetailed b).map Found.format) && truthy (fromExtension L name) then
        if (identifyDetailed b).map Found.format = fromExtension L name then "match" else "mismatch"
      else if truthy ((identifyDetailed b).map Found.format) then "content-only"
      else if truthy (fromExtension L name) then "name-only"
      else "unknown") =
        agreementWord
          (Identification.agreement ⟨FormatId.identify b, FormatId.fromExtension name, _⟩)
    rw [hcontent, hname, truthy_asStr, truthy_asStr]
    cases FormatId.identify b with
    | none => cases FormatId.fromExtension name <;> rfl
    | some c =>
        cases FormatId.fromExtension name with
        | none => rfl
        | some n =>
            by_cases hcn : c = n
            · subst hcn
              simp [Identification.agreement, agreementWord]
            · have hne : c.asStr ≠ n.asStr := fun h ↦ hcn (Format.asStr_injective h)
              simp [Identification.agreement, agreementWord, hcn, hne]
  bestEffort := by
    change (if truthy ((identifyDetailed b).map Found.format) then
        (identifyDetailed b).map Found.format
      else if truthy (fromExtension L name) then fromExtension L name else none) =
        ((FormatId.identify b).or (FormatId.fromExtension name)).map Format.asStr
    rw [hcontent, hname, truthy_asStr, truthy_asStr]
    cases FormatId.identify b <;> cases FormatId.fromExtension name <;> rfl

/-- The browser and the engine give one answer unless the name ends in an extension of the
table spelled with the Kelvin sign. -/
theorem identification_agrees_iff (L : LowerCasing) (head tail : DataSource) (totalLen : ℕ)
    (name : Text) :
    Agrees (identification L (bytesOf head tail totalLen) name)
        (Identification.of (bytesOf head tail totalLen) name) ↔ ¬ KelvinNamed name := by
  have hname : fromExtension L name =
      (namedIn ((toAsciiLowercase name).map unKelvin)).map Format.asStr := by
    rw [jsFromExtension_eq_namedIn, namedIn_toLowerCase]
  rw [← namedIn_unKelvin_iff]
  constructor
  · intro hagrees
    have heq : (namedIn ((toAsciiLowercase name).map unKelvin)).map Format.asStr =
        (FormatId.fromExtension name).map Format.asStr := by
      rw [← hname]
      exact hagrees.byName
    rw [← fromExtension_eq_namedIn]
    exact Option.map_injective Format.asStr_injective heq
  · intro hsame
    apply agrees_of_byName (byContent_eq tail.addressable)
    rw [hname, hsame, fromExtension_eq_namedIn]

def emptyFile : DataSource := ⟨[], by decide⟩

/-- A package whose last letter is the Kelvin sign is one in the browser only. -/
theorem kelvinPackage_disagrees :
    (identification .plain (bytesOf emptyFile emptyFile 0) "a.ap\u212A".toList).bestEffort =
        some "zip" ∧
      (Identification.of (bytesOf emptyFile emptyFile 0) "a.ap\u212A".toList).bestEffort = none ∧
      ¬ Agrees (identification .plain (bytesOf emptyFile emptyFile 0) "a.ap\u212A".toList)
        (Identification.of (bytesOf emptyFile emptyFile 0) "a.ap\u212A".toList) := by
  have hbrowser : (identification .plain (bytesOf emptyFile emptyFile 0)
      "a.ap\u212A".toList).bestEffort = some "zip" := by decide
  have hengine : (Identification.of (bytesOf emptyFile emptyFile 0)
      "a.ap\u212A".toList).bestEffort = none := by decide
  refine ⟨hbrowser, hengine, ?_⟩
  intro hagrees
  have hsame := hagrees.bestEffort
  rw [hbrowser, hengine] at hsame
  exact Option.some_ne_none _ hsame

end VeraqisRecover.FormatId.Browser
