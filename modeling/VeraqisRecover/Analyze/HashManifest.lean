import VeraqisRecover.Support.Lines
import Mathlib.Data.Finmap
import Mathlib.Data.List.MinMax

/-!
# Hash manifests

`integrity/manifest.rs` reads files of lines `hash  name`.  Every line is trimmed and its name
trimmed once more, so that a name with blanks or a marker at its ends comes back as another one.
-/

namespace VeraqisRecover.Analyze.HashManifest

open LossyUtf8 Lines

/-! ## Parsing -/

/-- A map of relative name to expected hash. -/
structure Manifest where
  path : Text
  entries : Finmap fun _ : Text ↦ Text

/-- `rest.strip_prefix('*').unwrap_or(rest)` -/
def stripMarker (rest : Text) : Text := if rest.head? = some '*' then rest.tail else rest

/-- Hash and name of a line, if it has a name. -/
def splitEntry (line : Text) : Option (Text × Text) := do
  let parts := splitFirst isWhitespace line
  let hash := parts.1.map Char.toLower
  let rest := (← parts.2).dropWhile isWhitespace
  let name := stripMarker rest
  if hash = [] ∨ name = [] then none else some (hash, name)

/-- Hash and name of a line as it stands in the text. -/
def entryOf (line : Text) : Option (Text × Text) :=
  let line := trim isWhitespace line
  if line = [] then none else splitEntry line

/-- `entries.insert(name, hash)` -/
def insertEntry (entries : Finmap fun _ : Text ↦ Text) (entry : Text × Text) :
    Finmap fun _ : Text ↦ Text :=
  entries.insert entry.2 entry.1

/-- Malformed lines are skipped. -/
def Manifest.parse (path text : Text) : Manifest where
  path := path
  entries := ((lines text).filterMap entryOf).foldl insertEntry ∅

def Manifest.lookup (m : Manifest) (name : Text) : Option Text := m.entries.lookup name

def Manifest.len (m : Manifest) : ℕ := m.entries.keys.card

/-! ## Entries collected in a map -/

theorem mem_foldl_insertEntry {pairs : List (Text × Text)} {m : Finmap fun _ : Text ↦ Text}
    {n : Text} : n ∈ pairs.foldl insertEntry m ↔ n ∈ m ∨ ∃ p ∈ pairs, p.2 = n := by
  induction pairs generalizing m with
  | nil => simp
  | cons p pairs ih =>
      rw [List.foldl_cons, ih, insertEntry, Finmap.mem_insert]
      simp only [List.mem_cons, exists_eq_or_imp]
      tauto

theorem lookup_foldl_of_not_mem {pairs : List (Text × Text)} {m : Finmap fun _ : Text ↦ Text}
    {n : Text} (h : ∀ p ∈ pairs, p.2 ≠ n) :
    (pairs.foldl insertEntry m).lookup n = m.lookup n := by
  induction pairs generalizing m with
  | nil => rfl
  | cons p pairs ih =>
      rw [List.foldl_cons, ih fun q hq ↦ h q (List.mem_cons_of_mem p hq), insertEntry,
        Finmap.lookup_insert_of_ne _ (h p List.mem_cons_self).symm]

/-- Names that occur once each keep their hashes. -/
theorem lookup_foldl_of_mem {pairs : List (Text × Text)} (hnodup : (pairs.map (·.2)).Nodup)
    {m : Finmap fun _ : Text ↦ Text} {p : Text × Text} (hp : p ∈ pairs) :
    (pairs.foldl insertEntry m).lookup p.2 = some p.1 := by
  induction pairs generalizing m with
  | nil => cases hp
  | cons q pairs ih =>
      rw [List.map_cons, List.nodup_cons] at hnodup
      rw [List.foldl_cons]
      rcases List.mem_cons.mp hp with rfl | hp
      · have hrest : ∀ r ∈ pairs, r.2 ≠ p.2 := by
          intro r hr heq
          exact hnodup.1 (List.mem_map.mpr ⟨r, hr, heq⟩)
        rw [lookup_foldl_of_not_mem hrest, insertEntry, Finmap.lookup_insert]
      · exact ih hnodup.2 hp

theorem card_keys_foldl {pairs : List (Text × Text)} (hnodup : (pairs.map (·.2)).Nodup) :
    (pairs.foldl insertEntry ∅).keys.card = pairs.length := by
  have hkeys : (pairs.foldl insertEntry ∅).keys = (pairs.map (·.2)).toFinset := by
    ext n
    rw [Finmap.mem_keys, mem_foldl_insertEntry]
    simp [Finmap.notMem_empty]
  rw [hkeys, List.toFinset_card_of_nodup hnodup, List.length_map]

/-! ## Lines as coreutils writes them -/

def hexDigits : Text :=
  ['0', '1', '2', '3', '4', '5', '6', '7', '8', '9', 'a', 'b', 'c', 'd', 'e', 'f']

/-- A file and its digest. -/
structure Entry where
  digest : Text
  name : Text
  binary : Bool
  digest_ne : digest ≠ []
  hex : ∀ c ∈ digest, c ∈ hexDigits
  name_ne : name ≠ []
  noLineFeed : '\n' ∉ name
  noBackslash : '\\' ∉ name

namespace Entry

variable (e : Entry)

def marker : Char := if e.binary then '*' else ' '

def line : Text := e.digest ++ ' ' :: e.marker :: e.name

/-- What the parser makes of the name. -/
def kept : Text :=
  let name := e.name.rdropWhile isWhitespace
  if e.binary then name else stripMarker (name.dropWhile isWhitespace)

/-- The name ends in no blank and, unless a marker stands before it, starts neither with a blank
nor with a marker. -/
def Plain : Prop :=
  (∀ c ∈ e.name.getLast?, isWhitespace c = false) ∧
    (e.binary = false → ∀ c ∈ e.name.head?, isWhitespace c = false ∧ c ≠ '*')

theorem digest_not_whitespace : ∀ c ∈ e.digest, isWhitespace c = false := by
  have hall : ∀ c ∈ hexDigits, isWhitespace c = false := by simp [hexDigits, isWhitespace]
  exact fun c hc ↦ hall c (e.hex c hc)

theorem digest_toLower : e.digest.map Char.toLower = e.digest := by
  have hall : ∀ c ∈ hexDigits, c.toLower = c := by simp [hexDigits, Char.toLower]
  calc e.digest.map Char.toLower
      = e.digest.map id := List.map_congr_left fun c hc ↦ hall c (e.hex c hc)
    _ = e.digest := List.map_id _

theorem lineFeed_not_mem_line : '\n' ∉ e.line := by
  have hhex : '\n' ∉ hexDigits := by decide
  have hmarker : '\n' ≠ e.marker := by
    unfold marker
    split <;> decide
  have hdigest : '\n' ∉ e.digest := fun h ↦ hhex (e.hex _ h)
  simp [line, hdigest, hmarker, e.noLineFeed]

theorem splitEntry_append (rest : Text) :
    splitEntry (e.digest ++ ' ' :: rest) =
      if stripMarker (rest.dropWhile isWhitespace) = [] then none
      else some (e.digest, stripMarker (rest.dropWhile isWhitespace)) := by
  rw [splitEntry, splitFirst_append e.digest_not_whitespace (by decide)]
  simp only [Option.bind_eq_bind, Option.bind_some, e.digest_toLower, e.digest_ne, false_or]

theorem splitEntry_digest : splitEntry e.digest = none := by
  rw [splitEntry, splitFirst_of_forall e.digest_not_whitespace]
  rfl

theorem stripMarker_marked (name : Text) : stripMarker ('*' :: name) = name := rfl

/-- The parser reads the digest and what it keeps of the name. -/
theorem entryOf_line : entryOf (lineOf (e.line ++ ['\n'])) =
    if e.kept = [] then none else some (e.digest, e.kept) := by
  have hne : ∀ rest : Text, e.digest ++ rest ≠ [] := fun rest ↦ by simp [e.digest_ne]
  rw [entryOf, trim_lineOf, line, trim_append e.digest_ne e.digest_not_whitespace, if_neg (hne _),
    kept, marker]
  cases e.binary with
  | true =>
      have hend : (' ' :: '*' :: e.name).rdropWhile isWhitespace =
          ' ' :: '*' :: e.name.rdropWhile isWhitespace := by
        rw [← List.singleton_append, ← List.singleton_append (l := e.name), ← List.append_assoc,
          rdropWhile_append]
        split
        · rename_i hname
          rw [hname]
          rfl
        · rfl
      rw [if_pos rfl, if_pos rfl, hend, splitEntry_append]
      rfl
  | false =>
      have hend : (' ' :: ' ' :: e.name).rdropWhile isWhitespace =
          if e.name.rdropWhile isWhitespace = [] then []
          else ' ' :: ' ' :: e.name.rdropWhile isWhitespace := by
        rw [← List.singleton_append, ← List.singleton_append (l := e.name), ← List.append_assoc,
          rdropWhile_append]
        rfl
      rw [if_neg Bool.false_ne_true, if_neg Bool.false_ne_true, hend]
      split
      · rename_i hname
        rw [hname, List.append_nil, splitEntry_digest]
        rfl
      · rw [splitEntry_append]
        rfl

theorem stripMarker_length (l : Text) : (stripMarker l).length ≤ l.length := by
  unfold stripMarker
  split
  · rw [List.length_tail]
    omega
  · exact le_rfl

theorem dropWhile_of_head {l : Text} (h : ∀ c ∈ l.head?, isWhitespace c = false) :
    l.dropWhile isWhitespace = l := by
  cases l with
  | nil => rfl
  | cons c l => rw [List.dropWhile_cons_of_neg (by simp [h c rfl])]

theorem kept_of_plain (h : e.Plain) : e.kept = e.name := by
  obtain ⟨hlast, hfirst⟩ := h
  have hend : e.name.rdropWhile isWhitespace = e.name := by
    rw [List.rdropWhile_eq_self_iff]
    intro hne
    simp [hlast _ (List.getLast?_eq_some_getLast hne)]
  rw [kept, hend]
  cases hb : e.binary with
  | true => rfl
  | false =>
      have hhead := hfirst hb
      rw [if_neg Bool.false_ne_true, dropWhile_of_head fun c hc ↦ (hhead c hc).1, stripMarker,
        if_neg fun hstar : e.name.head? = some '*' ↦ (hhead '*' hstar).2 rfl]

/-- What is kept of any other name is shorter. -/
theorem kept_lt_of_not_plain (h : ¬ e.Plain) : e.kept.length < e.name.length := by
  have hfront := List.rdropWhile_prefix isWhitespace (l := e.name)
  have hkept : e.kept.length ≤ (e.name.rdropWhile isWhitespace).length := by
    rw [kept]
    split
    · exact le_rfl
    · exact (stripMarker_length _).trans (List.length_dropWhile_le _ _)
  by_cases hlast : e.name.rdropWhile isWhitespace = e.name
  · -- Nothing is lost at the end, so the name starts with a blank or a marker.
    have hblank : ∀ c ∈ e.name.getLast?, isWhitespace c = false := by
      intro c hc
      obtain ⟨hne, rfl⟩ := List.mem_getLast?_eq_getLast hc
      simpa using List.rdropWhile_eq_self_iff.mp hlast hne
    obtain ⟨hb, c, hc, hbad⟩ : e.binary = false ∧ ∃ c ∈ e.name.head?,
        isWhitespace c = true ∨ c = '*' := by
      by_contra hnone
      refine h ⟨hblank, fun hb c hc ↦ ?_⟩
      by_contra hbad
      refine hnone ⟨hb, c, hc, ?_⟩
      by_cases hw : isWhitespace c = true
      · exact Or.inl hw
      · exact Or.inr (not_not.mp fun hstar ↦ hbad ⟨Bool.eq_false_iff.mpr hw, hstar⟩)
    obtain ⟨rest, hname⟩ := List.head?_eq_some_iff.mp hc
    rw [kept, hlast, hb, if_neg Bool.false_ne_true, hname, List.length_cons, Nat.lt_succ_iff]
    rcases hbad with hw | rfl
    · rw [List.dropWhile_cons_of_pos hw]
      exact (stripMarker_length _).trans (List.length_dropWhile_le _ _)
    · rw [List.dropWhile_cons_of_neg (by decide), stripMarker_marked]
  · have hlt := lt_of_le_of_ne hfront.length_le fun heq ↦ hlast (hfront.eq_of_length heq)
    exact hkept.trans_lt hlt

end Entry

/-- Files with different names. -/
structure Listing where
  entries : List Entry
  nodup : (entries.map (·.name)).Nodup

def Listing.text (l : Listing) : Text := (l.entries.map (·.line)).flatMap (· ++ ['\n'])

namespace Listing

variable (l : Listing)

/-- The pairs the parser collects. -/
def pairs : List (Text × Text) :=
  l.entries.filterMap fun e ↦ if e.kept = [] then none else some (e.digest, e.kept)

theorem parse_text (path : Text) :
    (Manifest.parse path l.text).entries = l.pairs.foldl insertEntry ∅ := by
  have hlines : ∀ s ∈ l.entries.map (·.line), '\n' ∉ s := by
    intro s hs
    obtain ⟨e, -, rfl⟩ := List.mem_map.mp hs
    exact e.lineFeed_not_mem_line
  rw [Manifest.parse, text, lines_flatMap hlines, List.map_map, List.filterMap_map]
  dsimp only
  congr 1
  exact List.filterMap_congr fun e _ ↦ e.entryOf_line

theorem mem_pairs {p : Text × Text} :
    p ∈ l.pairs → ∃ e ∈ l.entries, e.kept = p.2 := by
  intro hp
  obtain ⟨e, he, hkept⟩ := List.mem_filterMap.mp hp
  split at hkept
  · cases hkept
  · exact ⟨e, he, congrArg Prod.snd (Option.some.inj hkept)⟩

theorem pairs_of_plain (h : ∀ e ∈ l.entries, e.Plain) :
    l.pairs = l.entries.map fun e ↦ (e.digest, e.name) := by
  rw [pairs, ← List.filterMap_eq_map]
  refine List.filterMap_congr fun e he ↦ ?_
  rw [e.kept_of_plain (h e he), if_neg e.name_ne]
  rfl

/-- What was written comes back: an entry for each name, with its digest. -/
def RoundTrips (path : Text) : Prop :=
  (Manifest.parse path l.text).len = l.entries.length ∧
    ∀ e ∈ l.entries, (Manifest.parse path l.text).lookup e.name = some e.digest

theorem roundTrips_of_plain (path : Text) (h : ∀ e ∈ l.entries, e.Plain) :
    l.RoundTrips path := by
  have hnodup : (l.pairs.map (·.2)).Nodup := by
    rw [l.pairs_of_plain h, List.map_map]
    exact l.nodup
  constructor
  · rw [Manifest.len, l.parse_text, card_keys_foldl hnodup, l.pairs_of_plain h, List.length_map]
  · intro e he
    have hmem : (e.digest, e.name) ∈ l.pairs := by
      rw [l.pairs_of_plain h]
      exact List.mem_map_of_mem he
    rw [Manifest.lookup, l.parse_text]
    exact lookup_foldl_of_mem hnodup hmem

/-- A name under which a digest is found is what the parser keeps of some name. -/
theorem exists_kept {path n h : Text} (hn : (Manifest.parse path l.text).lookup n = some h) :
    ∃ e ∈ l.entries, e.kept = n := by
  have hmem : n ∈ l.pairs.foldl insertEntry ∅ := by
    rw [← l.parse_text path]
    exact Finmap.mem_iff.mpr ⟨h, hn⟩
  rw [mem_foldl_insertEntry] at hmem
  obtain hempty | ⟨p, hp, rfl⟩ := hmem
  · exact absurd hempty Finmap.notMem_empty
  · exact l.mem_pairs hp

/-- The longest name that is not plain is found under no name. -/
theorem plain_of_roundTrips {path : Text} (h : l.RoundTrips path) : ∀ e ∈ l.entries, e.Plain := by
  classical
  by_contra hall
  push Not at hall
  obtain ⟨e₀, he₀, hbad₀⟩ := hall
  obtain ⟨e, he⟩ : ∃ e, e ∈ (l.entries.filter fun e ↦ ¬ e.Plain).argmax (·.name.length) := by
    refine Option.ne_none_iff_exists'.mp fun hnone ↦ ?_
    have hnil := List.argmax_eq_none.mp hnone
    have hmem : e₀ ∈ l.entries.filter fun e ↦ ¬ e.Plain := List.mem_filter.mpr ⟨he₀, by simpa⟩
    rw [hnil] at hmem
    cases hmem
  obtain ⟨hmem, hbad⟩ := List.mem_filter.mp (List.argmax_mem he)
  have hbad : ¬ e.Plain := by simpa using hbad
  obtain ⟨e', he', hkept⟩ := l.exists_kept (h.2 e hmem)
  by_cases hplain : e'.Plain
  · -- A plain name is kept, and no other file has it.
    have hname : e'.name = e.name := (e'.kept_of_plain hplain).symm.trans hkept
    obtain rfl := List.inj_on_of_nodup_map l.nodup he' hmem hname
    exact hbad hplain
  · have hlonger := e'.kept_lt_of_not_plain hplain
    rw [hkept] at hlonger
    have hmem' : e' ∈ l.entries.filter fun e ↦ ¬ e.Plain := List.mem_filter.mpr ⟨he', by simpa⟩
    have hle : e'.name.length ≤ e.name.length :=
      List.le_of_mem_argmax (f := fun e : Entry ↦ e.name.length) hmem' he
    omega

/-- Exactly plain names survive. -/
theorem roundTrips_iff_plain (path : Text) :
    l.RoundTrips path ↔ ∀ e ∈ l.entries, e.Plain :=
  ⟨l.plain_of_roundTrips, l.roundTrips_of_plain path⟩

end Listing

/-- The file `*a`, in text mode. -/
def starred : Listing where
  entries := [{
    digest := ['0']
    name := ['*', 'a']
    binary := false
    digest_ne := by decide
    hex := by simp [hexDigits]
    name_ne := by decide
    noLineFeed := by decide
    noBackslash := by decide }]
  nodup := List.nodup_singleton _

theorem starred_lost : ¬ ∀ (path : Text) (l : Listing), l.RoundTrips path := by
  intro h
  have hlookup := (h [] starred).2 _ List.mem_cons_self
  have hnone : (Manifest.parse [] starred.text).lookup ['*', 'a'] = none := by decide
  cases hnone.symm.trans hlookup

end VeraqisRecover.Analyze.HashManifest
