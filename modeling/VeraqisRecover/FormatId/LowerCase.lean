import VeraqisRecover.FormatId.Table

/-!
# Unicode lower-casing, seen from ASCII

Outside ASCII only the Kelvin sign and the dotted capital I have a lower-case form with an ASCII
character in it.  What a lower-cased name ends in, as far as ASCII goes, is therefore decided
character by character.
-/

namespace VeraqisRecover.FormatId

open LossyUtf8

def IsAscii (c : Char) : Prop := c.toNat < 128

instance : DecidablePred IsAscii := fun c ↦ Nat.decLt c.toNat 128

def kelvinSign : Char := '\u212A'

def dottedCapitalI : Char := '\u0130'

def dotAbove : Char := '\u0307'

theorem toLower_ascii {c : Char} (hc : IsAscii c) : IsAscii c.toLower := by
  have hall : ∀ n < 128, IsAscii (Char.ofNat n).toLower := by decide
  have hn := hall c.toNat hc
  rwa [Char.ofNat_toNat] at hn

theorem toLower_of_not_ascii {c : Char} (hc : ¬ IsAscii c) : c.toLower = c := by
  have hge : 128 ≤ c.val.toNat := Nat.le_of_not_lt hc
  unfold Char.toLower
  rw [dif_neg]
  rintro ⟨-, hle⟩
  have hZ : c.val.toNat ≤ 90 := hle
  omega

/-- Two texts end alike: they are one ASCII text, or the same ASCII text follows the last
other character of both. -/
inductive SameEnd : Text → Text → Prop
  | whole (w : Text) (hw : ∀ c ∈ w, IsAscii c) : SameEnd w w
  | cut (x y : Text) {a b : Char} (w : Text) (ha : ¬ IsAscii a) (hb : ¬ IsAscii b) :
      SameEnd (x ++ a :: w) (y ++ b :: w)

namespace SameEnd

theorem cons {s t : Text} (h : SameEnd s t) {c : Char} (hc : IsAscii c) :
    SameEnd (c :: s) (c :: t) := by
  cases h with
  | whole w hw => exact whole (c :: s) (List.forall_mem_cons.mpr ⟨hc, hw⟩)
  | cut x y w ha hb => exact cut (c :: x) (c :: y) w ha hb

/-- Nothing before a character outside ASCII counts. -/
theorem append {s t : Text} (h : SameEnd s t) (x y : Text) {a b : Char} (ha : ¬ IsAscii a)
    (hb : ¬ IsAscii b) : SameEnd ((x ++ [a]) ++ s) ((y ++ [b]) ++ t) := by
  rw [List.append_assoc, List.append_assoc]
  cases h with
  | whole w hw => exact cut x y s ha hb
  | cut x' y' w ha' hb' =>
      have h' := cut (x ++ a :: x') (y ++ b :: y') w ha' hb'
      rwa [List.append_assoc, List.append_assoc] at h'

theorem suffix_cut_iff {x w ext : Text} {a : Char} (ha : a ∉ ext) :
    ext <:+ x ++ a :: w ↔ ext <:+ w := by
  constructor
  · intro hext
    rcases List.suffix_or_suffix_of_suffix hext (List.suffix_append x (a :: w)) with hin | hover
    · rcases List.suffix_cons_iff.mp hin with rfl | hin
      · exact absurd List.mem_cons_self ha
      · exact hin
    · exact absurd (hover.subset List.mem_cons_self) ha
  · intro hext
    exact (hext.trans (List.suffix_cons a w)).trans (List.suffix_append x _)

theorem suffix_iff {s t ext : Text} (h : SameEnd s t) (hext : ∀ c ∈ ext, IsAscii c) :
    ext <:+ s ↔ ext <:+ t := by
  cases h with
  | whole w hw => rfl
  | cut x y w ha hb =>
      rw [suffix_cut_iff fun hmem ↦ ha (hext _ hmem), suffix_cut_iff fun hmem ↦ hb (hext _ hmem)]

end SameEnd

/-- The default lower-casing of Unicode.  What a character becomes may depend on what stands
before and after it, as for the final sigma. -/
structure LowerCasing where
  map : Text → Char → Text → Text
  ascii : ∀ before {c} after, IsAscii c → map before c after = [c.toLower]
  kelvin : ∀ before after, map before kelvinSign after = ['k']
  dotted : ∀ before after, map before dottedCapitalI after = ['i', dotAbove]
  other : ∀ before {c} after, ¬ IsAscii c → c ≠ kelvinSign → c ≠ dottedCapitalI →
    map before c after ≠ [] ∧ ∀ d ∈ map before c after, ¬ IsAscii d

namespace LowerCasing

def lowerFrom (L : LowerCasing) (before : Text) : Text → Text
  | [] => []
  | c :: after => L.map before c after ++ L.lowerFrom (before ++ [c]) after

def toLowerCase (L : LowerCasing) (name : Text) : Text := L.lowerFrom [] name

/-- The mapping of every single character as far as it is ASCII. -/
def fold (c : Char) : Char := if c = kelvinSign then 'k' else c.toLower

theorem fold_of_ascii {c : Char} (hc : IsAscii c) : fold c = c.toLower := by
  rw [fold, if_neg]
  rintro rfl
  exact absurd hc (by decide)

theorem map_ends (L : LowerCasing) (before after : Text) {c : Char} (hc : ¬ IsAscii c)
    (hk : c ≠ kelvinSign) : ∃ x a, L.map before c after = x ++ [a] ∧ ¬ IsAscii a := by
  by_cases hI : c = dottedCapitalI
  · subst hI
    exact ⟨['i'], dotAbove, L.dotted before after, by decide⟩
  · obtain ⟨hne, hall⟩ := L.other before after hc hk hI
    obtain ⟨x, a, hxa⟩ := (List.eq_nil_or_concat' _).resolve_left hne
    exact ⟨x, a, hxa, hall a (by rw [hxa]; exact List.mem_append_right _ List.mem_cons_self)⟩

theorem sameEnd_lowerFrom (L : LowerCasing) (before name : Text) :
    SameEnd (L.lowerFrom before name) (name.map fold) := by
  induction name generalizing before with
  | nil => exact .whole [] (by simp)
  | cons c after ih =>
      rw [lowerFrom, List.map_cons]
      have hafter := ih (before ++ [c])
      by_cases hc : IsAscii c
      · rw [L.ascii before after hc, fold_of_ascii hc]
        exact hafter.cons (toLower_ascii hc)
      · by_cases hk : c = kelvinSign
        · subst hk
          rw [L.kelvin]
          exact hafter.cons (by decide)
        · obtain ⟨x, a, hmap, ha⟩ := L.map_ends before after hc hk
          rw [hmap, fold, if_neg hk, toLower_of_not_ascii hc]
          exact hafter.append x [] ha hc

theorem suffix_toLowerCase_iff (L : LowerCasing) {ext : Text} (hext : ∀ c ∈ ext, IsAscii c)
    (name : Text) : ext <:+ L.toLowerCase name ↔ ext <:+ name.map fold :=
  (L.sameEnd_lowerFrom [] name).suffix_iff hext

/-- Lower-casing as far as ASCII and the two characters that become ASCII go; every other
character is left as it is. -/
def plain : LowerCasing where
  map _ c _ := if c = kelvinSign then ['k'] else if c = dottedCapitalI then ['i', dotAbove]
    else [c.toLower]
  ascii := by
    intro _ c _ hc
    have hk : c ≠ kelvinSign := by
      rintro rfl
      exact absurd hc (by decide)
    have hI : c ≠ dottedCapitalI := by
      rintro rfl
      exact absurd hc (by decide)
    rw [if_neg hk, if_neg hI]
  kelvin := by
    intro _ _
    rw [if_pos rfl]
  dotted := by
    intro _ _
    rw [if_neg (by decide), if_pos rfl]
  other := by
    intro _ c _ hc hk hI
    rw [if_neg hk, if_neg hI, toLower_of_not_ascii hc]
    exact ⟨List.cons_ne_nil _ _, fun d hd ↦ by rwa [List.mem_singleton.mp hd]⟩

end LowerCasing

end VeraqisRecover.FormatId
