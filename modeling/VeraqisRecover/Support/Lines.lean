import VeraqisRecover.Support.LossyUtf8
import Mathlib.Data.List.DropRight

/-!
# Lines of a text

Splitting a text into lines, trimming a line, and splitting it at the first blank.  Lines that
hold no line feed are read back from a text in which one follows each of them.
-/

namespace Lines

open LossyUtf8

section Lists

variable {α : Type} (p : α → Bool)

/-- The list without the elements at both ends that `p` holds of. -/
def trim (l : List α) : List α := (l.dropWhile p).rdropWhile p

/-- What stands before the first element that `p` holds of, and what stands behind it. -/
def splitFirst (l : List α) : List α × Option (List α) :=
  (l.takeWhile (!p ·), (l.dropWhile (!p ·)).tail?)

theorem rdropWhile_append (l m : List α) : (l ++ m).rdropWhile p =
    if m.rdropWhile p = [] then l.rdropWhile p else l ++ m.rdropWhile p := by
  rw [List.rdropWhile, List.reverse_append, List.dropWhile_append]
  simp only [List.rdropWhile, List.reverse_eq_nil_iff, List.isEmpty_iff]
  split
  · rfl
  · rw [List.reverse_append, List.reverse_reverse]

/-- The ends may be trimmed in either order. -/
theorem rdropWhile_dropWhile (l : List α) :
    (l.dropWhile p).rdropWhile p = (l.rdropWhile p).dropWhile p := by
  induction l with
  | nil => rfl
  | cons a l ih =>
      have happend := rdropWhile_append p [a] l
      rw [List.singleton_append] at happend
      by_cases ha : p a = true
      · rw [List.dropWhile_cons_of_pos ha, ih, happend]
        split
        · rename_i hl
          rw [hl, List.rdropWhile_singleton, if_pos ha]
        · rw [List.singleton_append, List.dropWhile_cons_of_pos ha]
      · have hkept : (a :: l).rdropWhile p = a :: l.rdropWhile p := by
          rw [happend, List.rdropWhile_singleton, if_neg ha, List.singleton_append]
          split
          · rename_i hl
            rw [hl]
          · rfl
        rw [List.dropWhile_cons_of_neg ha, hkept, List.dropWhile_cons_of_neg ha]

variable {p}

theorem dropWhile_append_of_ne {l : List α} (hne : l ≠ []) (hl : ∀ a ∈ l, p a = false)
    (m : List α) : (l ++ m).dropWhile p = l ++ m := by
  cases l with
  | nil => exact absurd rfl hne
  | cons a l =>
      rw [List.cons_append, List.dropWhile_cons_of_neg (by simp [hl a List.mem_cons_self])]

theorem rdropWhile_of_forall {l : List α} (hl : ∀ a ∈ l, p a = false) : l.rdropWhile p = l := by
  rw [List.rdropWhile_eq_self_iff]
  intro hne
  simp [hl _ (List.getLast_mem hne)]

/-- Trimming behind a beginning that has nothing to trim. -/
theorem trim_append {l : List α} (hne : l ≠ []) (hl : ∀ a ∈ l, p a = false) (m : List α) :
    trim p (l ++ m) = l ++ m.rdropWhile p := by
  rw [trim, dropWhile_append_of_ne hne hl, rdropWhile_append]
  split
  · rename_i hm
    rw [hm, List.append_nil, rdropWhile_of_forall hl]
  · rfl

theorem splitFirst_of_forall {l : List α} (hl : ∀ a ∈ l, p a = false) :
    splitFirst p l = (l, none) := by
  have htake : l.takeWhile (!p ·) = l := by
    rw [List.takeWhile_eq_self_iff]
    simpa using hl
  have hdrop : l.dropWhile (!p ·) = [] := by
    rw [List.dropWhile_eq_nil_iff]
    simpa using hl
  rw [splitFirst, htake, hdrop]
  rfl

theorem splitFirst_append {l : List α} (hl : ∀ a ∈ l, p a = false) {a : α} (ha : p a = true)
    (m : List α) : splitFirst p (l ++ a :: m) = (l, some m) := by
  have hl' : ∀ b ∈ l, (!p b) = true := by simpa using hl
  rw [splitFirst, List.takeWhile_append_of_pos hl', List.dropWhile_append_of_pos hl',
    List.takeWhile_cons_of_neg (by simp [ha]), List.dropWhile_cons_of_neg (by simp [ha]),
    List.append_nil]
  rfl

variable [DecidableEq α]

/-- The pieces of a list, each ending behind a separator. -/
def splitInclusive (sep : α) : List α → List (List α)
  | [] => []
  | a :: rest =>
      if a = sep then [a] :: splitInclusive sep rest
      else match splitInclusive sep rest with
        | [] => [[a]]
        | piece :: pieces => (a :: piece) :: pieces

theorem splitInclusive_append {sep : α} {l : List α} (hl : sep ∉ l) (rest : List α) :
    splitInclusive sep (l ++ sep :: rest) = (l ++ [sep]) :: splitInclusive sep rest := by
  induction l with
  | nil => rw [List.nil_append, splitInclusive, if_pos rfl, List.nil_append]
  | cons a l ih =>
      rw [List.mem_cons, not_or] at hl
      rw [List.cons_append, splitInclusive, if_neg (Ne.symm hl.1), ih hl.2]
      rfl

theorem splitInclusive_flatMap {sep : α} {ls : List (List α)} (hls : ∀ l ∈ ls, sep ∉ l) :
    splitInclusive sep (ls.flatMap (· ++ [sep])) = ls.map (· ++ [sep]) := by
  induction ls with
  | nil => rfl
  | cons l ls ih =>
      rw [List.flatMap_cons, List.append_assoc, List.singleton_append,
        splitInclusive_append (hls l List.mem_cons_self),
        ih fun l' hl' ↦ hls l' (List.mem_cons_of_mem l hl'), List.map_cons]

end Lists

/-! ## Texts -/

/-- `char::is_whitespace`: the Unicode property `White_Space`. -/
def isWhitespace (c : Char) : Bool :=
  let n := c.toNat
  9 ≤ n && n ≤ 13 || n = 0x20 || n = 0x85 || n = 0xA0 || n = 0x1680 || 0x2000 ≤ n && n ≤ 0x200A ||
    n = 0x2028 || n = 0x2029 || n = 0x202F || n = 0x205F || n = 0x3000

/-- The line without the last character, if that is `c`. -/
def stripLast (c : Char) (l : Text) : Option Text :=
  if l.getLast? = some c then some l.dropLast else none

/-- A piece without its line feed, and without a carriage return in front of that. -/
def lineOf (piece : Text) : Text :=
  match stripLast '\n' piece with
  | none => piece
  | some line => (stripLast '\r' line).getD line

/-- `str::lines` -/
def lines (text : Text) : List Text := (splitInclusive '\n' text).map lineOf

theorem lines_flatMap {ls : List Text} (hls : ∀ l ∈ ls, '\n' ∉ l) :
    lines (ls.flatMap (· ++ ['\n'])) = ls.map fun l ↦ lineOf (l ++ ['\n']) := by
  rw [lines, splitInclusive_flatMap hls, List.map_map]
  rfl

/-- What `lines` leaves out is trimmed anyway. -/
theorem trim_lineOf (l : Text) :
    trim isWhitespace (lineOf (l ++ ['\n'])) = trim isWhitespace l := by
  have hstrip : stripLast '\n' (l ++ ['\n']) = some l := by simp [stripLast]
  have hend : (lineOf (l ++ ['\n'])).rdropWhile isWhitespace = l.rdropWhile isWhitespace := by
    rw [lineOf, hstrip]
    dsimp only
    unfold stripLast
    split
    · rename_i hlast
      have hdrop := List.rdropWhile_concat_pos isWhitespace l.dropLast '\r' (by decide)
      rw [List.dropLast_append_getLast? '\r' hlast] at hdrop
      exact hdrop.symm
    · rfl
  rw [trim, trim, rdropWhile_dropWhile, rdropWhile_dropWhile, hend]

end Lines
