import VeraqisRecover.Support.Checked
import VeraqisRecover.Support.Overwrite

/-!
# Data that agree from an offset on

What reads nothing in front of the offset cannot tell two such byte strings
apart.
-/

namespace ByteString

open Checked

/-- As long as each other, and equal from `k` on. -/
structure SameFrom (k : ℕ) (d e : Bytes) : Prop where
  length : d.length = e.length
  drop : d.drop k = e.drop k

namespace SameFrom

variable {k i a b : ℕ} {d e : Bytes}

theorem symm (h : SameFrom k d e) : SameFrom k e d := ⟨h.length.symm, h.drop.symm⟩

theorem drop_of_le (h : SameFrom k d e) (hi : k ≤ i) : d.drop i = e.drop i := by
  obtain ⟨j, rfl⟩ := Nat.exists_eq_add_of_le hi
  rw [← List.drop_drop, ← List.drop_drop, h.drop]

theorem getElem? (h : SameFrom k d e) (hi : k ≤ i) : d[i]? = e[i]? := by
  have hdrop := h.drop_of_le hi
  have hhead : (d.drop i)[0]? = (e.drop i)[0]? := by rw [hdrop]
  simpa using hhead

theorem index (h : SameFrom k d e) (hi : k ≤ i) : index d i = index e i := by
  rw [Checked.index, Checked.index, h.getElem? hi]

theorem range (h : SameFrom k d e) (ha : k ≤ a) : range d a b = range e a b := by
  rw [Checked.range, Checked.range, h.length, h.drop_of_le ha]

theorem take_drop (h : SameFrom k d e) (ha : k ≤ a) : (d.take b).drop a = (e.take b).drop a := by
  rw [List.drop_take, List.drop_take, h.drop_of_le ha]

theorem u16le (h : SameFrom k d e) (hi : k ≤ i) : u16le d i = u16le e i := by
  rw [ByteString.u16le, ByteString.u16le, h.getElem? hi, h.getElem? (Nat.le_succ_of_le hi)]

theorem overwrite {s : Bytes} (hs : s.length ≤ d.length) :
    SameFrom s.length (overwrite d 0 s) d :=
  ⟨length_overwrite (by omega), by
    rw [ByteString.overwrite, List.take_zero, List.nil_append, Nat.zero_add,
      List.drop_left]⟩

end SameFrom

end ByteString
