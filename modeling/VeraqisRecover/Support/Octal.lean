import VeraqisRecover.Support.ByteString

/-!
# Octal numerals in ASCII

Numbers written most significant digit first and padded with zeros, as
`format!` writes them, and read back as `u64::from_str_radix` reads them.
-/

namespace Octal

open ByteString

def isDigit (b : UInt8) : Bool := 0x30 ≤ b.toNat && b.toNat ≤ 0x37

/-- The number a string of octal digits denotes. -/
def value (s : Bytes) : ℕ := s.foldl (fun v b ↦ 8 * v + (b.toNat - 0x30)) 0

/-- `u64::from_str_radix(s, 8)`: an optional plus sign, then at least one digit. -/
def fromStrRadix (s : Bytes) : Option ℕ :=
  let digits := if s.head? = some 0x2b then s.tail else s
  if digits ≠ [] ∧ digits.all isDigit ∧ value digits ≤ wordMax then some (value digits) else none

/-- The numeral of `v` without leading zeros. -/
def digits (v : ℕ) : Bytes :=
  if v = 0 then [0x30] else ((Nat.digits 8 v).map fun d ↦ UInt8.ofNat (0x30 + d)).reverse

/-- The numeral of `v` padded with zeros to at least `w` digits, `format!("{v:0w$o}")`. -/
def padded (w v : ℕ) : Bytes := List.replicate (w - (digits v).length) 0x30 ++ digits v

theorem value_append (s t : Bytes) :
    value (s ++ t) = t.foldl (fun v b ↦ 8 * v + (b.toNat - 0x30)) (value s) := by
  simp [value]

theorem value_replicate_zero (n : ℕ) : value (List.replicate n 0x30) = 0 := by
  induction n with
  | zero => rfl
  | succ n ih =>
      rw [List.replicate_succ', value_append, ih]
      rfl

/-- Read most significant digit first, the digits of a numeral give its value. -/
theorem value_reverse_map (ds : List ℕ) (h : ∀ d ∈ ds, d < 8) :
    value ((ds.map fun d ↦ UInt8.ofNat (0x30 + d)).reverse) = Nat.ofDigits 8 ds := by
  induction ds with
  | nil => rfl
  | cons d ds ih =>
      have hd := h d List.mem_cons_self
      have hds := ih fun e he ↦ h e (List.mem_cons_of_mem d he)
      have hval : (UInt8.ofNat (0x30 + d)).toNat - 0x30 = d := by
        rw [UInt8.toNat_ofNat']
        omega
      rw [List.map_cons, List.reverse_cons, value_append, hds, List.foldl_cons, List.foldl_nil,
        hval, Nat.ofDigits_cons]
      omega

theorem value_digits (v : ℕ) : value (digits v) = v := by
  unfold digits
  split
  · rename_i hv
    rw [hv]
    rfl
  · rw [value_reverse_map _ fun d hd ↦ Nat.digits_lt_base (by omega) hd, Nat.ofDigits_digits]

theorem all_digits (v : ℕ) : (digits v).all isDigit = true := by
  unfold digits
  split
  · rfl
  · rw [List.all_reverse, List.all_map, List.all_eq_true]
    intro d hd
    have hlt := Nat.digits_lt_base (b := 8) (by omega) hd
    simp only [Function.comp_apply, isDigit, UInt8.toNat_ofNat', Bool.and_eq_true,
      decide_eq_true_eq]
    omega

theorem value_lt {s : Bytes} (h : s.all isDigit = true) : value s < 8 ^ s.length := by
  induction s using List.reverseRecOn with
  | nil => decide
  | append_singleton s b ih =>
      rw [List.all_append, Bool.and_eq_true] at h
      have hs := ih h.1
      have hb : b.toNat ≤ 0x37 := by
        have hdigit : isDigit b = true := by simpa using h.2
        simp only [isDigit, Bool.and_eq_true, decide_eq_true_eq] at hdigit
        exact hdigit.2
      rw [value_append, List.length_append, List.length_singleton, Nat.pow_succ]
      change 8 * value s + (b.toNat - 0x30) < _
      omega

/-- A numeral of `n` characters denotes less than `8 ^ n`. -/
theorem fromStrRadix_lt {s : Bytes} {v : ℕ} (h : fromStrRadix s = some v) : v < 8 ^ s.length := by
  unfold fromStrRadix at h
  obtain ⟨⟨-, hall, -⟩, hv⟩ := Option.ite_none_right_eq_some.mp h
  rw [← Option.some.inj hv]
  refine (value_lt hall).trans_le (Nat.pow_le_pow_right (by decide) ?_)
  split
  · exact (List.tail_sublist s).length_le
  · exact le_rfl

theorem digits_ne_nil (v : ℕ) : digits v ≠ [] := by
  unfold digits
  split
  · simp
  · rename_i hv
    simpa [Nat.digits_eq_nil_iff_eq_zero] using hv

theorem length_digits_le {v w : ℕ} (hw : 0 < w) (hv : v < 8 ^ w) : (digits v).length ≤ w := by
  unfold digits
  split
  · exact hw
  · rw [List.length_reverse, List.length_map]
    exact (Nat.digits_length_le_iff (by omega) v).mpr hv

theorem length_padded {v w : ℕ} (hw : 0 < w) (hv : v < 8 ^ w) : (padded w v).length = w := by
  have hle := length_digits_le hw hv
  rw [padded, List.length_append, List.length_replicate]
  omega

theorem all_padded (w v : ℕ) : (padded w v).all isDigit = true := by
  rw [padded, List.all_append, all_digits, Bool.and_true, List.all_eq_true]
  intro b hb
  rw [List.eq_of_mem_replicate hb]
  rfl

theorem value_padded (w v : ℕ) : value (padded w v) = v := by
  rw [padded, value_append, value_replicate_zero]
  exact value_digits v

theorem padded_ne_nil (w v : ℕ) : padded w v ≠ [] := by
  simp [padded, digits_ne_nil]

/-- A number reads back from its padded numeral. -/
theorem fromStrRadix_padded (w : ℕ) {v : ℕ} (hv : v ≤ wordMax) :
    fromStrRadix (padded w v) = some v := by
  have hall := all_padded w v
  have hplus : (padded w v).head? ≠ some 0x2b := by
    intro hhead
    have hmem := List.mem_of_head? hhead
    exact absurd (List.all_eq_true.mp hall _ hmem) (by decide)
  unfold fromStrRadix
  dsimp only
  rw [if_neg hplus, if_pos ⟨padded_ne_nil w v, hall, by rwa [value_padded]⟩, value_padded]

end Octal
