import VeraqisRecover.Support.LossyUtf8

/-!
# Numerals

Digits of a radix, the parser of unsigned numbers with its optional plus sign,
and bytes written as pairs of hexadecimal digits.
-/

namespace Radix

open ByteString LossyUtf8

/-- `char::to_digit` of the character with this code. -/
def toDigit (radix code : ℕ) : Option ℕ :=
  let value :=
    if 0x30 ≤ code ∧ code ≤ 0x39 then some (code - 0x30)
    else if 0x61 ≤ code ∧ code ≤ 0x7A then some (code - 0x61 + 10)
    else if 0x41 ≤ code ∧ code ≤ 0x5A then some (code - 0x41 + 10)
    else none
  value.filter (· < radix)

/-- The value with one more digit behind it, unless that exceeds `max`. -/
def pushDigit (radix max v : ℕ) (b : UInt8) : Option ℕ := do
  let d ← toDigit radix b.toNat
  if v * radix + d ≤ max then some (v * radix + d) else none

def digitsValue (radix max : ℕ) (s : Bytes) : Option ℕ := s.foldlM (pushDigit radix max) 0

/-- `from_str_radix` of an unsigned type with the largest value `max`: one plus sign may stand
before the digits. -/
def fromStrRadix (radix max : ℕ) (s : Bytes) : Option ℕ :=
  match s with
  | [] => none
  | [0x2B] => none
  | 0x2B :: s => digitsValue radix max s
  | s => digitsValue radix max s

def lowerDigits : Text := "0123456789abcdef".toList

def upperDigits : Text := "0123456789ABCDEF".toList

/-- Two digits for each byte, the high half first. -/
def hexWith (digits : Text) (bytes : Bytes) : Text :=
  bytes.flatMap fun b ↦
    [digits.getD (b.toNat >>> 4) '0', digits.getD (b.toNat &&& 0x0F) '0']

def hex (bytes : Bytes) : Text := hexWith lowerDigits bytes

theorem toDigit_lt {radix code d : ℕ} (h : toDigit radix code = some d) : d < radix := by
  rw [toDigit, Option.filter_eq_some_iff] at h
  exact of_decide_eq_true h.2

theorem toDigit_ascii {radix code d : ℕ} (h : toDigit radix code = some d) :
    0x30 ≤ code ∧ code < 0x80 := by
  rw [toDigit, Option.filter_eq_some_iff] at h
  obtain ⟨hvalue, -⟩ := h
  split at hvalue
  · omega
  · split at hvalue
    · omega
    · split at hvalue
      · omega
      · cases hvalue

/-! ## Pairs of digits -/

/-- Sixteen ASCII digits, each at its value. -/
def DigitTable (digits : Text) : Prop :=
  ∀ v < 16, toDigit 16 (digits.getD v '0').toNat = some v

theorem digitTable_lower : DigitTable lowerDigits := by
  unfold DigitTable
  decide

theorem digitTable_upper : DigitTable upperDigits := by
  unfold DigitTable
  decide

section Pairs

variable {digits : Text}

/-- The byte of the digit with this value. -/
def digitByte (digits : Text) (v : ℕ) : UInt8 := UInt8.ofNat (digits.getD v '0').toNat

def pairOf (digits : Text) (b : UInt8) : Bytes :=
  [digitByte digits (b.toNat >>> 4), digitByte digits (b.toNat &&& 0x0F)]

theorem shiftRight_lt (b : UInt8) : b.toNat >>> 4 < 16 := by
  have hb := b.toNat_lt
  rw [Nat.shiftRight_eq_div_pow]
  omega

theorem and_lt (b : UInt8) : b.toNat &&& 0x0F < 16 := by
  rw [show 0x0F = 2 ^ 4 - 1 from rfl, Nat.and_two_pow_sub_one_eq_mod]
  exact Nat.mod_lt _ (Nat.two_pow_pos 4)

/-- A byte from its halves. -/
theorem halves_eq (b : UInt8) : (b.toNat >>> 4) * 16 + (b.toNat &&& 0x0F) = b.toNat := by
  rw [show 0x0F = 2 ^ 4 - 1 from rfl, Nat.and_two_pow_sub_one_eq_mod, Nat.shiftRight_eq_div_pow]
  omega

theorem toNat_digitByte (h : DigitTable digits) {v : ℕ} (hv : v < 16) :
    (digitByte digits v).toNat = (digits.getD v '0').toNat := by
  have hascii := (toDigit_ascii (h v hv)).2
  rw [digitByte, UInt8.toNat_ofNat', Nat.mod_eq_of_lt (by omega)]

theorem toDigit_digitByte (h : DigitTable digits) {v : ℕ} (hv : v < 16) :
    toDigit 16 (digitByte digits v).toNat = some v := by
  rw [toNat_digitByte h hv, h v hv]

theorem asBytes_hexWith (h : DigitTable digits) (bytes : Bytes) :
    asBytes (hexWith digits bytes) = bytes.flatMap (pairOf digits) := by
  have hdigit : ∀ v < 16, String.utf8EncodeChar (digits.getD v '0') = [digitByte digits v] :=
    fun v hv ↦ utf8EncodeChar_ascii (toDigit_ascii (h v hv)).2
  rw [asBytes, hexWith, List.flatMap_assoc]
  refine List.flatMap_congr fun b _ ↦ ?_
  rw [List.flatMap_cons, List.flatMap_cons, List.flatMap_nil, hdigit _ (shiftRight_lt b),
    hdigit _ (and_lt b)]
  rfl

/-- The code of a digit is that of the small letter or the figure for its value, up to case. -/
theorem toLower_of_toDigit {code d : ℕ} (h : toDigit 16 code = some d) :
    (Char.ofNat code).toLower = lowerDigits.getD d '0' := by
  have hall : ∀ code < 0x80, ∀ d < 16, toDigit 16 code = some d →
      (Char.ofNat code).toLower = lowerDigits.getD d '0' := by
    decide
  exact hall code (toDigit_ascii h).2 d (toDigit_lt h) h

end Pairs

/-! ## Two digits as a number -/

section Numbers

variable {radix max v w : ℕ} {a b : UInt8}

theorem pushDigit_eq_some : pushDigit radix max v b = some w ↔
    ∃ d, toDigit radix b.toNat = some d ∧ v * radix + d ≤ max ∧ w = v * radix + d := by
  rw [pushDigit, Option.bind_eq_bind, Option.bind_eq_some_iff]
  refine exists_congr fun d ↦ and_congr_right fun _ ↦ ?_
  split
  · rw [Option.some.injEq, eq_comm]
    exact (and_iff_right ‹_›).symm
  · exact iff_of_false nofun fun h ↦ absurd h.1 ‹_›

theorem digitsValue_singleton : digitsValue radix max [b] = pushDigit radix max 0 b := by
  rw [digitsValue, List.foldlM_cons]
  exact bind_pure _

theorem digitsValue_pair : digitsValue radix max [a, b] =
    (pushDigit radix max 0 a).bind fun v ↦ pushDigit radix max v b := by
  rw [digitsValue, List.foldlM_cons]
  refine congrArg _ (funext fun v ↦ ?_)
  rw [List.foldlM_cons]
  exact bind_pure _

theorem toDigit_plus : toDigit 16 (0x2B : UInt8).toNat = none := by decide

/-- A pair that parses: a plus sign with one digit, or two digits. -/
theorem fromStrRadix_pair_eq_some : fromStrRadix 16 255 [a, b] = some v ↔
    a = 0x2B ∧ toDigit 16 b.toNat = some v ∨
      ∃ x y, toDigit 16 a.toNat = some x ∧ toDigit 16 b.toNat = some y ∧ v = x * 16 + y := by
  by_cases ha : a = 0x2B
  · subst ha
    have hplus : fromStrRadix 16 255 [0x2B, b] = pushDigit 16 255 0 b := digitsValue_singleton
    rw [hplus, pushDigit_eq_some]
    constructor
    · rintro ⟨d, hd, -, rfl⟩
      rw [Nat.zero_mul, Nat.zero_add]
      exact Or.inl ⟨rfl, hd⟩
    · rintro (⟨-, hd⟩ | ⟨x, y, hx, -, -⟩)
      · have hlt := toDigit_lt hd
        exact ⟨v, hd, by omega, by omega⟩
      · rw [toDigit_plus] at hx
        cases hx
  · have hdigits : fromStrRadix 16 255 [a, b] = digitsValue 16 255 [a, b] := by
      rw [fromStrRadix] <;> simp [ha]
    rw [hdigits, digitsValue_pair, Option.bind_eq_some_iff]
    simp only [pushDigit_eq_some, ha, false_and, false_or]
    constructor
    · rintro ⟨_, ⟨x, hx, -, rfl⟩, y, hy, -, rfl⟩
      exact ⟨x, y, hx, hy, by omega⟩
    · rintro ⟨x, y, hx, hy, rfl⟩
      have hxlt := toDigit_lt hx
      have hylt := toDigit_lt hy
      exact ⟨_, ⟨x, hx, by omega, rfl⟩, y, hy, by omega, by omega⟩

end Numbers

/-! ## Decimal numerals -/

section Decimal

variable {radix max n : ℕ} {s : Bytes}

theorem digitsValue_concat (b : UInt8) : digitsValue radix max (s ++ [b]) =
    (digitsValue radix max s).bind fun v ↦ pushDigit radix max v b := by
  rw [digitsValue, List.foldlM_append]
  refine congrArg _ (funext fun v ↦ ?_)
  rw [List.foldlM_cons]
  exact bind_pure _

theorem digitChar_lt {d : ℕ} (hd : d < 10) :
    asBytes [d.digitChar] = [UInt8.ofNat d.digitChar.toNat] ∧
      toDigit 10 (UInt8.ofNat d.digitChar.toNat).toNat = some d := by
  have hall : ∀ d < 10, asBytes [d.digitChar] = [UInt8.ofNat d.digitChar.toNat] ∧
      toDigit 10 (UInt8.ofNat d.digitChar.toNat).toNat = some d := by decide
  exact hall d hd

/-- The digits of a number give it back. -/
theorem digitsValue_decimal (hn : n ≤ max) :
    digitsValue 10 max (asBytes (Nat.toDigits 10 n)) = some n := by
  induction n using Nat.strongRecOn with
  | ind n ih =>
      obtain ⟨hbyte, hdigit⟩ := digitChar_lt (Nat.mod_lt n (by decide : 0 < 10))
      rw [Nat.toDigits_eq_if (by decide)]
      split
      · have hmod : n % 10 = n := Nat.mod_eq_of_lt ‹n < 10›
        rw [hmod] at hbyte hdigit
        rw [hbyte, digitsValue_singleton, pushDigit_eq_some]
        exact ⟨n, hdigit, by omega, by omega⟩
      · rw [asBytes_append, hbyte, digitsValue_concat, ih (n / 10) (by omega) (by omega),
          Option.bind_some, pushDigit_eq_some]
        exact ⟨n % 10, hdigit, by omega, by omega⟩

/-- A numeral without a sign is parsed by its digits. -/
theorem fromStrRadix_of_digitsValue {v : ℕ} (hs : s ≠ []) (h : digitsValue radix max s = some v) :
    fromStrRadix radix max s = some v := by
  cases s with
  | nil => exact absurd rfl hs
  | cons b s =>
      by_cases hb : b = 0x2B
      · subst hb
        cases h
      · rw [← h, fromStrRadix] <;> simp [hb]

theorem fromStrRadix_decimal (hn : n ≤ max) :
    fromStrRadix 10 max (asBytes (Nat.toDigits 10 n)) = some n :=
  fromStrRadix_of_digitsValue (asBytes_ne_nil Nat.toDigits_ne_nil) (digitsValue_decimal hn)

end Decimal

end Radix
