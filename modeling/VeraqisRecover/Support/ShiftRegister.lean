import Mathlib

/-!
# Feedback shift registers

A register of `w` bits is shifted by one place, and the feedback mask is added
when a one falls out.  Shifting towards the high end and shifting towards the
low end are mirror images.  The shift is linear, and injective when the
feedback reaches the vacated place.
-/

namespace ShiftRegister

variable {w : ℕ}

/-- Shift towards the high end. -/
def up (mask r : BitVec w) : BitVec w := if r.msb then (r <<< 1) ^^^ mask else r <<< 1

/-- Shift towards the low end. -/
def down (mask r : BitVec w) : BitVec w := if r.getLsbD 0 then (r >>> 1) ^^^ mask else r >>> 1

theorem reverse_xor (x y : BitVec w) : (x ^^^ y).reverse = x.reverse ^^^ y.reverse := by
  apply BitVec.eq_of_getLsbD_eq
  intro i hi
  simp only [BitVec.getLsbD_reverse, BitVec.getLsbD_xor, BitVec.getMsbD_xor]

theorem reverse_shiftLeft_one (x : BitVec w) : (x <<< 1).reverse = x.reverse >>> 1 := by
  apply BitVec.eq_of_getLsbD_eq
  intro i hi
  simp only [BitVec.getLsbD_reverse, BitVec.getMsbD_shiftLeft, BitVec.getLsbD_ushiftRight]
  rw [Nat.add_comm]

/-- Seen in a mirror, shifting up is shifting down. -/
theorem reverse_up (mask r : BitVec w) :
    (up mask r).reverse = down mask.reverse r.reverse := by
  have hbit : r.reverse.getLsbD 0 = r.msb := by
    rw [BitVec.getLsbD_reverse]
    rfl
  unfold up down
  rw [hbit]
  split
  · rw [reverse_xor, reverse_shiftLeft_one]
  · rw [reverse_shiftLeft_one]

theorem reverse_iterate_up (mask r : BitVec w) (n : ℕ) :
    ((up mask)^[n] r).reverse = (down mask.reverse)^[n] r.reverse := by
  induction n generalizing r with
  | zero => rfl
  | succ n ih => rw [Function.iterate_succ_apply, Function.iterate_succ_apply, ih, reverse_up]

/-! ## Linearity -/

theorem down_xor (mask x y : BitVec w) : down mask (x ^^^ y) = down mask x ^^^ down mask y := by
  unfold down
  rw [BitVec.getLsbD_xor, BitVec.ushiftRight_xor_distrib]
  cases x.getLsbD 0 with
  | false =>
      cases y.getLsbD 0 with
      | false => rfl
      | true => exact BitVec.xor_assoc _ _ _
  | true =>
      cases y.getLsbD 0 with
      | false =>
          change (x >>> 1 ^^^ y >>> 1) ^^^ mask = (x >>> 1 ^^^ mask) ^^^ y >>> 1
          rw [BitVec.xor_assoc, BitVec.xor_comm (y >>> 1), BitVec.xor_assoc]
      | true =>
          change x >>> 1 ^^^ y >>> 1 = (x >>> 1 ^^^ mask) ^^^ (y >>> 1 ^^^ mask)
          rw [BitVec.xor_comm (y >>> 1) mask, BitVec.xor_assoc, ← BitVec.xor_assoc mask,
            BitVec.xor_self, BitVec.zero_xor]

theorem iterate_down_xor (mask x y : BitVec w) (n : ℕ) :
    (down mask)^[n] (x ^^^ y) = (down mask)^[n] x ^^^ (down mask)^[n] y := by
  induction n generalizing x y with
  | zero => rfl
  | succ n ih => rw [Function.iterate_succ_apply, down_xor, ih]; rfl

/-- As long as only zeros fall out, the register is shifted and nothing else. -/
theorem iterate_down_of_low_clear (mask : BitVec w) {x : BitVec w} {n : ℕ}
    (h : ∀ i < n, x.getLsbD i = false) : (down mask)^[n] x = x >>> n := by
  induction n with
  | zero => simp
  | succ n ih =>
      have hbit : (x >>> n).getLsbD 0 = false := by
        rw [BitVec.getLsbD_ushiftRight, Nat.add_zero]
        exact h n (Nat.lt_succ_self n)
      rw [Function.iterate_succ_apply', ih fun i hi ↦ h i (by omega), down, if_neg (by simp [hbit]),
        BitVec.shiftRight_add]

/-- The low places and the rest go through `n` shifts independently. -/
theorem iterate_down_split (mask x : BitVec w) (n : ℕ) :
    (down mask)^[n] x =
      (x >>> n) ^^^ (down mask)^[n] (x &&& BitVec.ofNat w (2 ^ n - 1)) := by
  have hsplit : x = (x &&& ~~~ BitVec.ofNat w (2 ^ n - 1)) ^^^
      (x &&& BitVec.ofNat w (2 ^ n - 1)) := by
    apply BitVec.eq_of_getLsbD_eq
    intro i hi
    simp only [BitVec.getLsbD_xor, BitVec.getLsbD_and, BitVec.getLsbD_not, hi, decide_true,
      Bool.true_and]
    cases x.getLsbD i <;> cases (BitVec.ofNat w (2 ^ n - 1)).getLsbD i <;> rfl
  have hlow : ∀ i, (BitVec.ofNat w (2 ^ n - 1)).getLsbD i = (decide (i < w) && decide (i < n)) := by
    intro i
    rw [BitVec.getLsbD_ofNat, Nat.testBit_two_pow_sub_one]
  have hclear : ∀ i < n, (x &&& ~~~ BitVec.ofNat w (2 ^ n - 1)).getLsbD i = false := by
    intro i hi
    rw [BitVec.getLsbD_and, BitVec.getLsbD_not, hlow]
    by_cases hw : i < w
    · simp [hw, hi]
    · simp [hw]
  have hhigh : (x &&& ~~~ BitVec.ofNat w (2 ^ n - 1)) >>> n = x >>> n := by
    apply BitVec.eq_of_getLsbD_eq
    intro i hi
    rw [BitVec.getLsbD_ushiftRight, BitVec.getLsbD_ushiftRight, BitVec.getLsbD_and,
      BitVec.getLsbD_not, hlow]
    by_cases hw : n + i < w
    · simp [hw]
    · simp [BitVec.getLsbD_of_ge x (n + i) (by omega)]
  calc
    (down mask)^[n] x = (down mask)^[n] ((x &&& ~~~ BitVec.ofNat w (2 ^ n - 1)) ^^^
        (x &&& BitVec.ofNat w (2 ^ n - 1))) := by rw [← hsplit]
    _ = _ := by rw [iterate_down_xor, iterate_down_of_low_clear mask hclear, hhigh]

/-! ## Injectivity -/

/-- The vacated place shows whether feedback was added. -/
theorem down_injective {mask : BitVec w} (h : mask.msb = true) :
    Function.Injective (down mask) := by
  intro x y hxy
  have hmsb : ∀ r : BitVec w, (r >>> 1).msb = false := by
    intro r
    rw [BitVec.msb_ushiftRight]
    simp
  have hbit : x.getLsbD 0 = y.getLsbD 0 := by
    have htop : ∀ r : BitVec w, (down mask r).msb = r.getLsbD 0 := by
      intro r
      unfold down
      cases hr : r.getLsbD 0 with
      | false => simp [hmsb]
      | true => simp [BitVec.msb_xor, hmsb, h]
    rw [← htop x, ← htop y, hxy]
  have hshift : x >>> 1 = y >>> 1 := by
    unfold down at hxy
    rw [hbit] at hxy
    split at hxy
    · exact (BitVec.xor_left_inj mask).mp hxy
    · exact hxy
  apply BitVec.eq_of_getLsbD_eq
  intro i hi
  cases i with
  | zero => exact hbit
  | succ i =>
      have hi' := congrArg (·.getLsbD i) hshift
      simp only [BitVec.getLsbD_ushiftRight] at hi'
      rwa [Nat.add_comm] at hi'

end ShiftRegister
