import VeraqisRecover.Support.ShiftRegister

/-!
# Shift registers fed bit by bit

A message enters a feedback shift register one bit at a time, each added to the
bit that falls out.  Adding a block of bits to the register first and shifting
afterwards gives the same register.  The run is linear in register and message,
so what an error does to the register does not depend on the message: an error
within one register's width leaves a trace that no later zero removes.
-/

namespace ShiftRegister

variable {w : ℕ}

/-- Shift towards the high end, with a message bit. -/
def feedUp (mask r : BitVec w) (x : Bool) : BitVec w :=
  if r.msb ^^ x then (r <<< 1) ^^^ mask else r <<< 1

/-- Shift towards the low end, with a message bit. -/
def feedDown (mask r : BitVec w) (x : Bool) : BitVec w :=
  if r.getLsbD 0 ^^ x then (r >>> 1) ^^^ mask else r >>> 1

theorem reverse_feedUp (mask r : BitVec w) (x : Bool) :
    (feedUp mask r x).reverse = feedDown mask.reverse r.reverse x := by
  have hbit : r.reverse.getLsbD 0 = r.msb := by
    rw [BitVec.getLsbD_reverse]
    rfl
  unfold feedUp feedDown
  rw [hbit]
  split
  · rw [reverse_xor, reverse_shiftLeft_one]
  · rw [reverse_shiftLeft_one]

theorem reverse_foldl_feedUp (mask r : BitVec w) (xs : List Bool) :
    (xs.foldl (feedUp mask) r).reverse = xs.foldl (feedDown mask.reverse) r.reverse := by
  induction xs generalizing r with
  | nil => rfl
  | cons x xs ih => rw [List.foldl_cons, List.foldl_cons, ih, reverse_feedUp]

/-! ## A block of bits -/

/-- A bit at the low end. -/
def lowBit (x : Bool) : BitVec w := (BitVec.ofBool x).setWidth w

/-- Message bits from the low end on. -/
def packed : List Bool → BitVec w
  | [] => 0#w
  | x :: xs => lowBit x ^^^ (packed xs <<< 1)

theorem getLsbD_lowBit (x : Bool) (i : ℕ) :
    (lowBit x : BitVec w).getLsbD i = (decide (i < w) && (decide (i = 0) && x)) := by
  rw [lowBit, BitVec.getLsbD_setWidth, BitVec.getLsbD_ofBool]

theorem getLsbD_packed (xs : List Bool) (i : ℕ) :
    (packed xs : BitVec w).getLsbD i = (decide (i < w) && xs.getD i false) := by
  induction xs generalizing i with
  | nil => simp [packed]
  | cons x xs ih =>
      rw [packed, BitVec.getLsbD_xor, getLsbD_lowBit, BitVec.getLsbD_shiftLeft, ih]
      cases i with
      | zero => simp
      | succ i =>
          by_cases hi : i + 1 < w
          · simp [hi, Nat.lt_of_succ_lt hi]
          · simp [hi]

theorem feedDown_eq (hw : 0 < w) (mask r : BitVec w) (x : Bool) :
    feedDown mask r x = down mask (r ^^^ lowBit x) := by
  have hlow : (lowBit x : BitVec w) >>> 1 = 0#w := by
    apply BitVec.eq_of_getLsbD_eq
    intro i hi
    simp [BitVec.getLsbD_ushiftRight, getLsbD_lowBit]
  unfold feedDown down
  rw [BitVec.getLsbD_xor, getLsbD_lowBit, BitVec.ushiftRight_xor_distrib, hlow, BitVec.xor_zero]
  simp [hw]

theorem down_shiftLeft_one (mask : BitVec w) {x : BitVec w} (h : x.getLsbD (w - 1) = false) :
    down mask (x <<< 1) = x := by
  have hbit : (x <<< 1).getLsbD 0 = false := by simp [BitVec.getLsbD_shiftLeft]
  rw [down, if_neg (by simp [hbit])]
  apply BitVec.eq_of_getLsbD_eq
  intro i hi
  rw [BitVec.getLsbD_ushiftRight, BitVec.getLsbD_shiftLeft]
  by_cases hlast : 1 + i < w
  · simp [hlast]
  · have : i = w - 1 := by omega
    subst this
    simp [hlast, h]

/-- A block that fits into the register may be added at once. -/
theorem iterate_down_packed (mask r : BitVec w) (xs : List Bool) (h : xs.length ≤ w) :
    (down mask)^[xs.length] (r ^^^ packed xs) = xs.foldl (feedDown mask) r := by
  induction xs generalizing r with
  | nil => simp [packed]
  | cons x xs ih =>
      rw [List.length_cons] at h
      have htop : (packed xs : BitVec w).getLsbD (w - 1) = false := by
        rw [getLsbD_packed, List.getD_eq_default _ _ (by omega), Bool.and_false]
      rw [List.length_cons, Function.iterate_succ_apply, List.foldl_cons, packed,
        ← BitVec.xor_assoc, down_xor, down_shiftLeft_one mask htop, ih _ (by omega),
        feedDown_eq (by omega)]

/-! ## Linearity -/

theorem lowBit_xor (x y : Bool) : (lowBit (x ^^ y) : BitVec w) = lowBit x ^^^ lowBit y := by
  apply BitVec.eq_of_getLsbD_eq
  intro i hi
  rw [BitVec.getLsbD_xor, getLsbD_lowBit, getLsbD_lowBit, getLsbD_lowBit]
  cases x <;> cases y <;> simp

theorem feedDown_xor (hw : 0 < w) (mask a b : BitVec w) (x y : Bool) :
    feedDown mask (a ^^^ b) (x ^^ y) = feedDown mask a x ^^^ feedDown mask b y := by
  rw [feedDown_eq hw, feedDown_eq hw, feedDown_eq hw, ← down_xor, lowBit_xor]
  congr 1
  ac_rfl

theorem foldl_feedDown_xor (hw : 0 < w) (mask a b : BitVec w) {xs ys : List Bool}
    (h : xs.length = ys.length) :
    (List.zipWith (· ^^ ·) xs ys).foldl (feedDown mask) (a ^^^ b) =
      xs.foldl (feedDown mask) a ^^^ ys.foldl (feedDown mask) b := by
  induction xs generalizing a b ys with
  | nil =>
      rw [List.length_eq_zero_iff.mp h.symm]
      rfl
  | cons x xs ih =>
      cases ys with
      | nil => simp at h
      | cons y ys =>
          rw [List.zipWith_cons_cons, List.foldl_cons, feedDown_xor hw,
            ih _ _ (by simpa using h), List.foldl_cons, List.foldl_cons]

/-! ## Errors -/

theorem down_zero (mask : BitVec w) : down mask 0#w = 0#w := by simp [down]

theorem foldl_feedDown_zeros (hw : 0 < w) (mask : BitVec w) {xs : List Bool}
    (h : ∀ x ∈ xs, x = false) : xs.foldl (feedDown mask) 0#w = 0#w := by
  induction xs with
  | nil => rfl
  | cons x xs ih =>
      have hlow : (lowBit false : BitVec w) = 0#w := by simp [lowBit]
      rw [List.foldl_cons, h x List.mem_cons_self, feedDown_eq hw, hlow, BitVec.xor_zero, down_zero,
        ih fun y hy ↦ h y (List.mem_cons_of_mem x hy)]

theorem foldl_feedDown_injective (hw : 0 < w) {mask : BitVec w} (hmask : mask.msb = true)
    (xs : List Bool) : Function.Injective fun r ↦ xs.foldl (feedDown mask) r := by
  induction xs with
  | nil => exact Function.injective_id
  | cons x xs ih =>
      refine ih.comp fun r r' h ↦ ?_
      rw [feedDown_eq hw, feedDown_eq hw] at h
      exact (BitVec.xor_left_inj _).mp (down_injective hmask h)

/-- A block with a one in it, no longer than the register, leaves a trace. -/
theorem foldl_feedDown_ne_zero {mask : BitVec w} (hmask : mask.msb = true) {xs : List Bool}
    (hlen : xs.length ≤ w) (hone : true ∈ xs) : xs.foldl (feedDown mask) 0#w ≠ 0#w := by
  obtain ⟨i, hi, hbit⟩ := List.mem_iff_getElem.mp hone
  intro hzero
  rw [← iterate_down_packed mask 0#w xs hlen, BitVec.zero_xor] at hzero
  have hfix : (down mask)^[xs.length] 0#w = 0#w := Function.iterate_fixed (down_zero mask) _
  have hpacked := (down_injective hmask).iterate _ (hzero.trans hfix.symm)
  have hbit' := getLsbD_packed (w := w) xs i
  rw [hpacked, List.getD_eq_getElem _ _ hi, hbit] at hbit'
  simp [show i < w by omega] at hbit'

/-- An error whose ones lie within one register's width leaves a trace. -/
theorem foldl_feedDown_burst_ne_zero {mask : BitVec w} (hmask : mask.msb = true) {xs : List Bool}
    {s : ℕ} (hspan : ∀ i, xs[i]? = some true → s ≤ i ∧ i < s + w) (hone : true ∈ xs) :
    xs.foldl (feedDown mask) 0#w ≠ 0#w := by
  have hw : 0 < w := by
    obtain ⟨i, hi⟩ := List.mem_iff_getElem?.mp hone
    have := hspan i hi
    omega
  have hclear : ∀ i, ¬ (s ≤ i ∧ i < s + w) → ∀ x, xs[i]? = some x → x = false := by
    intro i hi x hx
    cases x with
    | false => rfl
    | true => exact absurd (hspan i hx) hi
  have hpre : ∀ x ∈ xs.take s, x = false := by
    intro x hx
    obtain ⟨i, hi⟩ := List.mem_iff_getElem?.mp hx
    rw [List.getElem?_take] at hi
    split at hi
    · exact hclear i (by omega) x hi
    · cases hi
  have hpost : ∀ x ∈ (xs.drop s).drop w, x = false := by
    intro x hx
    obtain ⟨i, hi⟩ := List.mem_iff_getElem?.mp hx
    rw [List.drop_drop, List.getElem?_drop] at hi
    exact hclear _ (by omega) x hi
  have hsplit : xs = xs.take s ++ ((xs.drop s).take w ++ (xs.drop s).drop w) := by
    rw [List.take_append_drop, List.take_append_drop]
  have hburst : true ∈ (xs.drop s).take w := by
    rw [hsplit, List.mem_append, List.mem_append] at hone
    rcases hone with h | h | h
    · exact absurd (hpre _ h) (by decide)
    · exact h
    · exact absurd (hpost _ h) (by decide)
  rw [hsplit, List.foldl_append, List.foldl_append, foldl_feedDown_zeros hw mask hpre]
  intro hzero
  have hrest := foldl_feedDown_zeros hw mask hpost
  exact foldl_feedDown_ne_zero hmask (List.length_take_le _ _) hburst
    (foldl_feedDown_injective hw hmask _ (hzero.trans hrest.symm))

end ShiftRegister
