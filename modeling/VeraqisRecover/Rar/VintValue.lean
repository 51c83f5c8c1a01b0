import VeraqisRecover.Rar.Vint

/-!
# What a variable-length integer is worth

The groups of seven bits are digits to the base 128.  The reader gives their value
modulo 2^64: nine groups always fit, and of a tenth only the lowest bit does.
-/

namespace VeraqisRecover.Rar

open ByteString

/-- The groups of seven bits, read as digits to the base 128, the lowest first. -/
def value (bs : Bytes) : ℕ := Nat.ofDigits 128 (bs.map fun b ↦ (b &&& 0x7F).toNat)

/-- An integer at the front of `bs`: bytes that go on, and one that ends it. -/
structure IntegerAt (bs body : Bytes) (last : UInt8) : Prop where
  front : body ++ [last] <+: bs
  goesOn : ∀ b ∈ body, b &&& 0x80 ≠ 0
  ends : last &&& 0x80 = 0

/-! ## Groups -/

theorem group_lt (b : UInt8) : (b &&& 0x7F).toNat < 128 := by
  rw [UInt8.toNat_and]
  exact Nat.and_lt_two_pow _ (n := 7) (by decide)

theorem group_of_ends : ∀ b : UInt8, b &&& 0x80 = 0 → (b &&& 0x7F).toNat = b.toNat := by
  decide +kernel

theorem value_cons (b : UInt8) (bs : Bytes) :
    value (b :: bs) = (b &&& 0x7F).toNat + 128 * value bs := by
  simp [value, Nat.ofDigits_cons]

theorem value_singleton (b : UInt8) : value [b] = (b &&& 0x7F).toNat := by
  simp [value]

theorem value_concat (bs : Bytes) (b : UInt8) :
    value (bs ++ [b]) = value bs + 128 ^ bs.length * (b &&& 0x7F).toNat := by
  simp [value, Nat.ofDigits_append]

theorem value_lt (bs : Bytes) : value bs < 128 ^ bs.length := by
  have hlt := Nat.ofDigits_lt_base_pow_length (b := 128)
    (l := bs.map fun b ↦ (b &&& 0x7F).toNat) (by decide) (by simpa using fun b _ ↦ group_lt b)
  rwa [List.length_map] at hlt

/-- A group is put in place above the bits read before it. -/
theorem or_group {val shift : ℕ} (hval : val < 2 ^ shift) (hshift : shift ≤ 64) (low : ℕ) :
    val ||| ((low <<< shift) % 2 ^ 64) = (val + low * 2 ^ shift) % 2 ^ 64 := by
  have hword : 2 ^ 64 = 2 ^ shift * 2 ^ (64 - shift) := by
    rw [← Nat.pow_add, Nat.add_sub_cancel' hshift]
  have hmod : (val + low * 2 ^ shift) % 2 ^ shift = val := by
    rw [Nat.add_mul_mod_self_right, Nat.mod_eq_of_lt hval]
  have hdiv : (val + low * 2 ^ shift) / 2 ^ shift = low := by
    rw [Nat.add_mul_div_right _ _ (Nat.two_pow_pos shift), Nat.div_eq_of_lt hval, Nat.zero_add]
  calc val ||| ((low <<< shift) % 2 ^ 64)
      = val ||| 2 ^ shift * (low % 2 ^ (64 - shift)) := by
        rw [Nat.shiftLeft_eq, Nat.mul_comm low, hword, Nat.mul_mod_mul_left]
    _ = val + 2 ^ shift * (low % 2 ^ (64 - shift)) := by
        rw [Nat.or_comm, ← Nat.two_pow_add_eq_or_of_lt hval, Nat.add_comm]
    _ = (val + low * 2 ^ shift) % 2 ^ 64 := by rw [hword, Nat.mod_mul, hmod, hdiv]

/-! ## The reader -/

theorem integerAt_of_ends {b : UInt8} {rest body : Bytes} {last : UInt8} (hb : b &&& 0x80 = 0) :
    IntegerAt (b :: rest) body last ↔ body = [] ∧ last = b := by
  constructor
  · intro h
    cases body with
    | nil => exact ⟨rfl, (List.cons_prefix_cons.mp h.front).1⟩
    | cons c body =>
        have hc : c = b := (List.cons_prefix_cons.mp h.front).1
        exact absurd (hc ▸ hb) (h.goesOn c List.mem_cons_self)
  · rintro ⟨rfl, rfl⟩
    exact ⟨List.cons_prefix_cons.mpr ⟨rfl, List.nil_prefix⟩, by simp, hb⟩

theorem integerAt_of_goesOn {b : UInt8} {rest body : Bytes} {last : UInt8} (hb : b &&& 0x80 ≠ 0) :
    IntegerAt (b :: rest) body last ↔ ∃ tail, body = b :: tail ∧ IntegerAt rest tail last := by
  constructor
  · intro h
    cases body with
    | nil =>
        have hlast : last = b := (List.cons_prefix_cons.mp h.front).1
        exact absurd (hlast ▸ h.ends) hb
    | cons c body =>
        obtain ⟨rfl, hfront⟩ := List.cons_prefix_cons.mp h.front
        exact ⟨body, rfl, hfront, fun x hx ↦ h.goesOn x (List.mem_cons_of_mem c hx), h.ends⟩
  · rintro ⟨tail, rfl, h⟩
    exact ⟨List.cons_prefix_cons.mpr ⟨rfl, h.front⟩, List.forall_mem_cons.mpr ⟨hb, h.goesOn⟩,
      h.ends⟩

theorem vintLoop_eq_some {bs : Bytes} {p shift val n v q : ℕ} (hn : shift + 7 * (n + 1) = 70)
    (hval : val < 2 ^ shift) :
    vintLoop bs p shift val = some (v, q) ↔ ∃ body last, IntegerAt bs body last ∧
      body.length ≤ n ∧ v = (val + value (body ++ [last]) * 2 ^ shift) % 2 ^ 64 ∧
        q = p + body.length + 1 := by
  induction bs generalizing p shift val n with
  | nil =>
      constructor
      · intro h
        cases h
      · rintro ⟨body, last, h, -⟩
        have hlen := h.front.length_le
        rw [List.length_append, List.length_singleton, List.length_nil] at hlen
        omega
  | cons b rest ih =>
      rw [vintLoop, or_group hval (by omega)]
      by_cases hb : b &&& 0x80 = 0
      · rw [if_pos hb, Option.some.injEq, Prod.mk.injEq]
        constructor
        · rintro ⟨rfl, rfl⟩
          refine ⟨[], b, (integerAt_of_ends hb).mpr ⟨rfl, rfl⟩, Nat.zero_le n, ?_, rfl⟩
          rw [List.nil_append, value_singleton]
        · rintro ⟨body, last, h, -, rfl, rfl⟩
          obtain ⟨rfl, rfl⟩ := (integerAt_of_ends hb).mp h
          rw [List.nil_append, value_singleton]
          exact ⟨rfl, rfl⟩
      · rw [if_neg hb]
        cases n with
        | zero =>
            rw [if_pos (by omega)]
            constructor
            · intro h
              cases h
            · rintro ⟨body, last, h, hlen, -⟩
              obtain ⟨tail, rfl, -⟩ := (integerAt_of_goesOn hb).mp h
              rw [List.length_cons] at hlen
              omega
        | succ n =>
            -- a group that is not the last one fits whole
            have hroom : val + (b &&& 0x7F).toNat * 2 ^ shift < 2 ^ (shift + 7) := by
              have hgroup := Nat.mul_le_mul_right (2 ^ shift) (Nat.le_of_lt_succ (group_lt b))
              rw [Nat.pow_add]
              omega
            have hword : 2 ^ (shift + 7) ≤ 2 ^ 64 := Nat.pow_le_pow_right (by decide) (by omega)
            have hvalue : ∀ tail last, val + value (b :: (tail ++ [last])) * 2 ^ shift =
                val + (b &&& 0x7F).toNat * 2 ^ shift +
                  value (tail ++ [last]) * 2 ^ (shift + 7) := by
              intro tail last
              rw [value_cons, Nat.pow_add]
              ring
            have hnext : shift + 7 + 7 * (n + 1) = 70 := by omega
            rw [if_neg (by omega), Nat.mod_eq_of_lt (hroom.trans_le hword), ih hnext hroom]
            constructor
            · rintro ⟨tail, last, h, hlen, rfl, rfl⟩
              refine ⟨b :: tail, last, (integerAt_of_goesOn hb).mpr ⟨tail, rfl, h⟩,
                Nat.succ_le_succ hlen, ?_, ?_⟩
              · rw [List.cons_append, hvalue]
              · rw [List.length_cons]
                omega
            · rintro ⟨body, last, h, hlen, rfl, rfl⟩
              obtain ⟨tail, rfl, htail⟩ := (integerAt_of_goesOn hb).mp h
              refine ⟨tail, last, htail, Nat.le_of_succ_le_succ hlen, ?_, ?_⟩
              · rw [List.cons_append, hvalue]
              · rw [List.length_cons]
                omega

/-- The reader takes an integer of at most ten bytes, and gives its value modulo 2^64. -/
theorem vint_eq_some {d : Bytes} {p v q : ℕ} :
    vint d p = some (v, q) ↔ ∃ body last, IntegerAt (d.drop p) body last ∧ body.length ≤ 9 ∧
      v = value (body ++ [last]) % 2 ^ 64 ∧ q = p + body.length + 1 := by
  have hloop := @vintLoop_eq_some (d.drop p) p 0 0 9 v q rfl Nat.one_pos
  simpa only [vint, Nat.zero_add, Nat.pow_zero, Nat.mul_one] using hloop

/-! ## What does not fit -/

/-- Nine bytes go on, and a tenth ends the integer with more than the one bit that is left. -/
def Overfull (d : Bytes) (p : ℕ) : Prop :=
  ∃ body last, IntegerAt (d.drop p) body last ∧ body.length = 9 ∧ 2 ≤ last.toNat

/-- The bytes from `p` up to `q`. -/
def consumed (d : Bytes) (p q : ℕ) : Bytes := (d.drop p).take (q - p)

theorem IntegerAt.consumed_eq {d body : Bytes} {last : UInt8} {p : ℕ}
    (h : IntegerAt (d.drop p) body last) :
    consumed d p (p + body.length + 1) = body ++ [last] := by
  obtain ⟨rest, hrest⟩ := h.front
  have hlen : p + body.length + 1 - p = (body ++ [last]).length := by
    rw [List.length_append, List.length_singleton]
    omega
  rw [consumed, ← hrest, hlen, List.take_left]

theorem value_lt_word {body : Bytes} {last : UInt8} (hends : last &&& 0x80 = 0)
    (hlen : body.length ≤ 9) (hfull : body.length = 9 → last.toNat < 2) :
    value (body ++ [last]) < 2 ^ 64 := by
  rcases hlen.lt_or_eq with hlt | heq
  · calc value (body ++ [last]) < 128 ^ (body ++ [last]).length := value_lt _
      _ ≤ 128 ^ 9 := Nat.pow_le_pow_right (by decide) (by simpa using hlt)
      _ < 2 ^ 64 := by decide
  · have hbody := value_lt body
    have hlast := hfull heq
    rw [value_concat, group_of_ends last hends]
    rw [heq] at hbody ⊢
    omega

/-- Encoded integers are read back, and what is read is worth its groups, unless a tenth byte
holds more than one bit. -/
theorem vint_exact_iff (d : Bytes) (p : ℕ) :
    ((∀ v < 2 ^ 64, At d p (putVint v) → vint d p = some (v, p + (putVint v).length)) ∧
      ∀ v q, vint d p = some (v, q) → v = value (consumed d p q)) ↔ ¬ Overfull d p := by
  constructor
  · rintro ⟨-, hexact⟩ ⟨body, last, h, hlen, hlast⟩
    have hread := hexact _ _ (vint_eq_some.mpr ⟨body, last, h, hlen.le, rfl, rfl⟩)
    rw [h.consumed_eq] at hread
    have hlt : value (body ++ [last]) < 2 ^ 64 := hread ▸ Nat.mod_lt _ (Nat.two_pow_pos 64)
    rw [value_concat, group_of_ends last h.ends, hlen] at hlt
    omega
  · intro hfits
    refine ⟨fun v hv hat ↦ vint_putVint hat hv, fun v q hread ↦ ?_⟩
    obtain ⟨body, last, h, hlen, rfl, rfl⟩ := vint_eq_some.mp hread
    rw [h.consumed_eq]
    refine Nat.mod_eq_of_lt (value_lt_word h.ends hlen fun heq ↦ ?_)
    by_contra hlast
    exact hfits ⟨body, last, h, heq, Nat.le_of_not_lt hlast⟩

/-- Nine empty groups and a two: the two falls off the word. -/
theorem tenth_group_lost :
    ¬ ∀ v q, vint (List.replicate 9 0x80 ++ [0x02]) 0 = some (v, q) →
      v = value (consumed (List.replicate 9 0x80 ++ [0x02]) 0 q) := by
  intro hexact
  have hread : vint (List.replicate 9 0x80 ++ [0x02]) 0 = some (0, 10) := by decide
  exact absurd (hexact 0 10 hread) (by decide)

end VeraqisRecover.Rar
