import VeraqisRecover.Support.Reader

/-!
# The variable-length integers of RAR5

Seven bits a byte, lowest first, the high bit set on every byte but the last.
The reader gives up after ten bytes.
-/

namespace VeraqisRecover.Rar

open ByteString

def vintLoop : Bytes → ℕ → ℕ → ℕ → Option (ℕ × ℕ)
  | [], _, _, _ => none
  | b :: rest, p, shift, val =>
      let val := val ||| (((b &&& 0x7F).toNat <<< shift) % 2 ^ 64)
      if b &&& 0x80 = 0 then some (val, p + 1)
      else if 64 ≤ shift + 7 then none
      else vintLoop rest (p + 1) (shift + 7) val

/-- LEB128 variable integer (low 7 bits a byte, high bit = continue). -/
def vint : Reader ℕ := fun d p ↦ vintLoop (d.drop p) p 0 0

def u32le : Reader ℕ := fun d p ↦ do
  let stop ← checkedAdd p 4
  let v ← ByteString.u32le d p
  some (v, stop)

/-- The integer in as few bytes as it takes. -/
def putVint (v : ℕ) : Bytes :=
  let b := UInt8.ofNat (v &&& 0x7F)
  if v >>> 7 = 0 then [b] else (b ||| 0x80) :: putVint (v >>> 7)
termination_by v
decreasing_by
  rw [Nat.shiftRight_eq_div_pow] at *
  omega

/-! ## The readers are framed -/

theorem vintLoop_framed {bs : Bytes} {p shift val v q : ℕ}
    (h : vintLoop bs p shift val = some (v, q)) :
    p < q ∧ q ≤ p + bs.length ∧ ∀ cs : Bytes, (∀ i < q - p, cs[i]? = bs[i]?) →
      vintLoop cs p shift val = some (v, q) := by
  induction bs generalizing p shift val with
  | nil => cases h
  | cons b rest ih =>
      have hhead : ∀ cs : Bytes, p < q → (∀ i < q - p, cs[i]? = (b :: rest)[i]?) →
          ∃ tail, cs = b :: tail ∧ ∀ i < q - (p + 1), tail[i]? = rest[i]? := by
        intro cs hpq hsame
        cases cs with
        | nil => simpa using hsame 0 (by omega)
        | cons c tail =>
            have hc : c = b := by simpa using hsame 0 (by omega)
            refine ⟨tail, by rw [hc], ?_⟩
            intro i hi
            simpa using hsame (i + 1) (by omega)
      rw [vintLoop] at h
      split at h
      · rename_i hstop
        cases h
        refine ⟨Nat.lt_succ_self p, by simp, ?_⟩
        intro cs hsame
        obtain ⟨tail, rfl, -⟩ := hhead cs (Nat.lt_succ_self p) hsame
        rw [vintLoop, if_pos hstop]
      · rename_i hmore
        split at h
        · cases h
        · rename_i hroom
          obtain ⟨hpq, hlen, hcongr⟩ := ih h
          refine ⟨by omega, by rw [List.length_cons]; omega, ?_⟩
          intro cs hsame
          obtain ⟨tail, rfl, htail⟩ := hhead cs (by omega) hsame
          rw [vintLoop, if_neg hmore, if_neg hroom]
          exact hcongr tail htail

theorem vint_lt {d : Bytes} {p v q : ℕ} (h : vint d p = some (v, q)) : p < q ∧ q ≤ d.length := by
  obtain ⟨hpq, hlen, -⟩ := vintLoop_framed h
  rw [List.length_drop] at hlen
  omega

theorem vint_framed : Reader.Framed vint where
  le h := (vint_lt h).1.le
  le_length h _ := (vint_lt h).2
  congr h hsame := by
    obtain ⟨-, -, hcongr⟩ := vintLoop_framed h
    apply hcongr
    intro i hi
    rw [List.getElem?_drop, List.getElem?_drop]
    exact hsame _ (by omega) (by omega)

theorem u32le_eq_some {d : Bytes} {p v q : ℕ} :
    u32le d p = some (v, q) ↔
      ByteString.u32le d p = some v ∧ q = p + 4 ∧ p + 4 ≤ wordMax := by
  simp only [u32le, Option.bind_eq_bind, Option.bind_eq_some_iff, checkedAdd_eq_some,
    Option.some.injEq, Prod.mk.injEq]
  constructor
  · rintro ⟨stop, ⟨hfit, rfl⟩, w, hw, rfl, rfl⟩
    exact ⟨hw, rfl, hfit⟩
  · rintro ⟨hw, rfl, hfit⟩
    exact ⟨p + 4, ⟨hfit, rfl⟩, v, hw, rfl, rfl⟩

theorem u32le_framed : Reader.Framed u32le where
  le h := by
    obtain ⟨-, rfl, -⟩ := u32le_eq_some.mp h
    exact Nat.le_add_right _ _
  le_length h _ := by
    obtain ⟨hread, rfl, -⟩ := u32le_eq_some.mp h
    exact le_length_of_u32le hread
  congr h hsame := by
    obtain ⟨hread, rfl, hfit⟩ := u32le_eq_some.mp h
    refine u32le_eq_some.mpr ⟨?_, rfl, hfit⟩
    rw [← hread]
    apply u32le_congr
    intro k hk
    exact hsame _ (by omega) (by omega)

/-! ## Round trip -/

theorem putVint_of_lt {v : ℕ} (h : v < 128) : putVint v = [UInt8.ofNat v] := by
  have hlow : v &&& 0x7F = v := by
    rw [Nat.and_two_pow_sub_one_eq_mod v 7]
    exact Nat.mod_eq_of_lt h
  have hhigh : v >>> 7 = 0 := by
    rw [Nat.shiftRight_eq_div_pow]
    exact Nat.div_eq_of_lt h
  rw [putVint, if_pos hhigh, hlow]

theorem putVint_pos (v : ℕ) : 0 < (putVint v).length := by
  rw [putVint]
  split
  · exact Nat.one_pos
  · exact Nat.succ_pos _

theorem toNat_low (v : ℕ) : (UInt8.ofNat (v &&& 0x7F)).toNat = v % 128 := by
  rw [Nat.and_two_pow_sub_one_eq_mod v 7, UInt8.toNat_ofNat']
  omega

/-- A byte below 128 keeps its value under the continuation bit. -/
theorem byte_bits : ∀ b : UInt8, b.toNat < 128 →
    (b &&& 0x7F = b ∧ b &&& 0x80 = 0) ∧ (b ||| 0x80) &&& 0x7F = b ∧ (b ||| 0x80) &&& 0x80 ≠ 0 := by
  decide +kernel

/-- The seven bits read now and the rest of the value, put side by side. -/
theorem low_or_high (v shift : ℕ) :
    (v % 128) <<< shift ||| (v >>> 7) <<< (shift + 7) = v <<< shift := by
  have hjoin : v % 128 ||| (v >>> 7) <<< 7 = v := by
    rw [Nat.or_comm, Nat.shiftRight_eq_div_pow, Nat.shiftLeft_eq,
      Nat.mul_comm, ← Nat.two_pow_add_eq_or_of_lt (Nat.mod_lt v (by decide))]
    exact Nat.div_add_mod v 128
  rw [Nat.add_comm, Nat.shiftLeft_add, ← Nat.shiftLeft_or_distrib, hjoin]

theorem vintLoop_putVint (v : ℕ) : ∀ (p shift val : ℕ) (t : Bytes), v <<< shift < 2 ^ 64 →
    vintLoop (putVint v ++ t) p shift val =
      some (val ||| (v <<< shift), p + (putVint v).length) := by
  induction v using putVint.induct with
  | case1 v hlast =>
      intro p shift val t hfit
      obtain ⟨⟨hlow, hhigh⟩, -⟩ := byte_bits (UInt8.ofNat (v &&& 0x7F)) (by
        rw [toNat_low]
        exact Nat.mod_lt v (by decide))
      have hv : v % 128 = v := by
        rw [Nat.shiftRight_eq_div_pow] at hlast
        omega
      rw [putVint, if_pos hlast, List.singleton_append, vintLoop, if_pos hhigh, hlow, toNat_low, hv,
        Nat.mod_eq_of_lt hfit]
      rfl
  | case2 v hmore ih =>
      intro p shift val t hfit
      obtain ⟨-, hlow, hhigh⟩ := byte_bits (UInt8.ofNat (v &&& 0x7F)) (by
        rw [toNat_low]
        exact Nat.mod_lt v (by decide))
      have hsplit := low_or_high v shift
      have hfirst : (v % 128) <<< shift < 2 ^ 64 :=
        lt_of_le_of_lt (hsplit ▸ Nat.left_le_or) hfit
      have hrest : (v >>> 7) <<< (shift + 7) < 2 ^ 64 :=
        lt_of_le_of_lt (hsplit ▸ Nat.right_le_or) hfit
      have hroom : ¬64 ≤ shift + 7 := by
        intro hfull
        have hpow : 2 ^ 64 ≤ 2 ^ (shift + 7) := Nat.pow_le_pow_right (by decide) hfull
        have hpos : 1 ≤ v >>> 7 := Nat.one_le_iff_ne_zero.mpr hmore
        rw [Nat.shiftLeft_eq] at hrest
        have := Nat.le_mul_of_pos_left (2 ^ (shift + 7)) hpos
        omega
      rw [putVint, if_neg hmore, List.cons_append, vintLoop, if_neg hhigh, if_neg hroom, hlow,
        toNat_low, Nat.mod_eq_of_lt hfirst, ih (p + 1) (shift + 7) _ t hrest, Nat.or_assoc, hsplit,
        List.length_cons]
      congr 2
      omega

/-- Any 64-bit value is read back, wherever it stands. -/
theorem vint_putVint {d : Bytes} {p v : ℕ} (h : At d p (putVint v)) (hv : v < 2 ^ 64) :
    vint d p = some (v, p + (putVint v).length) := by
  obtain ⟨t, ht⟩ := h
  rw [vint, ← ht, vintLoop_putVint v p 0 0 t (by simpa using hv)]
  simp

/-! ## Where the reader gives up -/

theorem vintLoop_eq_none {bs : Bytes} {p shift val n : ℕ} (h : shift + 7 * (n + 1) = 70) :
    vintLoop bs p shift val = none ↔ ∀ b ∈ bs.take (n + 1), b &&& 0x80 ≠ 0 := by
  induction bs generalizing p shift val n with
  | nil => simp [vintLoop]
  | cons b rest ih =>
      rw [vintLoop, List.take_succ_cons, List.forall_mem_cons]
      by_cases hstop : b &&& 0x80 = 0
      · rw [if_pos hstop]
        simp [hstop]
      · rw [if_neg hstop]
        cases n with
        | zero =>
            rw [if_pos (by omega)]
            simp [hstop]
        | succ n =>
            have hnext : shift + 7 + 7 * (n + 1) = 70 := by omega
            rw [if_neg (by omega), ih hnext]
            simp [hstop]

/-- None of the ten bytes from the cursor on ends the integer. -/
theorem vint_eq_none {d : Bytes} {p : ℕ} :
    vint d p = none ↔ ∀ b ∈ (d.drop p).take 10, b &&& 0x80 ≠ 0 :=
  vintLoop_eq_none rfl

end VeraqisRecover.Rar
