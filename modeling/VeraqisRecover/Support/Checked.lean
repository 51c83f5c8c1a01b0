import VeraqisRecover.Support.ByteString

/-!
# Computations that may fault

Arithmetic on machine words, indexing, slicing, allocation and assertions as
operations that either return or stop the run, and a calculus for showing that
a run returns with a given postcondition.
-/

/-- What stops a run. -/
inductive Fault
  /-- arithmetic outside the machine word -/
  | overflow
  /-- an index or a slice outside its buffer -/
  | outOfRange
  /-- a failed debug assertion -/
  | assertion
  /-- an allocation larger than any buffer can be -/
  | capacity
  deriving DecidableEq, Repr

abbrev Checked (α : Type) := Except Fault α

namespace Checked

open ByteString

variable {α β σ : Type}

@[irreducible] def add (w a b : ℕ) : Checked ℕ :=
  if a + b < 2 ^ w then .ok (a + b) else .error .overflow

@[irreducible] def sub (a b : ℕ) : Checked ℕ :=
  if b ≤ a then .ok (a - b) else .error .overflow

@[irreducible] def mul (w a b : ℕ) : Checked ℕ :=
  if a * b < 2 ^ w then .ok (a * b) else .error .overflow

/-- `d[i]` -/
def index (d : List α) (i : ℕ) : Checked α :=
  match d[i]? with
  | some v => .ok v
  | none => .error .outOfRange

/-- `&d[a..b]` -/
def range (d : List α) (a b : ℕ) : Checked (List α) :=
  if a ≤ b ∧ b ≤ d.length then .ok ((d.drop a).take (b - a)) else .error .outOfRange

def debugAssert (p : Prop) [Decidable p] : Checked Unit :=
  if p then .ok () else .error .assertion

/-- `vec![0; n]`: no buffer is longer than `isize::MAX`. -/
def allocate (n : ℕ) : Checked Unit := if n < 2 ^ 63 then .ok () else .error .capacity

/-- The number whose bytes are written least significant first. -/
def leValue (b : Bytes) : ℕ := b.foldr (fun x v ↦ x.toNat + 256 * v) 0

/-- `from_le_bytes([d[i], .., d[i + k - 1]])` -/
def leAt (k : ℕ) (d : Bytes) (i : ℕ) : Checked ℕ := do
  let bytes ← (List.range' i k).mapM (index d)
  return leValue bytes

/-- `from_be_bytes([d[i], .., d[i + k - 1]])` -/
def beAt (k : ℕ) (d : Bytes) (i : ℕ) : Checked ℕ := do
  let bytes ← (List.range' i k).mapM (index d)
  return leValue bytes.reverse

/-! ## Operations that return -/

theorem add_eq {w a b : ℕ} (h : a + b < 2 ^ w) : add w a b = .ok (a + b) := by
  rw [add, if_pos h]

theorem add_overflow {w a b : ℕ} (h : 2 ^ w ≤ a + b) : add w a b = .error .overflow := by
  rw [add, if_neg (by omega)]

theorem sub_eq {a b : ℕ} (h : b ≤ a) : sub a b = .ok (a - b) := by
  rw [sub, if_pos h]

theorem mul_eq {w a b : ℕ} (h : a * b < 2 ^ w) : mul w a b = .ok (a * b) := by
  rw [mul, if_pos h]

theorem range_eq {d : List α} {a b : ℕ} (hab : a ≤ b) (hb : b ≤ d.length) :
    range d a b = .ok ((d.drop a).take (b - a)) := if_pos ⟨hab, hb⟩

theorem index_eq {d : List α} {i : ℕ} (h : i < d.length) : index d i = .ok d[i] := by
  rw [index, List.getElem?_eq_getElem h]

theorem debugAssert_eq {p : Prop} [Decidable p] (h : p) : debugAssert p = .ok () := if_pos h

theorem allocate_eq {n : ℕ} (h : n < 2 ^ 63) : allocate n = .ok () := if_pos h

theorem add_eq_ok {w a b c : ℕ} (h : add w a b = .ok c) : c = a + b := by
  unfold add at h
  split at h
  · exact (Except.ok.inj h).symm
  · cases h

theorem sub_eq_ok {a b c : ℕ} (h : sub a b = .ok c) : b ≤ a ∧ c = a - b := by
  unfold sub at h
  split at h
  · exact ⟨‹_›, (Except.ok.inj h).symm⟩
  · cases h

theorem mapM_index {d : List α} {i k : ℕ} (h : i + k ≤ d.length) :
    (List.range' i k).mapM (index d) = .ok ((d.drop i).take k) := by
  induction k generalizing i with
  | zero => rfl
  | succ k ih =>
      have hi : i < d.length := by omega
      rw [List.range'_succ, List.mapM_cons, index_eq hi, ih (by omega),
        List.drop_eq_getElem_cons hi, List.take_succ_cons]
      rfl

theorem leAt_eq {k i : ℕ} {d : Bytes} (h : i + k ≤ d.length) :
    leAt k d i = .ok (leValue ((d.drop i).take k)) := by
  rw [leAt, mapM_index h]
  rfl

theorem beAt_eq {k i : ℕ} {d : Bytes} (h : i + k ≤ d.length) :
    beAt k d i = .ok (leValue ((d.drop i).take k).reverse) := by
  rw [beAt, mapM_index h]
  rfl

theorem leAt_of_u16le {i v : ℕ} {d : Bytes} (h : u16le d i = some v) : leAt 2 d i = .ok v := by
  simp only [u16le, Option.bind_eq_bind, Option.bind_eq_some_iff, Option.some.injEq] at h
  obtain ⟨b₀, h₀, b₁, h₁, rfl⟩ := h
  simp [leAt, List.range', index, h₀, h₁, leValue, bind, Except.bind, pure, Except.pure]

theorem leAt_of_u32le {i v : ℕ} {d : Bytes} (h : u32le d i = some v) : leAt 4 d i = .ok v := by
  simp only [u32le, Option.bind_eq_bind, Option.bind_eq_some_iff, Option.some.injEq] at h
  obtain ⟨b₀, h₀, b₁, h₁, b₂, h₂, b₃, h₃, rfl⟩ := h
  simp [leAt, List.range', index, h₀, h₁, h₂, h₃, leValue, bind, Except.bind, pure, Except.pure]
  omega

theorem leValue_lt (b : Bytes) : leValue b < 256 ^ b.length := by
  induction b with
  | nil => exact Nat.one_pos
  | cons x b ih =>
      have hx := x.toNat_lt
      rw [List.length_cons, Nat.pow_succ]
      change x.toNat + 256 * leValue b < _
      omega

/-! ## Runs that return -/

/-- The run returns, and what it returns satisfies `P`. -/
def Returns (x : Checked α) (P : α → Prop) : Prop := ∃ v, x = .ok v ∧ P v

section

variable {P : α → Prop} {Q : β → Prop} {x : Checked α}

theorem returns_ok {v : α} (h : P v) : Returns (.ok v) P := ⟨v, rfl, h⟩

theorem returns_pure {v : α} (h : P v) : Returns (pure v) P := ⟨v, rfl, h⟩

theorem returns_of_eq {v : α} (hx : x = .ok v) (h : P v) : Returns x P := ⟨v, hx, h⟩

theorem Returns.bind {f : α → Checked β} (hx : Returns x P)
    (hf : ∀ v, P v → Returns (f v) Q) : Returns (x >>= f) Q := by
  obtain ⟨v, rfl, hv⟩ := hx
  exact hf v hv

theorem Returns.mono {P' : α → Prop} (hx : Returns x P) (h : ∀ v, P v → P' v) :
    Returns x P' := by
  obtain ⟨v, hv, hp⟩ := hx
  exact ⟨v, hv, h v hp⟩

theorem bind_eq_ok {f : α → Checked β} {v : β} :
    (x >>= f) = .ok v ↔ ∃ a, x = .ok a ∧ f a = .ok v := by
  cases x with
  | error e => simp [bind, Except.bind]
  | ok a => simp [bind, Except.bind]

theorem Returns.ne_error (h : Returns x P) {f : Fault} : x ≠ .error f := by
  rintro rfl
  obtain ⟨v, hv, -⟩ := h
  cases hv

theorem Returns.of_eq_ok (h : Returns x P) {v : α} (hx : x = .ok v) : P v := by
  obtain ⟨v', rfl, hv⟩ := h
  exact Except.ok.inj hx ▸ hv

theorem add_returns {w a b : ℕ} (h : a + b < 2 ^ w) : Returns (add w a b) (· = a + b) :=
  ⟨_, add_eq h, rfl⟩

theorem sub_returns {a b : ℕ} (h : b ≤ a) : Returns (sub a b) (· = a - b) := ⟨_, sub_eq h, rfl⟩

theorem mul_returns {w a b : ℕ} (h : a * b < 2 ^ w) : Returns (mul w a b) (· = a * b) :=
  ⟨_, mul_eq h, rfl⟩

theorem range_returns {d : List α} {a b : ℕ} (hab : a ≤ b) (hb : b ≤ d.length) :
    Returns (range d a b) fun s ↦ s = (d.drop a).take (b - a) ∧ s.length = b - a :=
  ⟨_, range_eq hab hb, rfl, by rw [List.length_take, List.length_drop]; omega⟩

theorem index_returns {d : List α} {i : ℕ} (h : i < d.length) :
    Returns (index d i) fun _ ↦ True :=
  ⟨_, index_eq h, trivial⟩

theorem leAt_returns {k i : ℕ} {d : Bytes} (h : i + k ≤ d.length) :
    Returns (leAt k d i) (· < 256 ^ k) := by
  refine ⟨_, leAt_eq h, ?_⟩
  have hlt := leValue_lt ((d.drop i).take k)
  rwa [List.length_take, List.length_drop, min_eq_left (by omega)] at hlt

theorem beAt_returns {k i : ℕ} {d : Bytes} (h : i + k ≤ d.length) :
    Returns (beAt k d i) (· < 256 ^ k) := by
  refine ⟨_, beAt_eq h, ?_⟩
  have hlt := leValue_lt ((d.drop i).take k).reverse
  rwa [List.length_reverse, List.length_take, List.length_drop, min_eq_left (by omega)] at hlt

end

end Checked
