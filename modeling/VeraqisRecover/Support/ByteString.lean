import Mathlib

/-!
# Little-endian fields in a byte string

Bounds-checked readers over an immutable byte slice and the matching writers.
The relation `At d o s` says that the bytes `s` stand in `d` at offset `o`.
A reader at an offset sees only the bytes that stand there, so a fact about
one record carries over to every larger byte string that contains it.
-/

abbrev Bytes := List UInt8

namespace ByteString

/-- Machine words are 64 bits wide. -/
def wordMax : ℕ := 2 ^ 64 - 1

def checkedAdd (a b : ℕ) : Option ℕ :=
  if a + b ≤ wordMax then some (a + b) else none

def checkedSub (a b : ℕ) : Option ℕ :=
  if b ≤ a then some (a - b) else none

def saturatingAdd (a b : ℕ) : ℕ := min (a + b) wordMax

def u16le (d : Bytes) (o : ℕ) : Option ℕ := do
  let b₀ ← d[o]?
  let b₁ ← d[o + 1]?
  some (b₀.toNat + 256 * b₁.toNat)

def u32le (d : Bytes) (o : ℕ) : Option ℕ := do
  let b₀ ← d[o]?
  let b₁ ← d[o + 1]?
  let b₂ ← d[o + 2]?
  let b₃ ← d[o + 3]?
  some (b₀.toNat + 256 * b₁.toNat + 65536 * b₂.toNat + 16777216 * b₃.toNat)

/-- The half-open slice `d[a..b]`, absent when the range does not fit. -/
def slice? (d : Bytes) (a b : ℕ) : Option Bytes :=
  if a ≤ b ∧ b ≤ d.length then some ((d.drop a).take (b - a)) else none

/-- Two bytes, least significant first; higher bits are dropped. -/
def le16 (v : ℕ) : Bytes := [UInt8.ofNat v, UInt8.ofNat (v / 256)]

/-- Four bytes, least significant first; higher bits are dropped. -/
def le32 (v : ℕ) : Bytes :=
  [UInt8.ofNat v, UInt8.ofNat (v / 256), UInt8.ofNat (v / 65536), UInt8.ofNat (v / 16777216)]

@[simp] theorem length_le16 (v : ℕ) : (le16 v).length = 2 := rfl

@[simp] theorem length_le32 (v : ℕ) : (le32 v).length = 4 := rfl

theorem checkedAdd_eq_some {a b c : ℕ} :
    checkedAdd a b = some c ↔ a + b ≤ wordMax ∧ c = a + b := by
  unfold checkedAdd
  split <;> simp_all [eq_comm]

theorem checkedAdd_of_le {a b : ℕ} (h : a + b ≤ wordMax) : checkedAdd a b = some (a + b) :=
  if_pos h

theorem checkedSub_of_le {a b : ℕ} (h : b ≤ a) : checkedSub a b = some (a - b) :=
  if_pos h

theorem saturatingAdd_of_le {a b : ℕ} (h : a + b ≤ wordMax) : saturatingAdd a b = a + b :=
  min_eq_left h

/-! ## Readers -/

theorem u16le_lt {d : Bytes} {o v : ℕ} (h : u16le d o = some v) : v < 2 ^ 16 := by
  simp only [u16le, Option.bind_eq_bind, Option.bind_eq_some_iff, Option.some.injEq] at h
  obtain ⟨b₀, -, b₁, -, rfl⟩ := h
  have h₀ := b₀.toNat_lt
  have h₁ := b₁.toNat_lt
  omega

theorem u32le_lt {d : Bytes} {o v : ℕ} (h : u32le d o = some v) : v < 2 ^ 32 := by
  simp only [u32le, Option.bind_eq_bind, Option.bind_eq_some_iff, Option.some.injEq] at h
  obtain ⟨b₀, -, b₁, -, b₂, -, b₃, -, rfl⟩ := h
  have h₀ := b₀.toNat_lt
  have h₁ := b₁.toNat_lt
  have h₂ := b₂.toNat_lt
  have h₃ := b₃.toNat_lt
  omega

theorem u16le_isSome {d : Bytes} {o : ℕ} (h : o + 2 ≤ d.length) : ∃ v, u16le d o = some v := by
  simp [u16le, List.getElem?_eq_getElem (show o < d.length by omega),
    List.getElem?_eq_getElem (show o + 1 < d.length by omega)]

theorem u32le_isSome {d : Bytes} {o : ℕ} (h : o + 4 ≤ d.length) : ∃ v, u32le d o = some v := by
  simp [u32le, List.getElem?_eq_getElem (show o < d.length by omega),
    List.getElem?_eq_getElem (show o + 1 < d.length by omega),
    List.getElem?_eq_getElem (show o + 2 < d.length by omega),
    List.getElem?_eq_getElem (show o + 3 < d.length by omega)]

theorem le_length_of_u16le {d : Bytes} {o v : ℕ} (h : u16le d o = some v) :
    o + 2 ≤ d.length := by
  simp only [u16le, Option.bind_eq_bind, Option.bind_eq_some_iff] at h
  obtain ⟨_, -, _, h₁, -⟩ := h
  obtain ⟨h₁, -⟩ := List.getElem?_eq_some_iff.mp h₁
  omega

theorem le_length_of_u32le {d : Bytes} {o v : ℕ} (h : u32le d o = some v) :
    o + 4 ≤ d.length := by
  simp only [u32le, Option.bind_eq_bind, Option.bind_eq_some_iff] at h
  obtain ⟨_, -, _, -, _, -, _, h₃, -⟩ := h
  obtain ⟨h₃, -⟩ := List.getElem?_eq_some_iff.mp h₃
  omega

theorem u16le_congr {d e : Bytes} {o p : ℕ}
    (h : ∀ k < 2, d[o + k]? = e[p + k]?) : u16le d o = u16le e p := by
  have h₀ := h 0 (by omega)
  have h₁ := h 1 (by omega)
  simp only [Nat.add_zero] at h₀
  simp only [u16le, h₀, h₁]

theorem u32le_congr {d e : Bytes} {o p : ℕ}
    (h : ∀ k < 4, d[o + k]? = e[p + k]?) : u32le d o = u32le e p := by
  have h₀ := h 0 (by omega)
  have h₁ := h 1 (by omega)
  have h₂ := h 2 (by omega)
  have h₃ := h 3 (by omega)
  simp only [Nat.add_zero] at h₀
  simp only [u32le, h₀, h₁, h₂, h₃]

theorem slice?_eq_some {d s : Bytes} {a b : ℕ} :
    slice? d a b = some s ↔ (a ≤ b ∧ b ≤ d.length) ∧ (d.drop a).take (b - a) = s := by
  unfold slice?
  split <;> simp_all

theorem length_of_slice? {d s : Bytes} {a b : ℕ} (h : slice? d a b = some s) :
    s.length = b - a := by
  obtain ⟨⟨hab, hb⟩, rfl⟩ := slice?_eq_some.mp h
  rw [List.length_take, List.length_drop]
  omega

/-! ## Files with a common prefix -/

/-- Both files have at least `n` bytes, and the first `n` are the same. -/
structure SamePrefix (n : ℕ) (d e : Bytes) : Prop where
  left : n ≤ d.length
  right : n ≤ e.length
  take_eq : d.take n = e.take n

namespace SamePrefix

variable {n : ℕ} {d e : Bytes}

theorem take_append (h : n ≤ d.length) (t : Bytes) : SamePrefix n d (d.take n ++ t) := by
  have hlen : (d.take n).length = n := by
    rw [List.length_take, min_eq_left h]
  refine ⟨h, by rw [List.length_append]; omega, ?_⟩
  rw [List.take_append_of_le_length (le_of_eq hlen.symm), List.take_take, min_self]

theorem mono (h : SamePrefix n d e) {m : ℕ} (hm : m ≤ n) : SamePrefix m d e := by
  have htake := congrArg (List.take m) h.take_eq
  rw [List.take_take, List.take_take, min_eq_left hm] at htake
  exact ⟨hm.trans h.left, hm.trans h.right, htake⟩

theorem getElem?_eq (h : SamePrefix n d e) {i : ℕ} (hi : i < n) : d[i]? = e[i]? := by
  rw [← List.getElem?_take_of_lt hi, h.take_eq, List.getElem?_take_of_lt hi]

theorem u16le_eq (h : SamePrefix n d e) {o : ℕ} (ho : o + 2 ≤ n) : u16le d o = u16le e o :=
  u16le_congr fun _ _ ↦ h.getElem?_eq (by omega)

theorem u32le_eq (h : SamePrefix n d e) {o : ℕ} (ho : o + 4 ≤ n) : u32le d o = u32le e o :=
  u32le_congr fun _ _ ↦ h.getElem?_eq (by omega)

theorem slice?_eq (h : SamePrefix n d e) {a b : ℕ} (hb : b ≤ n) : slice? d a b = slice? e a b := by
  have htake := (h.mono hb).take_eq
  have hl := h.left
  have hr := h.right
  unfold slice?
  by_cases hab : a ≤ b
  · rw [if_pos ⟨hab, by omega⟩, if_pos ⟨hab, by omega⟩, ← List.drop_take, ← List.drop_take,
      htake]
  · rw [if_neg (by omega), if_neg (by omega)]

end SamePrefix

/-! ## Bytes standing at an offset -/

/-- The bytes `s` stand in `d` at offset `o`. -/
def At (d : Bytes) (o : ℕ) (s : Bytes) : Prop := s <+: d.drop o

namespace At

variable {d s t : Bytes} {o : ℕ}

theorem length_le (h : At d o s) : s.length ≤ d.length - o := by
  simpa using List.IsPrefix.length_le h

theorem append_iff : At d o (s ++ t) ↔ At d o s ∧ At d (o + s.length) t := by
  unfold At
  rw [← List.drop_drop]
  constructor
  · rintro ⟨r, hr⟩
    rw [← hr]
    exact ⟨⟨t ++ r, by simp⟩, by simp⟩
  · rintro ⟨⟨r, hr⟩, ht⟩
    rw [← hr, List.drop_left] at ht
    rw [← hr]
    exact (List.prefix_append_right_inj s).mpr ht

theorem le16_append_iff {v : ℕ} : At d o (le16 v ++ t) ↔ At d o (le16 v) ∧ At d (o + 2) t :=
  append_iff

theorem le32_append_iff {v : ℕ} : At d o (le32 v ++ t) ↔ At d o (le32 v) ∧ At d (o + 4) t :=
  append_iff

theorem shift (h : At d o s) (a : Bytes) : At (a ++ d) (a.length + o) s := by
  simpa [At] using h

theorem extend (h : At d o s) (b : Bytes) : At (d ++ b) o s := by
  unfold At at *
  rw [List.drop_append]
  exact h.trans (List.prefix_append _ _)

theorem self_append (a b : Bytes) : At (a ++ b) a.length b := by
  simp [At]

theorem getElem? (h : At d o s) {k : ℕ} (hk : k < s.length) : d[o + k]? = s[k]? := by
  obtain ⟨r, hr⟩ := h
  rw [← List.getElem?_drop, ← hr, List.getElem?_append_left hk]

theorem u16le (h : At d o s) {k : ℕ} (hk : k + 2 ≤ s.length) :
    u16le d (o + k) = ByteString.u16le s k :=
  u16le_congr fun j hj ↦ by
    rw [Nat.add_assoc]
    exact h.getElem? (by omega)

theorem u32le (h : At d o s) {k : ℕ} (hk : k + 4 ≤ s.length) :
    u32le d (o + k) = ByteString.u32le s k :=
  u32le_congr fun j hj ↦ by
    rw [Nat.add_assoc]
    exact h.getElem? (by omega)

theorem slice? (h : At d o s) (hs : s ≠ []) : slice? d o (o + s.length) = some s := by
  have hlen := h.length_le
  have hpos := List.length_pos_of_ne_nil hs
  obtain ⟨r, hr⟩ := h
  rw [slice?_eq_some]
  refine ⟨⟨by omega, by omega⟩, ?_⟩
  rw [← hr, Nat.add_sub_cancel_left, List.take_left]

theorem add_length_le (h : At d o s) (hs : s ≠ []) : o + s.length ≤ d.length := by
  have hlen := h.length_le
  have hpos := List.length_pos_of_ne_nil hs
  omega

theorem slice?_of_le (h : At d o s) (ho : o ≤ d.length) :
    ByteString.slice? d o (o + s.length) = some s := by
  by_cases hs : s = []
  · subst hs
    rw [slice?_eq_some]
    exact ⟨⟨by simp, by simpa using ho⟩, by simp⟩
  · exact h.slice? hs

theorem u16le_le16 {v : ℕ} (h : At d o (le16 v)) (hv : v < 2 ^ 16) :
    ByteString.u16le d o = some v := by
  have hread := h.u16le (k := 0) (by simp)
  have hval : v % 256 + 256 * (v / 256 % 256) = v := by omega
  rw [Nat.add_zero] at hread
  rw [hread]
  simp [ByteString.u16le, le16, hval]

theorem u32le_le32 {v : ℕ} (h : At d o (le32 v)) (hv : v < 2 ^ 32) :
    ByteString.u32le d o = some v := by
  have hread := h.u32le (k := 0) (by simp)
  have hval : v % 256 + 256 * (v / 256 % 256) + 65536 * (v / 65536 % 256) +
      16777216 * (v / 16777216 % 256) = v := by omega
  rw [Nat.add_zero] at hread
  rw [hread]
  simp [ByteString.u32le, le32, hval]

end At

end ByteString
