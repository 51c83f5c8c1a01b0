import VeraqisRecover.Zip.Directory

/-!
# Where a record signature can stand

A local header or an EOCD is found by four bytes, and four bytes can also be
spelled by the fields and names of other records.  What is put together from
parts that spell neither spells neither, unless a signature runs over a seam.
-/

namespace VeraqisRecover.Zip

open ByteString

/-- No local-header and no EOCD signature stands in the bytes. -/
def Unspelled (bs : Bytes) : Prop :=
  ∀ k, u32le bs k ≠ some lfhSig ∧ u32le bs k ≠ some eocdSig

instance (bs : Bytes) : Decidable (Unspelled bs) :=
  decidable_of_iff (∀ k < bs.length, u32le bs k ≠ some lfhSig ∧ u32le bs k ≠ some eocdSig) <| by
    constructor
    · intro h k
      by_cases hk : k < bs.length
      · exact h k hk
      · have hnone : u32le bs k = none := by
          cases hread : u32le bs k with
          | none => rfl
          | some v =>
              have hle := le_length_of_u32le hread
              omega
        simp [hnone]
    · exact fun h k _ ↦ h k

variable {d x y : Bytes} {o : ℕ}

/-- The four bytes of either signature. -/
theorem bytes_of_sig (h : u32le d o = some lfhSig ∨ u32le d o = some eocdSig) :
    d[o]? = some 0x50 ∧ d[o + 1]? = some 0x4B ∧ (d[o + 2]? = some 0x03 ∨ d[o + 2]? = some 0x05) ∧
      (d[o + 3]? = some 0x04 ∨ d[o + 3]? = some 0x06) := by
  have hvalue : ∃ v, u32le d o = some v ∧ (v = lfhSig ∨ v = eocdSig) := by
    rcases h with h | h
    · exact ⟨_, h, .inl rfl⟩
    · exact ⟨_, h, .inr rfl⟩
  obtain ⟨v, hread, hv⟩ := hvalue
  simp only [u32le, Option.bind_eq_bind, Option.bind_eq_some_iff, Option.some.injEq] at hread
  obtain ⟨b₀, h₀, b₁, h₁, b₂, h₂, b₃, h₃, hsum⟩ := hread
  have hb₀ := b₀.toNat_lt
  have hb₁ := b₁.toNat_lt
  have hb₂ := b₂.toNat_lt
  have hb₃ := b₃.toNat_lt
  rw [h₀, h₁, h₂, h₃]
  simp only [Option.some.injEq, ← UInt8.toNat_inj]
  unfold lfhSig eocdSig at hv
  rcases hv with rfl | rfl
  · exact ⟨by change _ = 0x50; omega, by change _ = 0x4B; omega,
      .inl (by change _ = 0x03; omega), .inl (by change _ = 0x04; omega)⟩
  · exact ⟨by change _ = 0x50; omega, by change _ = 0x4B; omega,
      .inr (by change _ = 0x05; omega), .inr (by change _ = 0x06; omega)⟩

/-- A signature contains no zero byte, and its own first byte only once. -/
theorem sig_byte (h : u32le d o = some lfhSig ∨ u32le d o = some eocdSig) {k : ℕ} (hk : k < 4) :
    ∃ b, d[o + k]? = some b ∧ b ≠ 0 ∧ (0 < k → b ≠ 0x50) := by
  obtain ⟨h₀, h₁, h₂, h₃⟩ := bytes_of_sig h
  interval_cases k
  · exact ⟨_, h₀, by decide, fun hpos ↦ absurd hpos (lt_irrefl 0)⟩
  · exact ⟨_, h₁, by decide, fun _ ↦ by decide⟩
  · rcases h₂ with h₂ | h₂
    · exact ⟨_, h₂, by decide, fun _ ↦ by decide⟩
    · exact ⟨_, h₂, by decide, fun _ ↦ by decide⟩
  · rcases h₃ with h₃ | h₃
    · exact ⟨_, h₃, by decide, fun _ ↦ by decide⟩
    · exact ⟨_, h₃, by decide, fun _ ↦ by decide⟩

theorem not_sig_of_start {k : ℕ} (hpos : 0 < k) (hk : k < 4) (h : d[o + k]? = some 0x50) :
    ¬ (u32le d o = some lfhSig ∨ u32le d o = some eocdSig) := by
  intro hsig
  obtain ⟨b, hb, -, hne⟩ := sig_byte hsig hk
  exact hne hpos (Option.some.inj (hb.symm.trans h))

theorem not_sig_of_zero {k : ℕ} (hk : k < 4) (h : d[o + k]? = some 0) :
    ¬ (u32le d o = some lfhSig ∨ u32le d o = some eocdSig) := by
  intro hsig
  obtain ⟨b, hb, hne, -⟩ := sig_byte hsig hk
  exact hne (Option.some.inj (hb.symm.trans h))

theorem u32le_append_left (h : o + 4 ≤ x.length) : u32le (x ++ y) o = u32le x o :=
  u32le_congr fun k hk ↦ List.getElem?_append_left (by omega)

theorem u32le_append_right (h : x.length ≤ o) :
    u32le (x ++ y) o = u32le y (o - x.length) := by
  refine u32le_congr fun k _ ↦ ?_
  rw [List.getElem?_append_right (by omega)]
  congr 1
  omega

/-- No signature runs over the seam of `x` and `y`. -/
def SeamBreaks (x y : Bytes) : Prop :=
  x.getLast? = some 0 ∨ y.head? = some 0 ∨ y.head? = some 0x50

theorem not_sig_over_seam (hseam : SeamBreaks x y) (hlow : o < x.length)
    (hhigh : x.length < o + 4) :
    ¬ (u32le (x ++ y) o = some lfhSig ∨ u32le (x ++ y) o = some eocdSig) := by
  rcases hseam with hlast | hzero | hstart
  · refine not_sig_of_zero (k := x.length - 1 - o) (by omega) ?_
    rw [List.getLast?_eq_getElem?] at hlast
    rw [show o + (x.length - 1 - o) = x.length - 1 by omega,
      List.getElem?_append_left (by omega), hlast]
  · refine not_sig_of_zero (k := x.length - o) (by omega) ?_
    rw [show o + (x.length - o) = x.length by omega, List.getElem?_append_right le_rfl,
      Nat.sub_self, ← List.head?_eq_getElem?, hzero]
  · refine not_sig_of_start (k := x.length - o) (by omega) (by omega) ?_
    rw [show o + (x.length - o) = x.length by omega, List.getElem?_append_right le_rfl,
      Nat.sub_self, ← List.head?_eq_getElem?, hstart]

/-- What is put together without a signature over the seam spells none. -/
theorem Unspelled.append (hx : Unspelled x) (hy : Unspelled y) (hseam : SeamBreaks x y) :
    Unspelled (x ++ y) := by
  intro k
  rw [← not_or]
  by_cases hleft : k + 4 ≤ x.length
  · rw [u32le_append_left hleft, not_or]
    exact hx k
  · by_cases hright : x.length ≤ k
    · rw [u32le_append_right hright, not_or]
      exact hy _
    · exact not_sig_over_seam hseam (by omega) (by omega)

/-! ## Directory records -/

namespace DirRecord

/-- The fields a record has in common with the local header it describes, in the order both have
them. -/
def shared (r : DirRecord) : Bytes :=
  le16 r.needed ++ le16 r.flags ++ le16 r.method ++ le16 r.time ++ le16 r.date ++ le32 r.crc ++
    le32 r.comp ++ le32 r.uncomp ++ le16 r.name.length

end DirRecord

end VeraqisRecover.Zip
