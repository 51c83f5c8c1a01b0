import VeraqisRecover.Support.ByteString

/-!
# One changed byte

What stands at an offset of a byte string stays when a byte elsewhere is
changed, and changes in one byte when the byte is one of its own.
-/

namespace ByteString

namespace At

variable {d s t : Bytes} {o : ℕ}

theorem set_apart (h : At d o s) {i : ℕ} (hi : i < o ∨ o + s.length ≤ i) (v : UInt8) :
    At (d.set i v) o s := by
  obtain ⟨r, hr⟩ := h
  rcases hi with hlow | hhigh
  · rw [At, List.drop_set, if_pos hlow]
    exact ⟨r, hr⟩
  · refine ⟨r.set (i - o - s.length) v, ?_⟩
    rw [List.drop_set, if_neg (by omega), ← hr, List.set_append, if_neg (by omega)]

theorem set_inside (h : At d o s) {k : ℕ} (hk : k < s.length) (v : UInt8) :
    At (d.set (o + k) v) o (s.set k v) := by
  obtain ⟨r, hr⟩ := h
  refine ⟨r, ?_⟩
  rw [List.drop_set, if_neg (by omega), ← hr, List.set_append, Nat.add_sub_cancel_left, if_pos hk]

end At

theorem eq_ofNat {b : UInt8} {n : ℕ} (h : n % 256 = b.toNat) : b = UInt8.ofNat n := by
  apply UInt8.toNat_inj.mp
  rw [UInt8.toNat_ofNat', ← h]

/-- Four bytes are the encoding of the number they spell. -/
theorem eq_le32_of_u32le {c : Bytes} {v : ℕ} (hlen : c.length = 4) (h : u32le c 0 = some v) :
    c = le32 v := by
  match c, hlen with
  | [b₀, b₁, b₂, b₃], _ =>
      have h₀ := b₀.toNat_lt
      have h₁ := b₁.toNat_lt
      have h₂ := b₂.toNat_lt
      have h₃ := b₃.toNat_lt
      simp only [u32le, List.getElem?_cons_zero, List.getElem?_cons_succ, Option.bind_eq_bind,
        Option.bind_some, Option.some.injEq] at h
      have e₀ : b₀ = UInt8.ofNat v := eq_ofNat (by omega)
      have e₁ : b₁ = UInt8.ofNat (v / 256) := eq_ofNat (by omega)
      have e₂ : b₂ = UInt8.ofNat (v / 65536) := eq_ofNat (by omega)
      have e₃ : b₃ = UInt8.ofNat (v / 16777216) := eq_ofNat (by omega)
      rw [le32, ← e₀, ← e₁, ← e₂, ← e₃]

end ByteString
