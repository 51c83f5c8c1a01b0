import VeraqisRecover.Zip.OffsetMonotone

/-!
# The shift of one segment

A segment adds its delta in signed 64-bit integers.  An offset from 2^63 on reads as a
negative number there: what should leave the file at its end comes back at its beginning.
-/

namespace VeraqisRecover.Zip

namespace OffsetSegment

/-- The delta is a signed 64-bit integer. -/
def Fits (s : OffsetSegment) : Prop := -2 ^ 63 ≤ s.delta ∧ s.delta < 2 ^ 63

/-- The segment adds its delta over the integers, and gives nothing outside 64 bits. -/
def ExactAt (s : OffsetSegment) (x : ℕ) : Prop :=
  ∀ v : ℕ, s.apply x = some v ↔ (x : ℤ) + s.delta = v ∧ v < 2 ^ 64

variable {s : OffsetSegment} {x v : ℕ}

theorem apply_low (hx : x < 2 ^ 63) :
    s.apply x = some v ↔ (x : ℤ) + s.delta = v ∧ v < 2 ^ 63 := by
  rw [apply_eq_some, wrapI64_eq (by omega) (by omega), if_pos (by omega)]

/-- From 2^63 on the sum comes out one turn of the 64-bit integers too low. -/
theorem apply_high (hs : s.Fits) (hlow : 2 ^ 63 ≤ x) (hx : x < 2 ^ 64) :
    s.apply x = some v ↔ (x : ℤ) + s.delta = v + 2 ^ 64 := by
  obtain ⟨-, hlt⟩ := hs
  rw [apply_eq_some, wrapI64_eq (by omega) (by omega), if_neg (by omega)]
  omega

/-- The offset that marks a removed header is shifted by every positive delta. -/
theorem apply_offsetMax (hs : s.Fits) : s.apply offsetMax = some v ↔ s.delta = v + 1 := by
  rw [apply_high hs (by unfold offsetMax; omega) (by unfold offsetMax; omega)]
  unfold offsetMax
  omega

theorem apply_offsetMax_eq_none (hs : s.Fits) : s.apply offsetMax = none ↔ s.delta ≤ 0 := by
  rw [Option.eq_none_iff_forall_not_mem]
  constructor
  · intro hnone
    by_contra hpos
    refine hnone (s.delta - 1).toNat ((apply_offsetMax hs).mpr ?_)
    omega
  · intro hle v hv
    have hdelta := (apply_offsetMax hs).mp hv
    omega

theorem exactAt_low (hs : s.Fits) (hx : x < 2 ^ 63) :
    s.ExactAt x ↔ (x : ℤ) + s.delta < 2 ^ 63 := by
  obtain ⟨-, hlt⟩ := hs
  constructor
  · intro hexact
    by_contra hbig
    -- the sum is an offset, but no signed integer
    have happly := (hexact ((x : ℤ) + s.delta).toNat).mpr (by omega)
    have hsmall := ((apply_low hx).mp happly).2
    omega
  · intro hsum v
    rw [apply_low hx]
    omega

theorem not_exactAt_high (hs : s.Fits) (hlow : 2 ^ 63 ≤ x) (hx : x < 2 ^ 64) : ¬ s.ExactAt x := by
  intro hexact
  have hhigh := fun v : ℕ ↦ @apply_high s x v hs hlow hx
  obtain ⟨hge, hlt⟩ := hs
  rcases lt_or_ge ((x : ℤ) + s.delta) (2 ^ 64) with hfits | hover
  · have happly := (hexact ((x : ℤ) + s.delta).toNat).mpr (by omega)
    have hsum := (hhigh _).mp happly
    omega
  · have happly := (hhigh ((x : ℤ) + s.delta - 2 ^ 64).toNat).mpr (by omega)
    obtain ⟨hsum, -⟩ := (hexact _).mp happly
    omega

/-- The shift is exact for offsets below 2^63 that stay there; a removed header keeps its mark
where the delta is not positive. -/
theorem apply_exact_iff (hs : s.Fits) (hx : x < 2 ^ 64) :
    (s.ExactAt x ↔ x < 2 ^ 63 ∧ (x : ℤ) + s.delta < 2 ^ 63) ∧
      (s.apply offsetMax = none ↔ s.delta ≤ 0) := by
  refine ⟨?_, apply_offsetMax_eq_none hs⟩
  rcases lt_or_ge x (2 ^ 63) with hlow | hhigh
  · rw [exactAt_low hs hlow]
    exact (and_iff_right hlow).symm
  · exact iff_of_false (not_exactAt_high hs hhigh hx) fun h ↦ absurd h.1 (Nat.not_lt.mpr hhigh)

theorem apply_exact_iff_moved_back :
    (ExactAt ⟨0, offsetMax, -256, 5⟩ 7522 ↔ 7522 < 2 ^ 63 ∧ ((7522 : ℕ) : ℤ) + -256 < 2 ^ 63) ∧
      (apply ⟨0, offsetMax, -256, 5⟩ offsetMax = none ↔ (-256 : ℤ) ≤ 0) :=
  apply_exact_iff (s := ⟨0, offsetMax, -256, 5⟩) ⟨by decide, by decide⟩ (by decide)

/-- One byte put in front of a file: the mark of a removed header is translated to offset 0. -/
theorem moved_ahead_not_exact :
    (OffsetMap.infer [⟨0, 1⟩] 4).segments = [⟨0, offsetMax, 1, 1⟩] ∧
      (OffsetMap.infer [⟨0, 1⟩] 4).map offsetMax = some 0 ∧
        ¬ ExactAt ⟨0, offsetMax, 1, 1⟩ offsetMax := by
  refine ⟨by decide, by decide, fun hexact ↦ ?_⟩
  have hsum := ((hexact 0).mp (by decide)).1
  exact absurd hsum (by decide)

end OffsetSegment

namespace OffsetMap

variable {obs : List OffsetObservation} {cap v : ℕ}

/-- A removed header is put back into the file wherever the furthest observation has moved
towards the end. -/
theorem map_offsetMax (hsmall : Small obs) (hu : (infer obs cap).isUsable = true) :
    (infer obs cap).map offsetMax = some v ↔
      ∃ o, Furthest obs o ∧ o.physical = o.stored + v + 1 := by
  have hst := infer_stretched hu hsmall.storedFit
  obtain ⟨hne, -⟩ := infer_usable hu
  obtain ⟨o, ho, hlast⟩ := exists_last (mt kept_eq_nil_iff.mp hne)
  obtain ⟨hstored, hphysical⟩ := hsmall o (kept_subset ho)
  obtain ⟨s, hs, hd, -, hrest⟩ := hst.last_contains ho hlast
  have hdelta := hd.trans (hsmall.deltaOf (kept_subset ho))
  have hcontains := hrest offsetMax (by unfold offsetMax; omega) le_rfl
  rw [map_of_contains hu hst hs hcontains,
    OffsetSegment.apply_offsetMax ⟨by omega, by omega⟩, hdelta]
  constructor
  · intro heq
    exact ⟨o, furthest_iff.mpr ⟨ho, hlast⟩, by omega⟩
  · rintro ⟨z, hz, heq⟩
    obtain ⟨hzk, hzlast⟩ := furthest_iff.mp hz
    obtain rfl := kept_eq_of_stored_eq hzk ho (le_antisymm (hlast z hzk) (hzlast o ho))
    omega

end OffsetMap

end VeraqisRecover.Zip
