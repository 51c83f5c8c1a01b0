import VeraqisRecover.Support.Checked

/-!
# Partial correctness of computations that may fault

What holds of every value a run can return, whether or not it returns.  Nothing has to be shown
about the operations on the way.
-/

namespace Checked

variable {α β : Type}

/-- Whatever the run returns satisfies `P`. -/
def Yields (x : Checked α) (P : α → Prop) : Prop := ∀ v, x = .ok v → P v

section

variable {P Q : α → Prop} {R : β → Prop} {x : Checked α}

theorem yields_pure {v : α} (h : P v) : Yields (pure v) P := by
  intro w hw
  exact Except.ok.inj hw ▸ h

theorem Yields.mono (h : Yields x P) (hPQ : ∀ v, P v → Q v) : Yields x Q :=
  fun v hv ↦ hPQ v (h v hv)

theorem Returns.yields (h : Returns x P) : Yields x P := fun _ hv ↦ h.of_eq_ok hv

/-- The rule of sequencing, with what is known of the first value. -/
theorem Yields.bind {f : α → Checked β} (hx : Yields x P) (hf : ∀ v, P v → Yields (f v) R) :
    Yields (x >>= f) R := by
  intro w hw
  obtain ⟨v, hv, hw⟩ := bind_eq_ok.mp hw
  exact hf v (hx v hv) w hw

/-- The rule of sequencing when nothing need be known of the first value. -/
theorem yields_bind {f : α → Checked β} (hf : ∀ v, Yields (f v) R) : Yields (x >>= f) R := by
  intro w hw
  obtain ⟨v, -, hw⟩ := bind_eq_ok.mp hw
  exact hf v w hw

theorem yields_ite {c : Prop} [Decidable c] {y : Checked α} (hx : c → Yields x P)
    (hy : ¬ c → Yields y P) : Yields (if c then x else y) P := by
  split
  · exact hx ‹_›
  · exact hy ‹_›

end

end Checked
