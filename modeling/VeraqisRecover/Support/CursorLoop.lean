import VeraqisRecover.Support.Checked

/-!
# Loops that move a cursor

A loop over a buffer whose every turn either ends with an answer or moves the cursor forward,
and the rule that carries an invariant from turn to turn.
-/

namespace Checked

/-- How a turn ends. -/
inductive Turn (α : Type)
  | stop (a : α)
  | next (cursor : ℕ)

/-- The answer of a turn that ends the loop, or where the cursor of any other stands. -/
def Turn.Meets {α : Type} (P : α → Prop) (I : ℕ → Prop) : Turn α → Prop
  | stop a => P a
  | next cursor => I cursor

/-- A loop body that moves the cursor only forward, and only from below a bound. -/
structure CursorLoop (α : Type) where
  bound : ℕ
  turn : ℕ → Checked (Turn α)
  advances : ∀ {c c' : ℕ}, turn c = .ok (.next c') → c < c' ∧ c < bound

namespace CursorLoop

variable {α : Type} (l : CursorLoop α)

def run (cursor : ℕ) : Checked α :=
  match hturn : l.turn cursor with
  | .error f => .error f
  | .ok (.stop a) => .ok a
  | .ok (.next cursor') =>
      have := l.advances hturn
      run cursor'
termination_by l.bound - cursor

/-- The loop returns what its turns establish, if each of them keeps the invariant. -/
theorem run_returns {P : α → Prop} {I : ℕ → Prop}
    (hturn : ∀ c, I c → Returns (l.turn c) (Turn.Meets P I)) {cursor : ℕ} (hcursor : I cursor) :
    Returns (l.run cursor) P := by
  fun_induction run l cursor with
  | case1 cursor f h => exact absurd h (hturn cursor hcursor).ne_error
  | case2 cursor a h => exact returns_ok ((hturn cursor hcursor).of_eq_ok h)
  | case3 cursor cursor' h _ ih => exact ih ((hturn cursor hcursor).of_eq_ok h)

end CursorLoop

end Checked
