import VeraqisRecover.Support.ByteString

/-!
# Readers with a cursor

A reader takes a byte string and a cursor and returns a value with the cursor
behind it.  A framed reader depends on nothing but the bytes that its cursor
passes.  Framed readers compose, and one of them reads the same value out of
every byte string that has these bytes at this place.
-/

abbrev Reader (α : Type) := Bytes → ℕ → Option (α × ℕ)

namespace Reader

open ByteString

variable {α β : Type}

/-- The cursor moves forward over bytes that are there, and no other byte matters. -/
structure Framed (r : Reader α) : Prop where
  le : ∀ {d p v q}, r d p = some (v, q) → p ≤ q
  le_length : ∀ {d p v q}, r d p = some (v, q) → p < q → q ≤ d.length
  congr : ∀ {d e p v q}, r d p = some (v, q) →
    (∀ i, p ≤ i → i < q → e[i]? = d[i]?) → r e p = some (v, q)

/-- Reading nothing. -/
theorem framed_pure (a : α) : Framed fun _ p ↦ some (a, p) where
  le h := by
    cases h
    exact le_refl _
  le_length h hlt := by
    cases h
    exact absurd hlt (lt_irrefl _)
  congr h _ := by
    cases h
    rfl

/-- One reader after the other. -/
theorem Framed.bind {r : Reader α} {k : Bytes → α × ℕ → Option (β × ℕ)} (hr : Framed r)
    (hk : ∀ a, Framed fun d p ↦ k d (a, p)) : Framed fun d p ↦ r d p >>= k d where
  le h := by
    obtain ⟨⟨a, m⟩, ha, hb⟩ := Option.bind_eq_some_iff.mp h
    exact (hr.le ha).trans ((hk a).le hb)
  le_length h hlt := by
    obtain ⟨⟨a, m⟩, ha, hb⟩ := Option.bind_eq_some_iff.mp h
    rcases ((hk a).le hb).lt_or_eq with hmq | rfl
    · exact (hk a).le_length hb hmq
    · exact hr.le_length ha hlt
  congr h hsame := by
    obtain ⟨⟨a, m⟩, ha, hb⟩ := Option.bind_eq_some_iff.mp h
    have hpm := hr.le ha
    have hmq := (hk a).le hb
    have ha' := hr.congr ha fun i hp hi ↦ hsame i hp (hi.trans_le hmq)
    have hb' := (hk a).congr hb fun i hm hi ↦ hsame i (hpm.trans hm) hi
    exact Option.bind_eq_some_iff.mpr ⟨(a, m), ha', hb'⟩

/-- A field that is only there under a condition. -/
def readIf (c : Bool) (r : Reader α) : Reader (Option α) := fun d p ↦
  if c then do
    let (v, p) ← r d p
    some (some v, p)
  else some (none, p)

theorem readIf_false (r : Reader α) (d : Bytes) (p : ℕ) : readIf false r d p = some (none, p) := rfl

theorem readIf_true {r : Reader α} {d : Bytes} {p q : ℕ} {v : α} (h : r d p = some (v, q)) :
    readIf true r d p = some (some v, q) := by
  rw [readIf, if_pos rfl, h]
  rfl

theorem Framed.readIf {r : Reader α} (hr : Framed r) (c : Bool) : Framed (readIf c r) := by
  cases c with
  | false => exact framed_pure none
  | true => exact hr.bind fun v ↦ framed_pure (some v)

/-! ## Readers that say why they fail -/

section Reporting

variable {ε : Type}

/-- `ok_or` -/
def okOr (e : ε) (x : Option α) : Except ε α := x.elim (.error e) .ok

@[simp] theorem okOr_some (e : ε) (a : α) : okOr e (some a) = .ok a := rfl

/-- A run whose result names the cursor behind it, framed where it succeeds. -/
def Reports (off : β → ℕ) (f : Bytes → ℕ → Except ε β) : Prop :=
  Framed fun d p ↦ (f d p).toOption.map fun b ↦ (b, off b)

theorem reports_error (off : β → ℕ) (e : ε) : Reports off fun _ _ ↦ .error e where
  le h := by cases h
  le_length h := by cases h
  congr h := by cases h

theorem reports_ok {off : β → ℕ} {value : ℕ → β} (hoff : ∀ p, off (value p) = p) :
    Reports off fun _ p ↦ (.ok (value p) : Except ε β) where
  le h := by
    obtain ⟨-, rfl⟩ := Prod.mk.inj (Option.some.inj h)
    exact (hoff _).ge
  le_length h hlt := by
    obtain ⟨-, rfl⟩ := Prod.mk.inj (Option.some.inj h)
    exact absurd hlt (hoff _).le.not_gt
  congr h _ := h

theorem Reports.ite {off : β → ℕ} {f g : Bytes → ℕ → Except ε β} (hf : Reports off f)
    (hg : Reports off g) (c : Prop) [Decidable c] :
    Reports off fun d p ↦ if c then f d p else g d p := by
  by_cases hc : c
  · simpa only [if_pos hc] using hf
  · simpa only [if_neg hc] using hg

/-- A framed reader, whose failure is reported as `e`, and a run behind it. -/
theorem Reports.bind {off : β → ℕ} {r : Reader α} {e : ε} {k : Bytes → α × ℕ → Except ε β}
    (hr : Framed r) (hk : ∀ a, Reports off fun d p ↦ k d (a, p)) :
    Reports off fun d p ↦ okOr e (r d p) >>= k d := by
  have hsame : (fun d p ↦ (okOr e (r d p) >>= k d).toOption.map fun b ↦ (b, off b)) =
      fun d p ↦ r d p >>= fun x ↦ (k d x).toOption.map fun b ↦ (b, off b) := by
    funext d p
    cases r d p with
    | none => rfl
    | some x => rfl
  rw [Reports, hsame]
  exact hr.bind hk

/-- A field that is there or not whatever the bytes are. -/
theorem Reports.field {off : β → ℕ} {k : α → Bytes → ℕ → Except ε β}
    (hk : ∀ a, Reports off (k a)) (e : ε) (x : Option α) :
    Reports off fun d p ↦ okOr e x >>= fun a ↦ k a d p := by
  cases x with
  | none => exact reports_error off e
  | some a => exact hk a

end Reporting

/-! ## Windows -/

/-- The byte string with nothing left of it but the bytes in `[s, e)`. -/
def window (d : Bytes) (s e : ℕ) : Bytes := List.replicate s 0 ++ (d.take e).drop s

theorem getElem?_window (d : Bytes) {s e i : ℕ} (hs : s ≤ i) (he : i < e) :
    (window d s e)[i]? = d[i]? := by
  rw [window, List.getElem?_append_right (by simpa using hs), List.length_replicate,
    List.getElem?_drop, Nat.add_sub_cancel' hs, List.getElem?_take_of_lt he]

theorem length_window_le (d : Bytes) {s e : ℕ} (h : s ≤ e) : (window d s e).length ≤ e := by
  rw [window, List.length_append, List.length_replicate, List.length_drop, List.length_take]
  omega

theorem slice?_window (d : Bytes) {s e a b : ℕ} (hs : s ≤ a) (he : b ≤ e) (hd : e ≤ d.length) :
    slice? (window d s e) a b = slice? d a b := by
  have hdrop : (window d s e).drop a = (d.take e).drop a := by
    rw [window, List.drop_append, List.length_replicate, List.drop_replicate,
      Nat.sub_eq_zero_of_le hs, List.replicate_zero, List.nil_append, List.drop_drop,
      Nat.add_sub_cancel' hs]
  have hlen : (window d s e).length = max s e := by
    rw [window, List.length_append, List.length_replicate, List.length_drop, List.length_take]
    omega
  rw [slice?, slice?, hdrop, hlen, ← List.drop_take, ← List.drop_take, List.take_take,
    min_eq_left he]
  by_cases hab : a ≤ b
  · rw [if_pos ⟨hab, by omega⟩, if_pos ⟨hab, by omega⟩]
  · rw [if_neg (by omega), if_neg (by omega)]

/-- What a framed reader finds in a window it finds in the whole too, without leaving the window. -/
theorem Framed.window_iff {r : Reader α} (hr : Framed r) {d : Bytes} {s e p q : ℕ} {v : α}
    (hs : s ≤ p) (he : p ≤ e) :
    r (window d s e) p = some (v, q) ↔ r d p = some (v, q) ∧ q ≤ e := by
  constructor
  · intro h
    have hq : q ≤ e := by
      rcases (hr.le h).lt_or_eq with hpq | hpq
      · exact (hr.le_length h hpq).trans (length_window_le d (hs.trans he))
      · exact hpq ▸ he
    refine ⟨hr.congr h ?_, hq⟩
    intro i hp hi
    exact (getElem?_window d (hs.trans hp) (hi.trans_le hq)).symm
  · rintro ⟨h, hq⟩
    apply hr.congr h
    intro i hp hi
    exact getElem?_window d (hs.trans hp) (hi.trans_le hq)

end Reader
