import VeraqisRecover.Support.ByteString

/-!
# Writing into a buffer

`overwrite d o s` is the buffer `d` with the bytes `s` written at offset `o`.
A range of the result is what was written there, or what stood there before.
-/

namespace ByteString

/-- The `n` bytes of `d` from offset `o` on. -/
def field (d : Bytes) (o n : ℕ) : Bytes := (d.drop o).take n

/-- `d[o..o + s.len()].copy_from_slice(s)`. -/
def overwrite (d : Bytes) (o : ℕ) (s : Bytes) : Bytes :=
  d.take o ++ s ++ d.drop (o + s.length)

theorem length_overwrite {d s : Bytes} {o : ℕ} (h : o + s.length ≤ d.length) :
    (overwrite d o s).length = d.length := by
  simp only [overwrite, List.length_append, List.length_take, List.length_drop]
  omega

theorem length_field {d : Bytes} {o n : ℕ} (h : o + n ≤ d.length) : (field d o n).length = n := by
  rw [field, List.length_take, List.length_drop]
  omega

theorem take_overwrite {d s : Bytes} {o : ℕ} (h : o ≤ d.length) :
    (overwrite d o s).take o = d.take o := by
  rw [overwrite, List.append_assoc]
  exact List.take_left' (by rw [List.length_take]; omega)

theorem drop_overwrite {d s : Bytes} {o : ℕ} (h : o ≤ d.length) :
    (overwrite d o s).drop (o + s.length) = d.drop (o + s.length) := by
  rw [overwrite]
  exact List.drop_left' (by rw [List.length_append, List.length_take]; omega)

/-- A field that starts where the bytes were written begins with them. -/
theorem field_overwrite_at {d s : Bytes} {o : ℕ} (h : o ≤ d.length) (n : ℕ) :
    field (overwrite d o s) o n = (s ++ d.drop (o + s.length)).take n := by
  rw [field, overwrite, List.append_assoc, List.drop_left' (by rw [List.length_take]; omega)]

theorem field_overwrite_self {d s : Bytes} {o n : ℕ} (h : o ≤ d.length) (hn : n ≤ s.length) :
    field (overwrite d o s) o n = s.take n := by
  rw [field_overwrite_at h, List.take_append_of_le_length hn]

/-- A field outside the written range keeps its bytes. -/
theorem field_overwrite_of_apart {d s : Bytes} {o a n : ℕ} (h : o ≤ d.length)
    (hapart : a + n ≤ o ∨ o + s.length ≤ a) : field (overwrite d o s) a n = field d a n := by
  rcases hapart with ha | ha
  · have htake := congrArg (fun l ↦ (l.drop a).take n) (take_overwrite (s := s) h)
    simp only [List.drop_take, List.take_take, min_eq_left (show n ≤ o - a by omega)] at htake
    exact htake
  · have hdrop := congrArg (fun l ↦ (l.drop (a - (o + s.length))).take n)
      (drop_overwrite (s := s) h)
    simp only [List.drop_drop, show o + s.length + (a - (o + s.length)) = a by omega] at hdrop
    exact hdrop

/-- A write inside of a field, seen in that field. -/
theorem field_overwrite_inside {d s : Bytes} {o a n : ℕ} (h : o + n ≤ d.length)
    (ha : a + s.length ≤ n) : field (overwrite d (o + a) s) o n = overwrite (field d o n) a s := by
  have hlen : (d.drop o).length = d.length - o := List.length_drop
  have htake : (d.take (o + a)).drop o = (d.drop o).take a := by
    rw [List.drop_take, Nat.add_sub_cancel_left]
  have hdrop : d.drop (o + a + s.length) = (d.drop o).drop (a + s.length) := by
    rw [List.drop_drop, Nat.add_assoc]
  have hhead : ((d.drop o).take a).length = a := by
    rw [List.length_take]
    omega
  rw [field, overwrite, List.append_assoc, List.drop_append_of_le_length (by
    rw [List.length_take]; omega), htake, hdrop, ← List.append_assoc, overwrite, field,
    List.take_take, min_eq_left (by omega), List.drop_take,
    List.take_append, List.length_append, hhead, List.take_of_length_le (by
      rw [List.length_append, hhead]; exact ha)]

theorem field_add (d : Bytes) (a m n : ℕ) :
    field d a (m + n) = field d a m ++ field d (a + m) n := by
  rw [field, field, field, List.take_add, List.drop_drop]

theorem field_append (pre d : Bytes) (a n : ℕ) :
    field (pre ++ d) (pre.length + a) n = field d a n := by
  rw [field, field, List.drop_length_add_append]

theorem field_zero_length {d : Bytes} {n : ℕ} (h : d.length = n) (rest : Bytes) :
    field (d ++ rest) 0 n = d := by
  rw [field, List.drop_zero, ← h, List.take_left]

theorem getElem?_field {d : Bytes} {o n i : ℕ} (h : i < n) : (field d o n)[i]? = d[o + i]? := by
  rw [field, List.getElem?_take_of_lt h, List.getElem?_drop]

/-- Fields of as many bytes are the same where their bytes are. -/
theorem field_congr {d e : Bytes} {o n : ℕ}
    (h : ∀ x, o ≤ x → x < o + n → d[x]? = e[x]?) : field d o n = field e o n := by
  apply List.ext_getElem?
  intro i
  by_cases hi : i < n
  · rw [getElem?_field hi, getElem?_field hi]
    exact h (o + i) (Nat.le_add_right _ _) (Nat.add_lt_add_left hi _)
  · have hlen : ∀ l : Bytes, (field l o n).length ≤ i := by
      intro l
      rw [field, List.length_take]
      omega
    rw [List.getElem?_eq_none (hlen d), List.getElem?_eq_none (hlen e)]

/-! ## Several writes -/

/-- Write each string at its offset, in order. -/
def writeAll (d : Bytes) (ws : List (ℕ × Bytes)) : Bytes :=
  ws.foldl (fun d w ↦ overwrite d w.1 w.2) d

/-- Every write stays inside a buffer of `n` bytes. -/
def Fits (n : ℕ) (ws : List (ℕ × Bytes)) : Prop := ∀ w ∈ ws, w.1 + w.2.length ≤ n

/-- No write touches the `n` bytes from offset `a` on. -/
def Spares (a n : ℕ) (ws : List (ℕ × Bytes)) : Prop :=
  ∀ w ∈ ws, a + n ≤ w.1 ∨ w.1 + w.2.length ≤ a

theorem length_writeAll {d : Bytes} {ws : List (ℕ × Bytes)} (h : Fits d.length ws) :
    (writeAll d ws).length = d.length := by
  induction ws generalizing d with
  | nil => rfl
  | cons w ws ih =>
      have hw := length_overwrite (h w List.mem_cons_self)
      refine (ih fun v hv ↦ ?_).trans hw
      rw [hw]
      exact h v (List.mem_cons_of_mem w hv)

theorem field_writeAll_of_spares {d : Bytes} {ws : List (ℕ × Bytes)} {a n : ℕ}
    (hfits : Fits d.length ws) (hspares : Spares a n ws) :
    field (writeAll d ws) a n = field d a n := by
  induction ws generalizing d with
  | nil => rfl
  | cons w ws ih =>
      have hw := hfits w List.mem_cons_self
      have hlen := length_overwrite hw
      have hrest : Fits (overwrite d w.1 w.2).length ws := by
        intro v hv
        rw [hlen]
        exact hfits v (List.mem_cons_of_mem w hv)
      exact (ih hrest fun v hv ↦ hspares v (List.mem_cons_of_mem w hv)).trans
        (field_overwrite_of_apart (by omega) (hspares w List.mem_cons_self))

/-- A field no later write touches is what its own write put there. -/
theorem field_writeAll {d s : Bytes} {ws : List (ℕ × Bytes)} {a n : ℕ} (i : ℕ)
    (hfits : Fits d.length ws) (hi : ws[i]? = some (a, s)) (hn : n ≤ s.length)
    (hspares : Spares a n (ws.drop (i + 1))) : field (writeAll d ws) a n = s.take n := by
  obtain ⟨hlt, hget⟩ := List.getElem?_eq_some_iff.mp hi
  have hsplit : ws = ws.take i ++ (a, s) :: ws.drop (i + 1) := by
    rw [← hget, List.getElem_cons_drop, List.take_append_drop]
  have hpre : (writeAll d (ws.take i)).length = d.length :=
    length_writeAll fun w hw ↦ hfits w (List.mem_of_mem_take hw)
  have ha : a + s.length ≤ d.length := hfits (a, s) (List.mem_of_getElem? hi)
  have hmid := length_overwrite (d := writeAll d (ws.take i)) (s := s) (o := a) (by rwa [hpre])
  have hpost : Fits (overwrite (writeAll d (ws.take i)) a s).length (ws.drop (i + 1)) := by
    intro w hw
    rw [hmid, hpre]
    exact hfits w (List.mem_of_mem_drop hw)
  rw [hsplit, writeAll, List.foldl_append, List.foldl_cons]
  exact (field_writeAll_of_spares hpost hspares).trans
    (field_overwrite_self (by rw [hpre]; omega) hn)

/-! ## Single bytes -/

/-- The write covers the byte at `x`. -/
def Covers (w : ℕ × Bytes) (x : ℕ) : Prop := w.1 ≤ x ∧ x < w.1 + w.2.length

theorem getElem?_overwrite_of_apart {d s : Bytes} {o x : ℕ} (h : o + s.length ≤ d.length)
    (hx : ¬Covers (o, s) x) : (overwrite d o s)[x]? = d[x]? := by
  have hlen : (d.take o).length = o := by
    rw [List.length_take]
    omega
  rw [overwrite, List.append_assoc]
  by_cases hlow : x < o
  · rw [List.getElem?_append_left (by omega), List.getElem?_take_of_lt hlow]
  · have hhigh : o + s.length ≤ x := by
      by_contra hno
      exact hx ⟨not_lt.mp hlow, not_le.mp hno⟩
    rw [List.getElem?_append_right (by omega), List.getElem?_append_right (by omega),
      List.getElem?_drop, hlen]
    congr 1
    omega

theorem getElem?_overwrite_of_covers {d s : Bytes} {o x : ℕ} (h : o + s.length ≤ d.length)
    (hx : Covers (o, s) x) : (overwrite d o s)[x]? = s[x - o]? := by
  obtain ⟨hlow, hhigh⟩ := hx
  have hlen : (d.take o).length = o := by
    rw [List.length_take]
    omega
  dsimp only at hlow hhigh
  rw [overwrite, List.append_assoc, List.getElem?_append_right (by omega),
    List.getElem?_append_left (by omega), hlen]

/-- A byte stays when every write that covers it writes what is there. -/
theorem getElem?_writeAll_of_agrees {d : Bytes} {ws : List (ℕ × Bytes)} {x : ℕ}
    (h : Fits d.length ws) (hx : ∀ w ∈ ws, Covers w x → d[x]? = w.2[x - w.1]?) :
    (writeAll d ws)[x]? = d[x]? := by
  induction ws generalizing d with
  | nil => rfl
  | cons w ws ih =>
      have hw := h w List.mem_cons_self
      have hlen := length_overwrite hw
      have hrest : Fits (overwrite d w.1 w.2).length ws := by
        rw [hlen]
        exact fun u hu ↦ h u (List.mem_cons_of_mem _ hu)
      have hfirst : (overwrite d w.1 w.2)[x]? = d[x]? := by
        by_cases hcovers : Covers w x
        · rw [hx w List.mem_cons_self hcovers]
          exact getElem?_overwrite_of_covers hw hcovers
        · exact getElem?_overwrite_of_apart hw hcovers
      rw [writeAll, List.foldl_cons, ← writeAll, ih hrest, hfirst]
      intro u hu hcovers
      rw [hfirst]
      exact hx u (List.mem_cons_of_mem _ hu) hcovers

theorem getElem?_writeAll_of_apart {d : Bytes} {ws : List (ℕ × Bytes)} {x : ℕ}
    (h : Fits d.length ws) (hx : ∀ w ∈ ws, ¬Covers w x) : (writeAll d ws)[x]? = d[x]? :=
  getElem?_writeAll_of_agrees h fun w hw hcovers ↦ absurd hcovers (hx w hw)

/-- The last write that covers a byte decides it. -/
theorem getElem?_writeAll_of_last {d : Bytes} {pre post : List (ℕ × Bytes)} {w : ℕ × Bytes} {x : ℕ}
    (h : Fits d.length (pre ++ w :: post)) (hw : Covers w x) (hx : ∀ u ∈ post, ¬Covers u x) :
    (writeAll d (pre ++ w :: post))[x]? = w.2[x - w.1]? := by
  have hpre : Fits d.length pre := fun u hu ↦ h u (List.mem_append_left _ hu)
  have hfit : w.1 + w.2.length ≤ (writeAll d pre).length := by
    rw [length_writeAll hpre]
    exact h w (List.mem_append_right _ List.mem_cons_self)
  have hpost : Fits (overwrite (writeAll d pre) w.1 w.2).length post := by
    rw [length_overwrite hfit, length_writeAll hpre]
    exact fun u hu ↦ h u (List.mem_append_right _ (List.mem_cons_of_mem _ hu))
  have hsplit : writeAll d (pre ++ w :: post) =
      writeAll (overwrite (writeAll d pre) w.1 w.2) post := by
    rw [writeAll, List.foldl_append, List.foldl_cons]
    rfl
  rw [hsplit, getElem?_writeAll_of_apart hpost hx]
  exact getElem?_overwrite_of_covers hfit hw

end ByteString
