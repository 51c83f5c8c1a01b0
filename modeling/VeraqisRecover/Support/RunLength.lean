import Mathlib

/-!
# Run lengths

The runs of equal neighbours of a list, each with its length.  A run of length one between
two others is an element that differs from both its neighbours.
-/

namespace RunLength

variable {α : Type*}

/-- What stands inside a list has something on either side. -/
theorem mem_tail_dropLast {l : List α} {r : α} :
    r ∈ l.tail.dropLast ↔ ∃ b c, [b, r, c] <:+: l := by
  constructor
  · intro hr
    obtain ⟨p, q, hpq⟩ := List.append_of_mem hr
    have htail : l.tail ≠ [] := by
      intro hnil
      simp [hnil] at hr
    have hne : l ≠ [] := by
      rintro rfl
      exact htail rfl
    -- the list with its two ends put back
    obtain ⟨p', b, hb⟩ := (List.eq_nil_or_concat' (l.head hne :: p)).resolve_left (by simp)
    obtain ⟨c, q', hc⟩ := List.exists_cons_of_ne_nil (l := q ++ [l.tail.getLast htail]) (by simp)
    refine ⟨b, c, p', q', ?_⟩
    calc p' ++ [b, r, c] ++ q' = (p' ++ [b]) ++ r :: (c :: q') := by simp
      _ = l.head hne :: ((p ++ r :: q) ++ [l.tail.getLast htail]) := by
        rw [← hb, ← hc]
        simp
      _ = l := by rw [← hpq, List.dropLast_append_getLast, List.cons_head_tail]
  · rintro ⟨b, c, p, q, rfl⟩
    cases p with
    | nil => simp
    | cons a p => simp

variable [DecidableEq α]

/-- The runs of a list behind `n` copies of `a`. -/
def runsFrom (a : α) (n : ℕ) : List α → List (α × ℕ)
  | [] => [(a, n)]
  | b :: l => if a = b then runsFrom a (n + 1) l else (a, n) :: runsFrom b 1 l

/-- The runs of equal neighbours, each with its length. -/
def encode : List α → List (α × ℕ)
  | [] => []
  | a :: l => runsFrom a 1 l

def decode (runs : List (α × ℕ)) : List α := runs.flatMap fun r ↦ List.replicate r.2 r.1

theorem decode_runsFrom (a : α) (n : ℕ) (l : List α) :
    decode (runsFrom a n l) = List.replicate n a ++ l := by
  induction l generalizing a n with
  | nil => simp [runsFrom, decode]
  | cons b l ih =>
      rw [runsFrom]
      split
      · rename_i hab
        rw [ih, hab, List.replicate_succ', List.append_assoc, List.singleton_append]
      · have hrest := ih b 1
        simp only [decode, List.flatMap_cons, List.replicate_one, List.singleton_append] at hrest ⊢
        rw [hrest]

/-- The runs put the list together again. -/
theorem decode_encode (l : List α) : decode (encode l) = l := by
  cases l with
  | nil => rfl
  | cons a l => exact decode_runsFrom a 1 l

theorem pos_of_mem_runsFrom {a : α} {n : ℕ} (hn : 0 < n) {l : List α} :
    ∀ r ∈ runsFrom a n l, 0 < r.2 := by
  induction l generalizing a n with
  | nil => simpa [runsFrom] using hn
  | cons b l ih =>
      rw [runsFrom]
      split
      · exact ih (Nat.succ_pos n)
      · exact List.forall_mem_cons.mpr ⟨hn, ih Nat.one_pos⟩

theorem pos_of_mem_encode {l : List α} : ∀ r ∈ encode l, 0 < r.2 := by
  cases l with
  | nil => simp [encode]
  | cons a l => exact pos_of_mem_runsFrom Nat.one_pos

theorem map_fst_runsFrom (a : α) (n : ℕ) (l : List α) :
    (runsFrom a n l).map Prod.fst = l.destutter' (· ≠ ·) a := by
  induction l generalizing a n with
  | nil => rfl
  | cons b l ih =>
      rw [runsFrom]
      by_cases hab : a = b
      · rw [if_pos hab, ih, List.destutter'_cons_neg _ (not_not.mpr hab)]
      · rw [if_neg hab, List.map_cons, ih, List.destutter'_cons_pos _ hab]

/-- There are as many runs as the list has changes. -/
theorem map_fst_encode (l : List α) : (encode l).map Prod.fst = l.destutter (· ≠ ·) := by
  cases l with
  | nil => rfl
  | cons a l => exact map_fst_runsFrom a 1 l

theorem length_encode (l : List α) : (encode l).length = (l.destutter (· ≠ ·)).length := by
  rw [← map_fst_encode, List.length_map]

/-- Neighbouring runs differ. -/
theorem encode_isChain (l : List α) : (encode l).IsChain fun r r' ↦ r.1 ≠ r'.1 := by
  rw [← List.isChain_map (R := fun a b ↦ a ≠ b) Prod.fst, map_fst_encode]
  exact List.isChain_destutter _ l

theorem runsFrom_append_of_ne {x y : α} (hyx : y ≠ x) (a : α) (n : ℕ) (u w : List α) :
    runsFrom a n (u ++ y :: x :: w) = runsFrom a n (u ++ [y]) ++ encode (x :: w) := by
  induction u generalizing a n with
  | nil =>
      by_cases hay : a = y
      · subst hay
        simp [runsFrom, encode, hyx]
      · simp [runsFrom, encode, hay, hyx]
  | cons b u ih =>
      rw [List.cons_append, List.cons_append, runsFrom, runsFrom, ih, ih]
      split
      · rfl
      · rfl

/-- Where two neighbours differ, the runs split. -/
theorem encode_append_of_ne {x y : α} (hyx : y ≠ x) (u w : List α) :
    encode (u ++ y :: x :: w) = encode (u ++ [y]) ++ encode (x :: w) := by
  cases u with
  | nil => exact if_neg hyx
  | cons a u => exact runsFrom_append_of_ne hyx a 1 u w

theorem encode_cons_ne_nil (a : α) (l : List α) : encode (a :: l) ≠ [] := by
  intro hnil
  have hdecode := decode_encode (a :: l)
  rw [hnil] at hdecode
  cases hdecode

/-- Two neighbours of a list that stand in neighbouring runs. -/
theorem isolated_of_between {b r c : α × ℕ} {l : List α} (h : [b, r, c] <:+: encode l)
    (hr : r.2 = 1) : [b.1, r.1, c.1] <:+: l ∧ b.1 ≠ r.1 ∧ r.1 ≠ c.1 := by
  have hpos : ∀ s ∈ [b, r, c], 0 < s.2 := fun s hs ↦ pos_of_mem_encode s (h.subset hs)
  obtain ⟨p, q, hpq⟩ := h
  have hchain := encode_isChain l
  rw [← hpq] at hchain
  have hthree := hchain.left_of_append.right_of_append
  simp only [List.isChain_cons_cons, List.isChain_singleton, and_true] at hthree
  refine ⟨?_, hthree⟩
  obtain ⟨m, hm⟩ := Nat.exists_eq_add_one.mpr (hpos b (by simp))
  obtain ⟨n, hn⟩ := Nat.exists_eq_add_one.mpr (hpos c (by simp))
  refine ⟨decode p ++ List.replicate m b.1, List.replicate n c.1 ++ decode q, ?_⟩
  have hdecode := decode_encode l
  rw [← hpq] at hdecode
  rw [← hdecode]
  simp [decode, hm, hn, hr, List.replicate_succ' (n := m), List.replicate_succ (n := n)]

/-- A run of length one inside the list of runs is an element unlike both its neighbours. -/
theorem exists_short_iff {l : List α} :
    (∃ r ∈ (encode l).tail.dropLast, r.2 < 2) ↔
      ∃ x y z, [x, y, z] <:+: l ∧ x ≠ y ∧ y ≠ z := by
  constructor
  · rintro ⟨r, hr, hshort⟩
    have hmem := List.mem_of_mem_tail (List.mem_of_mem_dropLast hr)
    obtain ⟨b, c, hbetween⟩ := mem_tail_dropLast.mp hr
    have hpos := pos_of_mem_encode r hmem
    exact ⟨b.1, r.1, c.1, isolated_of_between hbetween (by omega)⟩
  · rintro ⟨x, y, z, ⟨u, w, rfl⟩, hxy, hyz⟩
    have hsplit : encode (u ++ [x, y, z] ++ w) =
        encode (u ++ [x]) ++ (y, 1) :: encode (z :: w) := by
      rw [List.append_assoc]
      refine (encode_append_of_ne hxy u (z :: w)).trans ?_
      rw [← List.singleton_append (l := encode (z :: w))]
      exact congrArg _ (encode_append_of_ne hyz [] w)
    refine ⟨(y, 1), ?_, Nat.one_lt_two⟩
    have hleft : encode (u ++ [x]) ≠ [] := by
      cases u with
      | nil => exact encode_cons_ne_nil x []
      | cons a u => exact encode_cons_ne_nil a (u ++ [x])
    obtain ⟨p, b, hb⟩ := (List.eq_nil_or_concat' _).resolve_left hleft
    obtain ⟨c, q, hc⟩ := List.exists_cons_of_ne_nil (encode_cons_ne_nil z w)
    refine mem_tail_dropLast.mpr ⟨b, c, p, q, ?_⟩
    rw [hsplit, hb, hc]
    simp

end RunLength
