import Mathlib

/-!
# Scans that skip what they take

A forward scan looks at one position after the other.  Where something starts it takes it and goes
on behind it, and everywhere else it moves on by one.  What it takes are the starts that lie in
nothing taken before.
-/

/-- What can start at a position, given by the position behind it. -/
structure SkippingScan where
  stop : ℕ → Option ℕ
  lt : ∀ {p q : ℕ}, stop p = some q → p < q

namespace SkippingScan

variable (s t : SkippingScan)

/-- The starts taken from `p` on, below `n`. -/
def run (n p : ℕ) : List ℕ :=
  if p < n then
    match h : s.stop p with
    | some q =>
        have := s.lt h
        p :: run n q
    | none => run n (p + 1)
  else []
termination_by n - p

/-- The position lies in nothing that is taken. -/
def Exposed (p : ℕ) : Prop := ∀ q, q < p → ∀ r, s.stop q = some r → Exposed q → r ≤ p
termination_by p

variable {s t}

theorem run_of_stop {n p q : ℕ} (hp : p < n) (hq : s.stop p = some q) :
    s.run n p = p :: s.run n q := by
  rw [run, if_pos hp]
  split
  · rename_i r hr
    obtain rfl := Option.some.inj (hr.symm.trans hq)
    rfl
  · rename_i hnone
    cases hnone.symm.trans hq

theorem run_of_none {n p : ℕ} (hp : p < n) (hnone : s.stop p = none) :
    s.run n p = s.run n (p + 1) := by
  rw [run, if_pos hp]
  split
  · rename_i r hr
    cases hr.symm.trans hnone
  · rfl

theorem run_of_le {n p : ℕ} (hp : n ≤ p) : s.run n p = [] := by
  rw [run, if_neg (Nat.not_lt.mpr hp)]

theorem exposed_iff {p : ℕ} :
    s.Exposed p ↔ ∀ q < p, ∀ r, s.stop q = some r → s.Exposed q → r ≤ p := by
  rw [Exposed]

theorem Exposed.le {p q r : ℕ} (hp : s.Exposed p) (hq : s.Exposed q) (hqp : q < p)
    (hr : s.stop q = some r) : r ≤ p :=
  exposed_iff.mp hp q hqp r hr hq

theorem exposed_zero : s.Exposed 0 := exposed_iff.mpr fun _ h ↦ absurd h (Nat.not_lt_zero _)

/-- Behind what starts at an exposed position. -/
theorem Exposed.stop {p q : ℕ} (hp : s.Exposed p) (hq : s.stop p = some q) : s.Exposed q := by
  refine exposed_iff.mpr fun x hx r hr hexposed ↦ ?_
  rcases Nat.lt_trichotomy x p with hlt | rfl | hgt
  · exact (hp.le hexposed hlt hr).trans (s.lt hq).le
  · exact (Option.some.inj (hr.symm.trans hq)).le
  · exact absurd (hexposed.le hp hgt hq) hx.not_ge

theorem Exposed.succ {p : ℕ} (hp : s.Exposed p) (hnone : s.stop p = none) :
    s.Exposed (p + 1) := by
  refine exposed_iff.mpr fun x hx r hr hexposed ↦ ?_
  rcases Nat.lt_succ_iff_lt_or_eq.mp hx with hlt | rfl
  · exact (hp.le hexposed hlt hr).trans (Nat.le_succ p)
  · cases hnone.symm.trans hr

theorem mem_run_of_exposed {n p x : ℕ} (hp : s.Exposed p) :
    x ∈ s.run n p ↔ p ≤ x ∧ x < n ∧ (s.stop x).isSome = true ∧ s.Exposed x := by
  fun_induction run s n p with
  | case1 p hpn q hq _ ih =>
      rw [List.mem_cons, ih (hp.stop hq)]
      constructor
      · rintro (rfl | ⟨hle, hrest⟩)
        · exact ⟨le_rfl, hpn, by rw [hq]; rfl, hp⟩
        · exact ⟨(s.lt hq).le.trans hle, hrest⟩
      · rintro ⟨hle, hxn, hsome, hx⟩
        rcases Nat.eq_or_lt_of_le hle with rfl | hlt
        · exact Or.inl rfl
        · exact Or.inr ⟨hx.le hp hlt hq, hxn, hsome, hx⟩
  | case2 p hpn hnone ih =>
      rw [ih (hp.succ hnone)]
      constructor
      · rintro ⟨hle, hrest⟩
        exact ⟨(Nat.le_succ p).trans hle, hrest⟩
      · rintro ⟨hle, hxn, hsome, hx⟩
        refine ⟨Nat.lt_of_le_of_ne hle ?_, hxn, hsome, hx⟩
        rintro rfl
        rw [hnone] at hsome
        cases hsome
  | case3 p hpn =>
      constructor
      · intro h
        cases h
      · rintro ⟨hle, hxn, -⟩
        exact absurd (hle.trans_lt hxn) hpn

/-- The scan takes the exposed starts. -/
theorem mem_run {n x : ℕ} :
    x ∈ s.run n 0 ↔ x < n ∧ (s.stop x).isSome = true ∧ s.Exposed x := by
  rw [mem_run_of_exposed exposed_zero, and_iff_right (Nat.zero_le x)]

theorem le_of_mem_run {n p x : ℕ} (h : x ∈ s.run n p) : p ≤ x := by
  fun_induction run s n p with
  | case1 p _ q hq _ ih =>
      rcases List.mem_cons.mp h with rfl | h
      · exact le_rfl
      · exact (s.lt hq).le.trans (ih h)
  | case2 p _ _ ih => exact (Nat.le_succ p).trans (ih h)
  | case3 => cases h

/-- What is taken later starts behind what was taken before. -/
theorem run_apart (n p : ℕ) :
    (s.run n p).Pairwise fun x y ↦ ∀ r, s.stop x = some r → r ≤ y := by
  fun_induction run s n p with
  | case1 p _ q hq _ ih =>
      refine List.pairwise_cons.mpr ⟨fun y hy r hr ↦ ?_, ih⟩
      obtain rfl := Option.some.inj (hr.symm.trans hq)
      exact le_of_mem_run hy
  | case2 p _ _ ih => exact ih
  | case3 => exact List.Pairwise.nil

theorem isSome_of_mem_run {n p x : ℕ} (h : x ∈ s.run n p) : ∃ r, s.stop x = some r := by
  fun_induction run s n p with
  | case1 p _ q hq _ ih =>
      rcases List.mem_cons.mp h with rfl | h
      · exact ⟨q, hq⟩
      · exact ih h
  | case2 p _ _ ih => exact ih h
  | case3 => cases h

theorem run_increasing (n p : ℕ) : (s.run n p).Pairwise (· < ·) := by
  refine (run_apart n p).imp_of_mem fun {x y} hx _ hxy ↦ ?_
  obtain ⟨r, hr⟩ := isSome_of_mem_run hx
  exact (s.lt hr).trans_le (hxy r hr)

theorem run_nodup (n p : ℕ) : (s.run n p).Nodup := (run_increasing n p).imp Nat.ne_of_lt

theorem length_run_le (n p : ℕ) : (s.run n p).length ≤ n - p := by
  fun_induction run s n p with
  | case1 p hp q hq _ ih =>
      have hlt := s.lt hq
      rw [List.length_cons]
      omega
  | case2 p hp _ ih => omega
  | case3 => exact Nat.zero_le _

/-- A start that is not taken lies in something that is. -/
theorem mem_run_or_covered {n x : ℕ} (hx : x < n) (hsome : (s.stop x).isSome = true) :
    x ∈ s.run n 0 ∨ ∃ y ∈ s.run n 0, ∃ r, s.stop y = some r ∧ y < x ∧ x < r := by
  by_cases hexposed : s.Exposed x
  · exact Or.inl (mem_run.mpr ⟨hx, hsome, hexposed⟩)
  · rw [exposed_iff] at hexposed
    push Not at hexposed
    obtain ⟨y, hyx, r, hr, hy, hxr⟩ := hexposed
    exact Or.inr ⟨y, mem_run.mpr ⟨hyx.trans hx, by rw [hr]; rfl, hy⟩, r, hr, hyx, hxr⟩

/-! ## Two scans of one buffer -/

/-- `t` takes some of what `s` takes and, where both take something, may go on earlier, over
positions at which it takes nothing. -/
structure Follows (t s : SkippingScan) : Prop where
  start : ∀ {p q : ℕ}, t.stop p = some q → ∃ r, s.stop p = some r ∧ q ≤ r
  quiet : ∀ {p q r x : ℕ}, t.stop p = some q → s.stop p = some r → q ≤ x → x < r → t.stop x = none

/-- Something that only `s` takes hides a start of `t`. -/
def Hides (s t : SkippingScan) (n : ℕ) : Prop :=
  ∃ p q x, s.Exposed p ∧ s.stop p = some q ∧ t.stop p = none ∧ p < x ∧ x < q ∧ x < n ∧
    (t.stop x).isSome = true

variable {n : ℕ}

theorem exposed_iff_of_not_hides (h : Follows t s) (hides : ¬ Hides s t n) {x : ℕ} (hx : x < n)
    (hsome : (t.stop x).isSome = true) : t.Exposed x ↔ s.Exposed x := by
  induction x using Nat.strong_induction_on with
  | h x ih =>
      constructor
      · intro ht
        refine exposed_iff.mpr fun p hpx r hr hp ↦ ?_
        by_contra hlt
        cases htp : t.stop p with
        | none => exact hides ⟨p, r, x, hp, hr, htp, hpx, by omega, hx, hsome⟩
        | some q =>
            have hp' := (ih p hpx (hpx.trans hx) (by rw [htp]; rfl)).mpr hp
            have hquiet := h.quiet htp hr (ht.le hp' hpx htp) (by omega)
            rw [hquiet] at hsome
            cases hsome
      · intro hs
        refine exposed_iff.mpr fun p hpx q hq hp ↦ ?_
        obtain ⟨r, hr, hqr⟩ := h.start hq
        have hp' := (ih p hpx (hpx.trans hx) (by rw [hq]; rfl)).mp hp
        exact hqr.trans (hs.le hp' hpx hr)

/-- What `t` takes is what `s` takes of the starts of `t`, unless something that only `s` takes
hides one of them. -/
theorem run_agrees_iff (h : Follows t s) :
    (∀ x, x ∈ t.run n 0 ↔ x ∈ s.run n 0 ∧ (t.stop x).isSome = true) ↔ ¬ Hides s t n := by
  constructor
  · rintro hagree ⟨p, q, x, hp, hq, htp, hpx, hxq, hxn, hsome⟩
    -- the first start of `t` that is hidden there
    have hex : ∃ y, p < y ∧ (t.stop y).isSome = true := ⟨x, hpx, hsome⟩
    classical
    obtain ⟨hpy, hy⟩ := Nat.find_spec hex
    have hyx : Nat.find hex ≤ x := Nat.find_min' hex ⟨hpx, hsome⟩
    have hexposed : t.Exposed (Nat.find hex) := by
      refine exposed_iff.mpr fun z hzy r hr hz ↦ ?_
      have hzp : z < p := by
        by_contra hge
        rcases Nat.eq_or_lt_of_le (Nat.le_of_not_lt hge) with rfl | hlt
        · cases htp.symm.trans hr
        · exact Nat.find_min hex hzy ⟨hlt, by rw [hr]; rfl⟩
      have hzn : z < n := by omega
      obtain ⟨-, -, hz'⟩ := mem_run.mp ((hagree z).mp (mem_run.mpr ⟨hzn, by rw [hr]; rfl, hz⟩)).1
      obtain ⟨r', hr', hle⟩ := h.start hr
      exact (hle.trans (hp.le hz' hzp hr')).trans hpy.le
    have hmem := (hagree _).mp (mem_run.mpr ⟨hyx.trans_lt hxn, hy, hexposed⟩)
    obtain ⟨-, -, hs⟩ := mem_run.mp hmem.1
    exact absurd (hs.le hp hpy hq) (by omega)
  · intro hides x
    rw [mem_run, mem_run]
    constructor
    · rintro ⟨hxn, hsome, hx⟩
      obtain ⟨q, hq⟩ := Option.isSome_iff_exists.mp hsome
      obtain ⟨r, hr, -⟩ := h.start hq
      exact ⟨⟨hxn, by rw [hr]; rfl, (exposed_iff_of_not_hides h hides hxn hsome).mp hx⟩, hsome⟩
    · rintro ⟨⟨hxn, -, hx⟩, hsome⟩
      exact ⟨hxn, hsome, (exposed_iff_of_not_hides h hides hxn hsome).mpr hx⟩

/-- The same where `t` may take no more than a number of starts that `s` does not exceed. -/
theorem take_run_agrees_iff (h : Follows t s) {m : ℕ} (hm : (s.run n 0).length ≤ m) :
    (∀ x, x ∈ (t.run n 0).take m ↔ x ∈ s.run n 0 ∧ (t.stop x).isSome = true) ↔ ¬ Hides s t n := by
  rcases Nat.lt_or_ge m (t.run n 0).length with hover | hfits
  · constructor
    · rintro hagree ⟨p, q, x, hp, hq, htp, hpx, -, hxn, -⟩
      -- `t` takes as many as `s` does, so it takes whatever `s` takes
      have hsub : (t.run n 0).take m ⊆ (s.run n 0).filter fun x ↦ (t.stop x).isSome :=
        fun x hx ↦ List.mem_filter.mpr ((hagree x).mp hx)
      have hle := (List.subperm_of_subset
        ((run_nodup n 0).sublist (List.take_sublist _ _)) hsub).length_le
      rw [List.length_take_of_le hover.le] at hle
      have hlen := List.length_filter_le (fun x ↦ (t.stop x).isSome) (s.run n 0)
      have hall := List.length_filter_eq_length_iff.mp (hlen.antisymm (hm.trans hle))
      have hsome := hall p (mem_run.mpr ⟨hpx.trans hxn, by rw [hq]; rfl, hp⟩)
      rw [htp] at hsome
      cases hsome
    · intro hides
      have hsub : t.run n 0 ⊆ s.run n 0 :=
        fun x hx ↦ ((run_agrees_iff h).mpr hides x |>.mp hx).1
      have hle := (List.subperm_of_subset (run_nodup n 0) hsub).length_le
      omega
  · rw [List.take_of_length_le hfits]
    exact run_agrees_iff h

end SkippingScan
