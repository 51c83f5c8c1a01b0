import VeraqisRecover.Zip.OffsetRuns

/-!
# Where an inferred map is increasing

Between two segments lies a pair of kept observations, so the map increases from
one to the next.  The last segment covers every larger offset, also those that
read as negative 64-bit integers: there a shift towards the end of the file wraps
around to its beginning.
-/

namespace VeraqisRecover.Zip

open FirstOfKey

theorem wrapI64_eq {x : ℤ} (h₁ : 0 ≤ x) (h₂ : x < 2 ^ 64) :
    wrapI64 x = if x < 2 ^ 63 then x else x - 2 ^ 64 := by
  unfold wrapI64
  rw [Int.bmod_def]
  split <;> omega

theorem checkedAddI64_eq_some {a b c : ℤ} :
    checkedAddI64 a b = some c ↔ (-2 ^ 63 ≤ c ∧ c < 2 ^ 63) ∧ a + b = c := by
  unfold checkedAddI64
  by_cases h : -2 ^ 63 ≤ a + b ∧ a + b < 2 ^ 63
  · rw [if_pos h, Option.some.injEq]
    exact ⟨fun heq ↦ ⟨heq ▸ h, heq⟩, fun heq ↦ heq.2⟩
  · rw [if_neg h]
    exact ⟨fun heq ↦ (Option.some_ne_none c heq.symm).elim, fun heq ↦ absurd (heq.2 ▸ heq.1) h⟩

theorem OffsetSegment.apply_eq_some {s : OffsetSegment} {x y : ℕ} :
    s.apply x = some y ↔ wrapI64 x + s.delta = y ∧ y < 2 ^ 63 := by
  unfold OffsetSegment.apply
  rw [Option.bind_eq_bind, Option.bind_eq_some_iff]
  constructor
  · rintro ⟨v, hv, hy⟩
    obtain ⟨⟨-, hlt⟩, hadd⟩ := checkedAddI64_eq_some.mp hv
    by_cases hneg : v < 0
    · rw [if_pos hneg] at hy
      cases hy
    · rw [if_neg hneg, Option.some.injEq] at hy
      omega
  · rintro ⟨hadd, hlt⟩
    refine ⟨y, checkedAddI64_eq_some.mpr ⟨by omega, hadd⟩, ?_⟩
    rw [if_neg (by omega), Int.toNat_natCast]

namespace OffsetMap

variable {obs : List OffsetObservation} {k : List OffsetObservation} {cap : ℕ}

/-- A kept observation at the end of `s` and a later one at the start of `t`. -/
def Separated (k : List OffsetObservation) (s t : OffsetSegment) : Prop :=
  ∃ hi ∈ k, ∃ lo ∈ k, hi.stored = s.originalEnd ∧ lo.stored = t.originalStart ∧
    hi.stored < lo.stored ∧ deltaOf hi = s.delta ∧ deltaOf lo = t.delta

/-- The runs of `k`, stretched over all offsets. -/
structure Stretched (k : List OffsetObservation) (segs : List OffsetSegment) : Prop where
  separated : segs.Pairwise (Separated k)
  covers : ∀ o ∈ k, ∃ s ∈ segs, s.contains o.stored = true ∧ s.delta = deltaOf o
  last : ∃ init seg, segs = init ++ [seg] ∧ seg.originalEnd = offsetMax
  bounded : ∀ s ∈ segs, s.originalEnd ≤ offsetMax ∧ s.originalStart ≤ s.originalEnd

theorem Separated.end_lt_start {s t : OffsetSegment} (h : Separated k s t) :
    s.originalEnd < t.originalStart := by
  obtain ⟨hi, -, lo, -, hend, hstart, hlt, -, -⟩ := h
  omega

theorem RunsOf.separated {segs : List OffsetSegment} (h : RunsOf k segs) :
    segs.Pairwise (Separated k) := by
  refine h.ordered.imp_of_mem fun {s t} hs ht hst ↦ ?_
  obtain ⟨-, -, hi, hhi, -, hend, -, -, hdhi⟩ := h.traced s hs
  obtain ⟨lo, hlo, -, -, hstart, -, -, hdlo, -⟩ := h.traced t ht
  exact ⟨hi, hhi, lo, hlo, hend, hstart, by omega, hdhi, hdlo⟩

theorem widen_singleton (s : OffsetSegment) :
    widen [s] = [{ s with originalStart := 0, originalEnd := offsetMax }] := rfl

theorem widen_cons_concat (a z : OffsetSegment) (mid : List OffsetSegment) :
    widen (a :: (mid ++ [z])) =
      { a with originalStart := 0 } :: (mid ++ [{ z with originalEnd := offsetMax }]) := by
  have h := List.modifyLast_concat (fun s : OffsetSegment ↦ { s with originalEnd := offsetMax }) z
    ({ a with originalStart := 0 } :: mid)
  exact h

theorem length_widen (segs : List OffsetSegment) : (widen segs).length = segs.length := by
  cases segs with
  | nil => rfl
  | cons a rest =>
      cases rest using List.reverseRecOn with
      | nil => rfl
      | append_singleton mid z => simp [widen_cons_concat]

/-- Stretching moves the outer bounds only. -/
theorem RunsOf.stretched {segs : List OffsetSegment} (h : RunsOf k segs) (hk : k ≠ [])
    (hmax : ∀ o ∈ k, o.stored ≤ offsetMax) : Stretched k (widen segs) := by
  have hbound : ∀ s ∈ segs, s.originalEnd ≤ offsetMax ∧ s.originalStart ≤ s.originalEnd := by
    intro s hs
    obtain ⟨lo, -, hi, hhi, hstart, hend, hle, -, -⟩ := h.traced s hs
    have := hmax hi hhi
    omega
  have hsep := h.separated
  have hcovers := h.covers
  cases segs with
  | nil => exact absurd (h.nil rfl) hk
  | cons a rest =>
      cases rest using List.reverseRecOn with
      | nil =>
          rw [widen_singleton]
          refine ⟨List.pairwise_singleton _ _, fun o ho ↦ ?_, ⟨[], _, rfl, rfl⟩, fun s hs ↦ ?_⟩
          · obtain ⟨s, hs, -, -, hd⟩ := hcovers o ho
            obtain rfl := List.mem_singleton.mp hs
            refine ⟨_, List.mem_singleton.mpr rfl, ?_, hd⟩
            simpa [OffsetSegment.contains] using hmax o ho
          · rw [List.mem_singleton.mp hs]
            exact ⟨le_rfl, Nat.zero_le _⟩
      | append_singleton mid z =>
          rw [widen_cons_concat]
          obtain ⟨hfirst, hrest⟩ := List.pairwise_cons.mp hsep
          obtain ⟨hmid, -, hlast⟩ := List.pairwise_append.mp hrest
          refine ⟨?_, fun o ho ↦ ?_, ⟨{ a with originalStart := 0 } :: mid, _, rfl, rfl⟩, ?_⟩
          · refine List.pairwise_cons.mpr ⟨fun t ht ↦ ?_, List.pairwise_append.mpr
              ⟨hmid, List.pairwise_singleton _ _, fun s hs t ht ↦ ?_⟩⟩
            · rcases List.mem_append.mp ht with ht | ht
              · exact hfirst t (List.mem_append_left _ ht)
              · rw [List.mem_singleton.mp ht]
                exact hfirst z (List.mem_append_right _ (List.mem_singleton.mpr rfl))
            · rw [List.mem_singleton.mp ht]
              exact hlast s hs z (List.mem_singleton.mpr rfl)
          · obtain ⟨s, hs, hlo, hhi, hd⟩ := hcovers o ho
            have hm := hmax o ho
            rcases List.mem_cons.mp hs with rfl | hs
            · exact ⟨_, List.mem_cons_self, by simpa [OffsetSegment.contains] using hhi, hd⟩
            · rcases List.mem_append.mp hs with hs | hs
              · exact ⟨s, List.mem_cons_of_mem _ (List.mem_append_left _ hs),
                  by simpa [OffsetSegment.contains] using ⟨hlo, hhi⟩, hd⟩
              · obtain rfl := List.mem_singleton.mp hs
                refine ⟨_, List.mem_cons_of_mem _
                  (List.mem_append_right _ (List.mem_singleton.mpr rfl)), ?_, hd⟩
                simpa [OffsetSegment.contains] using ⟨hlo, hm⟩
          · intro s hs
            rcases List.mem_cons.mp hs with rfl | hs
            · exact ⟨(hbound a List.mem_cons_self).1, Nat.zero_le _⟩
            · rcases List.mem_append.mp hs with hs | hs
              · exact hbound s (List.mem_cons_of_mem _ (List.mem_append_left _ hs))
              · have hz := hbound z
                  (List.mem_cons_of_mem _ (List.mem_append_right _ (List.mem_singleton.mpr rfl)))
                rw [List.mem_singleton.mp hs]
                exact ⟨le_rfl, hz.2.trans hz.1⟩

/-- The stored offsets of a list fit in 64 bits. -/
def StoredFit (obs : List OffsetObservation) : Prop := ∀ o ∈ obs, o.stored ≤ offsetMax

theorem infer_stretched (h : (infer obs cap).isUsable = true) (hfit : StoredFit obs) :
    Stretched (kept obs) (infer obs cap).segments := by
  obtain ⟨hne, -, hsegs, -⟩ := infer_usable h
  rw [hsegs]
  exact (runsOf_kept obs).stretched (fun hk ↦ hne (kept_eq_nil_iff.mp hk))
    fun o ho ↦ hfit o (kept_subset ho)

/-! ## Looking an offset up -/

variable {m : OffsetMap}

theorem Stretched.trichotomy {segs : List OffsetSegment} (h : Stretched k segs)
    {s t : OffsetSegment} (hs : s ∈ segs) (ht : t ∈ segs) :
    s = t ∨ Separated k s t ∨ Separated k t s := by
  by_cases hst : s = t
  · exact .inl hst
  · have hsym : segs.Pairwise fun a b ↦ Separated k a b ∨ Separated k b a :=
      h.separated.imp fun hab ↦ .inl hab
    have : Std.Symm fun a b ↦ Separated k a b ∨ Separated k b a := ⟨fun a b hab ↦ hab.symm⟩
    exact .inr (hsym.forall hs ht hst)

theorem contains_iff {s : OffsetSegment} {x : ℕ} :
    s.contains x = true ↔ s.originalStart ≤ x ∧ x ≤ s.originalEnd := by
  simp [OffsetSegment.contains]

theorem Stretched.unique {segs : List OffsetSegment} (h : Stretched k segs) {x : ℕ}
    {s t : OffsetSegment} (hs : s ∈ segs) (ht : t ∈ segs) (hsx : s.contains x = true)
    (htx : t.contains x = true) : s = t := by
  rw [contains_iff] at hsx htx
  rcases h.trichotomy hs ht with heq | hst | hts
  · exact heq
  · have hlt := hst.end_lt_start
    omega
  · have hlt := hts.end_lt_start
    omega

theorem map_of_contains (hu : m.isUsable = true) (h : Stretched k m.segments) {s : OffsetSegment}
    (hs : s ∈ m.segments) {x : ℕ} (hx : s.contains x = true) : m.map x = s.apply x := by
  have hfind : m.segments.find? (·.contains x) = some s := by
    cases hf : m.segments.find? (·.contains x) with
    | none => exact absurd hx (List.find?_eq_none.mp hf s hs)
    | some t =>
        have ht : t.contains x = true := by simpa using List.find?_some hf
        rw [h.unique hs (List.mem_of_find?_eq_some hf) hx ht]
  rw [map, if_pos hu, hfind, Option.bind_some]

theorem exists_of_map {x y : ℕ} (h : m.map x = some y) :
    ∃ s ∈ m.segments, s.contains x = true ∧ s.apply x = some y := by
  unfold map at h
  split at h
  · obtain ⟨s, hs, happly⟩ := Option.bind_eq_some_iff.mp h
    exact ⟨s, List.mem_of_find?_eq_some hs, by simpa using List.find?_some hs, happly⟩
  · cases h

/-- The segment of the last kept observation is the last one. -/
theorem Stretched.last_contains {segs : List OffsetSegment} (h : Stretched k segs)
    {o : OffsetObservation} (ho : o ∈ k) (hlast : ∀ x ∈ k, x.stored ≤ o.stored) :
    ∃ s ∈ segs, s.delta = deltaOf o ∧ s.contains o.stored = true ∧
      ∀ x, o.stored ≤ x → x ≤ offsetMax → s.contains x = true := by
  obtain ⟨s, hs, hc, hd⟩ := h.covers o ho
  obtain ⟨init, seg, rfl, hend⟩ := h.last
  have hseg : s = seg := by
    rcases List.mem_append.mp hs with hs | hs
    · obtain ⟨-, -, hsep⟩ := List.pairwise_append.mp h.separated
      obtain ⟨hi, -, lo, hlo, hhi, -, hlt, -⟩ := hsep s hs seg (List.mem_singleton.mpr rfl)
      have hle := hlast lo hlo
      rw [contains_iff] at hc
      omega
    · exact List.mem_singleton.mp hs
  refine ⟨s, hs, hd, hc, fun x hox hx ↦ ?_⟩
  rw [contains_iff] at hc ⊢
  rw [hseg] at hc ⊢
  exact ⟨hc.1.trans hox, hend ▸ hx⟩

theorem exists_last (hk : k ≠ []) : ∃ o ∈ k, ∀ x ∈ k, x.stored ≤ o.stored := by
  obtain ⟨o, ho, hle⟩ := k.toFinset.exists_max_image OffsetObservation.stored
    (List.toFinset_nonempty_iff k |>.mpr hk)
  exact ⟨o, List.mem_toFinset.mp ho, fun x hx ↦ hle x (List.mem_toFinset.mpr hx)⟩

/-! ## Kept observations are reproduced -/

/-- The observed shift and the offset it leads to fit in signed 64-bit integers. -/
def Representable (o : OffsetObservation) : Prop :=
  o.physical < 2 ^ 63 ∧ (o.physical : ℤ) - wrapI64 o.stored < 2 ^ 63

theorem wrapI64_bounds {x : ℕ} (h : x ≤ offsetMax) : -2 ^ 63 ≤ wrapI64 x ∧ wrapI64 x < 2 ^ 63 := by
  unfold offsetMax at h
  rw [wrapI64_eq (by omega) (by omega)]
  split <;> omega

theorem deltaOf_representable {o : OffsetObservation} (h : Representable o)
    (hs : o.stored ≤ offsetMax) : deltaOf o = o.physical - wrapI64 o.stored := by
  obtain ⟨hp, hd⟩ := h
  have hb := wrapI64_bounds hs
  unfold deltaOf
  rw [wrapI64_of_small (x := (o.physical : ℤ)) (by omega) (by omega),
    wrapI64_of_small (by omega) hd]

/-- The shift of an observation leads to its physical offset exactly when nothing wraps. -/
theorem apply_deltaOf_iff {o : OffsetObservation} (hs : o.stored ≤ offsetMax) {s : OffsetSegment}
    (hd : s.delta = deltaOf o) :
    s.apply o.stored = some o.physical ↔ Representable o := by
  rw [OffsetSegment.apply_eq_some, hd]
  constructor
  · rintro ⟨hadd, hlt⟩
    refine ⟨hlt, ?_⟩
    unfold deltaOf at hadd
    rw [wrapI64_of_small (x := (o.physical : ℤ)) (by omega) (by omega)] at hadd
    have hlt' : wrapI64 ((o.physical : ℤ) - wrapI64 o.stored) < 2 ^ 63 := by
      unfold wrapI64
      exact Int.bmod_lt (by norm_num)
    omega
  · intro h
    rw [deltaOf_representable h hs]
    exact ⟨by omega, h.1⟩

theorem map_kept_iff (hu : (infer obs cap).isUsable = true) (hfit : StoredFit obs)
    {o : OffsetObservation} (ho : o ∈ kept obs) :
    (infer obs cap).map o.stored = some o.physical ↔ Representable o := by
  have hst := infer_stretched hu hfit
  obtain ⟨s, hmem, hc, hd⟩ := hst.covers o ho
  rw [map_of_contains hu hst hmem hc, apply_deltaOf_iff (hfit o (kept_subset ho)) hd]

/-! ## The whole map -/

/-- Offsets of a file below 2^63 bytes. -/
def Small (obs : List OffsetObservation) : Prop :=
  ∀ o ∈ obs, o.stored < 2 ^ 63 ∧ o.physical < 2 ^ 63

/-- What a usable map owes to the observations it was inferred from. -/
structure Faithful (obs : List OffsetObservation) (cap : ℕ) (m : OffsetMap) : Prop where
  few : m.segments.length ≤ cap
  ordered : m.segments.Pairwise (·.originalEnd < ·.originalStart)
  nonempty : ∀ s ∈ m.segments, s.originalStart ≤ s.originalEnd
  reproduces : ∀ o ∈ kept obs, m.map o.stored = some o.physical
  increasing : ∀ x y p q, x < y → m.map x = some p → m.map y = some q → p < q

/-- The observation physically furthest, among those that come first for their stored offset; of
several at the same physical offset, the one stored first. -/
def Furthest (obs : List OffsetObservation) (o : OffsetObservation) : Prop :=
  obs.find? (·.stored = o.stored) = some o ∧
    ∀ x, obs.find? (·.stored = x.stored) = some x →
      x.physical < o.physical ∨ x.physical = o.physical ∧ o.stored ≤ x.stored

theorem Small.representable (h : Small obs) {o : OffsetObservation} (ho : o ∈ obs) :
    Representable o := by
  obtain ⟨hs, hp⟩ := h o ho
  refine ⟨hp, ?_⟩
  rw [wrapI64_of_small (by omega) (by omega)]
  omega

theorem Small.deltaOf (h : Small obs) {o : OffsetObservation} (ho : o ∈ obs) :
    deltaOf o = o.physical - o.stored := by
  obtain ⟨hs, -⟩ := h o ho
  rw [deltaOf_representable (h.representable ho) (by unfold offsetMax; omega),
    wrapI64_of_small (by omega) (by omega)]

theorem Small.storedFit (h : Small obs) : StoredFit obs := by
  intro o ho
  obtain ⟨hs, -⟩ := h o ho
  unfold offsetMax
  omega

/-- Every observation is matched or passed by a kept one stored no later. -/
theorem exists_kept_above {o : OffsetObservation} (ho : o ∈ representatives obs) :
    ∃ z ∈ kept obs, z.stored ≤ o.stored ∧ o.physical ≤ z.physical := by
  induction hn : o.stored using Nat.strong_induction_on generalizing o with
  | _ n ih =>
      by_cases hk : o ∈ kept obs
      · exact ⟨o, hk, hn.le, le_rfl⟩
      · have hdrop : ∃ x ∈ representatives obs, x.stored < o.stored ∧ o.physical ≤ x.physical := by
          by_contra hno
          push Not at hno
          exact hk (mem_kept_iff.mpr ⟨ho, hno⟩)
        obtain ⟨x, hx, hlt, hle⟩ := hdrop
        obtain ⟨z, hz, hzx, hxz⟩ := ih x.stored (hn ▸ hlt) hx rfl
        exact ⟨z, hz, by omega, hle.trans hxz⟩

theorem kept_eq_of_stored_eq {a b : OffsetObservation} (ha : a ∈ kept obs) (hb : b ∈ kept obs)
    (h : a.stored = b.stored) : a = b := by
  have hfa := mem_select_iff.mp (mem_kept_iff.mp ha).1
  have hfb := mem_select_iff.mp (mem_kept_iff.mp hb).1
  rw [h, hfb] at hfa
  exact (Option.some.inj hfa).symm

/-- The furthest observation is the last one kept. -/
theorem furthest_iff {o : OffsetObservation} :
    Furthest obs o ↔ o ∈ kept obs ∧ ∀ x ∈ kept obs, x.stored ≤ o.stored := by
  constructor
  · rintro ⟨hfind, hfar⟩
    have hk : o ∈ kept obs := by
      refine mem_kept_iff.mpr ⟨mem_select_iff.mpr hfind, fun x hx hlt ↦ ?_⟩
      have hx' := hfar x (mem_select_iff.mp hx)
      omega
    refine ⟨hk, fun x hx ↦ ?_⟩
    by_contra hlt
    have hphys := kept_lt hk hx (Nat.lt_of_not_le hlt)
    have hx' := hfar x (mem_select_iff.mp (mem_kept_iff.mp hx).1)
    omega
  · rintro ⟨hk, hlast⟩
    refine ⟨mem_select_iff.mp (mem_kept_iff.mp hk).1, fun x hx ↦ ?_⟩
    obtain ⟨z, hz, hzx, hxz⟩ := exists_kept_above (mem_select_iff.mpr hx)
    rcases (hlast z hz).lt_or_eq with hlt | heq
    · have hphys := kept_lt hz hk hlt
      omega
    · obtain rfl := kept_eq_of_stored_eq hz hk heq
      omega

section Usable

variable (hsmall : Small obs) (hu : (infer obs cap).isUsable = true)

include hsmall hu

/-- No shift towards the end of the file, and no offset from 2^63 on is translated. -/
theorem lt_of_map (hfar : ∀ o, Furthest obs o → o.physical ≤ o.stored) {x p : ℕ}
    (h : (infer obs cap).map x = some p) : x < 2 ^ 63 := by
  have hst := infer_stretched hu hsmall.storedFit
  obtain ⟨hne, -⟩ := infer_usable hu
  obtain ⟨o, ho, hlast⟩ := exists_last (mt kept_eq_nil_iff.mp hne)
  obtain ⟨s, hs, hd, -, hrest⟩ := hst.last_contains ho hlast
  obtain ⟨t, ht, htx, happly⟩ := exists_of_map h
  have hmax := (contains_iff.mp htx).2.trans (hst.bounded t ht).1
  by_contra hbig
  obtain ⟨hstored, -⟩ := hsmall o (kept_subset ho)
  obtain rfl := hst.unique hs ht (hrest x (by omega) hmax) htx
  obtain ⟨hadd, -⟩ := OffsetSegment.apply_eq_some.mp happly
  have hle := hfar o (furthest_iff.mpr ⟨ho, hlast⟩)
  unfold offsetMax at hmax
  rw [hd, hsmall.deltaOf (kept_subset ho), wrapI64_eq (by omega) (by omega),
    if_neg (by omega)] at hadd
  omega

/-- Without a shift towards the end of the file in its last segment the map is increasing. -/
theorem map_increasing (hfar : ∀ o, Furthest obs o → o.physical ≤ o.stored) {x y p q : ℕ}
    (hxy : x < y) (hx : (infer obs cap).map x = some p) (hy : (infer obs cap).map y = some q) :
    p < q := by
  have hst := infer_stretched hu hsmall.storedFit
  have hylt := lt_of_map hsmall hu hfar hy
  obtain ⟨s, hs, hsx, hsp⟩ := exists_of_map hx
  obtain ⟨t, ht, hty, htq⟩ := exists_of_map hy
  obtain ⟨hp, -⟩ := OffsetSegment.apply_eq_some.mp hsp
  obtain ⟨hq, -⟩ := OffsetSegment.apply_eq_some.mp htq
  rw [wrapI64_of_small (by omega) (by omega)] at hp hq
  rw [contains_iff] at hsx hty
  rcases hst.trichotomy hs ht with rfl | hsep | hsep
  · omega
  · -- the kept observations between the two segments carry the order across
    obtain ⟨hi, hhi, lo, hlo, hend, hstart, hlt, hdhi, hdlo⟩ := hsep
    have hphys := kept_lt hhi hlo hlt
    rw [hsmall.deltaOf (kept_subset hhi)] at hdhi
    rw [hsmall.deltaOf (kept_subset hlo)] at hdlo
    omega
  · have hlt := hsep.end_lt_start
    omega

/-- A usable map keeps its promises exactly when the observation physically furthest did not move
towards the end of the file. -/
theorem infer_faithful_iff : Faithful obs cap (infer obs cap) ↔
    ∀ o, Furthest obs o → o.physical ≤ o.stored := by
  have hst := infer_stretched hu hsmall.storedFit
  obtain ⟨hne, hcap, hsegs, -⟩ := infer_usable hu
  constructor
  · intro hf o ho
    obtain ⟨hk, hlast⟩ := furthest_iff.mp ho
    obtain ⟨s, hs, hd, -, hrest⟩ := hst.last_contains hk hlast
    obtain ⟨hstored, hphys⟩ := hsmall o (kept_subset hk)
    by_contra hlt
    -- the largest offset is minus one as a signed integer
    have hmap : (infer obs cap).map offsetMax = some (o.physical - o.stored - 1) := by
      rw [map_of_contains hu hst hs (hrest _ (by unfold offsetMax; omega) le_rfl),
        OffsetSegment.apply_eq_some, hd, hsmall.deltaOf (kept_subset hk),
        wrapI64_eq (by omega) (by unfold offsetMax; omega), if_neg (by unfold offsetMax; omega)]
      unfold offsetMax
      omega
    have hinc := hf.increasing _ _ _ _ (by unfold offsetMax; omega) (hf.reproduces o hk) hmap
    omega
  · intro hfar
    refine ⟨?_, hst.separated.imp Separated.end_lt_start, fun s hs ↦ (hst.bounded s hs).2,
      fun o ho ↦ ?_, fun x y p q ↦ map_increasing hsmall hu hfar⟩
    · rw [hsegs, length_widen]
      exact hcap
    · exact (map_kept_iff hu hsmall.storedFit ho).mpr (hsmall.representable (kept_subset ho))

end Usable

theorem infer_faithful_iff_truncated :
    Faithful [⟨9000, 701⟩, ⟨10000, 1701⟩] 4 (infer [⟨9000, 701⟩, ⟨10000, 1701⟩] 4) ↔
      ∀ o, Furthest [⟨9000, 701⟩, ⟨10000, 1701⟩] o → o.physical ≤ o.stored :=
  infer_faithful_iff (by unfold Small; decide) (by decide)

theorem prepended_not_faithful :
    Small [⟨0, 100⟩] ∧ (infer [⟨0, 100⟩] 4).isUsable = true ∧
      ¬ Faithful [⟨0, 100⟩] 4 (infer [⟨0, 100⟩] 4) := by
  refine ⟨by unfold Small; decide, by decide, fun hf ↦ ?_⟩
  have hinc := hf.increasing 0 (2 ^ 64 - 1) 100 99 (by norm_num) (by decide) (by decide)
  omega

end OffsetMap

end VeraqisRecover.Zip
