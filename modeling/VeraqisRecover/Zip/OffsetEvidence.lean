import VeraqisRecover.Zip.OffsetMonotone

/-!
# Order and contradiction in the evidence

Observations are deduplicated by their stored offset alone.  Where two of them
disagree about one stored offset, the first in the list wins and the other one
leaves no trace: neither in the map nor in its counter.
-/

namespace VeraqisRecover.Zip

open FirstOfKey

namespace OffsetMap

variable {obs obs' : List OffsetObservation} {cap : ℕ} {o : OffsetObservation}

/-! ## Without contradiction -/

/-- No two observations give one stored offset different physical ones. -/
def Consistent (obs : List OffsetObservation) : Prop :=
  ∀ a ∈ obs, ∀ b ∈ obs, a.stored = b.stored → a = b

/-- An observation physically after all those stored before it. -/
def InOrder (obs : List OffsetObservation) (o : OffsetObservation) : Prop :=
  ∀ x ∈ obs, x.stored < o.stored → x.physical < o.physical

theorem mem_representatives (hc : Consistent obs) : o ∈ representatives obs ↔ o ∈ obs := by
  constructor
  · exact mem_of_mem_select
  · intro ho
    obtain ⟨y, hy, hkey⟩ := exists_mem_select OffsetObservation.stored ho
    rw [← hc y (mem_of_mem_select hy) o ho hkey]
    exact hy

theorem mem_kept (hc : Consistent obs) : o ∈ kept obs ↔ o ∈ obs ∧ InOrder obs o := by
  simp only [mem_kept_iff, mem_representatives hc, InOrder]

theorem mem_dropped (hc : Consistent obs) : o ∈ dropped obs ↔ o ∈ obs ∧ ¬ InOrder obs o := by
  rw [dropped, List.mem_filter, mem_representatives hc, decide_eq_true_eq, mem_kept hc]
  tauto

theorem dropped_nodup (obs : List OffsetObservation) : (dropped obs).Nodup :=
  ((select_pairwise obs).imp fun {a b} hlt ↦ fun hab ↦ hlt.ne (by rw [hab])).filter _

theorem Consistent.perm (hc : Consistent obs) (h : obs'.Perm obs) : Consistent obs' :=
  fun a ha b hb ↦ hc a (h.mem_iff.mp ha) b (h.mem_iff.mp hb)

theorem representatives_perm (hc : Consistent obs) (h : obs'.Perm obs) :
    representatives obs' = representatives obs := by
  apply select_congr
  intro x
  exact (mem_representatives (hc.perm h)).trans (h.mem_iff.trans (mem_representatives hc).symm)

/-- The map depends on the representatives only. -/
theorem infer_congr (h : representatives obs' = representatives obs) (hnil : obs' = [] ↔ obs = []) :
    infer obs' cap = infer obs cap := by
  by_cases hempty : obs = [] ∨ cap = 0
  · have hempty' : obs' = [] ∨ cap = 0 := hempty.imp_left hnil.mpr
    rw [infer, if_pos hempty', infer, if_pos hempty]
  · obtain ⟨hne, hcap⟩ := not_or.mp hempty
    have hkept : kept obs' = kept obs := by rw [kept, kept, h]
    have hruns : runs obs' = runs obs := by rw [runs, runs, hkept]
    have hdropped : dropped obs' = dropped obs := by rw [dropped, dropped, h, hkept]
    rw [infer_eq (mt hnil.mp hne) hcap, infer_eq hne hcap, hruns, hdropped]

/-! ## Offsets that wrap onto an observation -/

/-- The shift of the observation physically furthest, taken past the end of the 64-bit range, leads
to the physical offset of `o`. -/
def WrapsOnto (obs : List OffsetObservation) (o : OffsetObservation) : Prop :=
  ∃ z, Furthest obs z ∧ o.stored + z.physical = z.stored + o.physical + 2 ^ 64

/-- A shift that takes a later stored offset to an earlier physical one has wrapped. -/
theorem eq_of_shift {z : OffsetObservation} (hz : Representable z) (hzs : z.stored ≤ offsetMax)
    (hos : o.stored ≤ offsetMax) (hlt : z.stored < o.stored) (hle : o.physical ≤ z.physical)
    (h : wrapI64 o.stored + deltaOf z = o.physical) :
    o.stored + z.physical = z.stored + o.physical + 2 ^ 64 := by
  rw [deltaOf_representable hz hzs] at h
  unfold offsetMax at hzs hos
  rw [wrapI64_eq (by omega) (by omega), wrapI64_eq (x := (z.stored : ℤ)) (by omega) (by omega)] at h
  split at h <;> split at h <;> omega

section Wrapped

variable (hu : (infer obs cap).isUsable = true) (hfit : StoredFit obs) (hc : Consistent obs)
  (hrep : ∀ x ∈ obs, InOrder obs x → Representable x)

include hc

theorem stored_ne_of_dropped (ho : o ∈ dropped obs) {z : OffsetObservation} (hz : z ∈ kept obs) :
    z.stored ≠ o.stored := by
  obtain ⟨hmem, hout⟩ := (mem_dropped hc).mp ho
  obtain ⟨hzmem, hin⟩ := (mem_kept hc).mp hz
  intro heq
  rw [hc z hzmem o hmem heq] at hin
  exact hout hin

include hu hfit

/-- The segment that covers a dropped observation holds a kept one before it, physically after. -/
theorem exists_kept_in_segment (ho : o ∈ dropped obs) {s : OffsetSegment}
    (hs : s ∈ (infer obs cap).segments) (hso : s.contains o.stored = true) :
    ∃ z ∈ kept obs, z.stored < o.stored ∧ o.physical ≤ z.physical ∧ deltaOf z = s.delta := by
  have hst := infer_stretched hu hfit
  obtain ⟨z, hz, hzo, hoz⟩ := exists_kept_above (List.mem_filter.mp ho).1
  have hne := stored_ne_of_dropped hc ho hz
  obtain ⟨t, ht, htz, hdt⟩ := hst.covers z hz
  rw [contains_iff] at hso htz
  rcases hst.trichotomy ht hs with rfl | hsep | hsep
  · exact ⟨z, hz, by omega, hoz, hdt.symm⟩
  · obtain ⟨hi, -, lo, hlo, hend, hstart, hlt, -, hdlo⟩ := hsep
    have hne' := stored_ne_of_dropped hc ho hlo
    have hphys := kept_lt hz hlo (by omega)
    exact ⟨lo, hlo, by omega, by omega, hdlo⟩
  · have hlt := hsep.end_lt_start
    omega

include hrep

omit hu in
/-- No kept observation behind a reproduced dropped one has the shift that reproduces it. -/
theorem lt_of_same_shift (ho : o ∈ dropped obs) {z w : OffsetObservation} (hz : z ∈ kept obs)
    (hzo : z.stored < o.stored) (hoz : o.physical ≤ z.physical)
    (hshift : wrapI64 o.stored + deltaOf z = o.physical) (hw : w ∈ kept obs)
    (hd : deltaOf w = deltaOf z) : w.stored < o.stored := by
  obtain ⟨hmem, -⟩ := (mem_dropped hc).mp ho
  obtain ⟨hzmem, hzin⟩ := (mem_kept hc).mp hz
  obtain ⟨hwmem, hwin⟩ := (mem_kept hc).mp hw
  have hzrep := hrep z hzmem hzin
  have hwrep := hrep w hwmem hwin
  have hos := hfit o hmem
  have hzs := hfit z hzmem
  have hws := hfit w hwmem
  have heq := eq_of_shift hzrep hzs hos hzo hoz hshift
  have hne := stored_ne_of_dropped hc ho hw
  by_contra hlt
  have hphys := kept_lt hz hw (by omega)
  obtain ⟨hzp, -⟩ := hzrep
  rw [deltaOf_representable hwrep hws, deltaOf_representable (hrep z hzmem hzin) hzs] at hd
  unfold offsetMax at hos hzs hws
  rw [wrapI64_eq (by omega) (by omega), wrapI64_eq (x := (z.stored : ℤ)) (by omega) (by omega),
    if_neg (by omega), if_pos (by omega)] at hd
  omega

/-- A dropped observation is reproduced only by a shift that wraps onto it. -/
theorem map_dropped_iff (ho : o ∈ dropped obs) :
    (infer obs cap).map o.stored = some o.physical ↔ WrapsOnto obs o := by
  have hst := infer_stretched hu hfit
  obtain ⟨hne, -⟩ := infer_usable hu
  obtain ⟨hmem, -⟩ := (mem_dropped hc).mp ho
  obtain ⟨z, hz, hlast⟩ := exists_last (mt kept_eq_nil_iff.mp hne)
  obtain ⟨hzmem, hzin⟩ := (mem_kept hc).mp hz
  obtain ⟨s, hs, hds, -, hcover⟩ := hst.last_contains hz hlast
  have hos := hfit o hmem
  have hzs := hfit z hzmem
  have hzrep := hrep z hzmem hzin
  constructor
  · intro h
    obtain ⟨t, ht, hto, happly⟩ := exists_of_map h
    obtain ⟨hshift, -⟩ := OffsetSegment.apply_eq_some.mp happly
    obtain ⟨y, hy, hyo, hoy, hdy⟩ := exists_kept_in_segment hu hfit hc ho ht hto
    have hbehind : ∀ w ∈ kept obs, deltaOf w = t.delta → w.stored < o.stored := fun w hw hdw ↦
      lt_of_same_shift hfit hc hrep ho hy hyo hoy (hdy ▸ hshift) hw (hdw.trans hdy.symm)
    have hzo : z.stored < o.stored := by
      obtain ⟨r, hr, hrz, hdr⟩ := hst.covers z hz
      rw [contains_iff] at hto hrz
      rcases hst.trichotomy hr ht with rfl | hsep | hsep
      · exact hbehind z hz hdr.symm
      · have hlt := hsep.end_lt_start
        omega
      · obtain ⟨hi, hhi, -, -, hend, -, -, hdhi, -⟩ := hsep
        have hlt := hbehind hi hhi hdhi
        omega
    obtain rfl := hst.unique hs ht (hcover _ hzo.le hos) hto
    have hyz : y.physical ≤ z.physical := by
      rcases (hlast y hy).lt_or_eq with hlt | heq
      · exact (kept_lt hy hz hlt).le
      · rw [kept_eq_of_stored_eq hy hz heq]
    refine ⟨z, furthest_iff.mpr ⟨hz, hlast⟩, ?_⟩
    exact eq_of_shift hzrep hzs hos hzo (hoy.trans hyz) (hds ▸ hshift)
  · rintro ⟨w, hw, heq⟩
    obtain ⟨hwk, hwlast⟩ := furthest_iff.mp hw
    obtain rfl := kept_eq_of_stored_eq hwk hz (le_antisymm (hlast w hwk) (hwlast z hz))
    obtain ⟨hp, -⟩ := hzrep
    rw [map_of_contains hu hst hs (hcover _ (by omega) hos), OffsetSegment.apply_eq_some, hds,
      deltaOf_representable (hrep w hzmem hzin) hzs]
    unfold offsetMax at hos hzs
    rw [wrapI64_eq (by omega) (by omega), wrapI64_eq (x := (w.stored : ℤ)) (by omega) (by omega),
      if_neg (by omega), if_pos (by omega)]
    omega

end Wrapped

/-! ## What the order of the evidence decides -/

/-- Every observation the map does not reproduce is one that the counter counts. -/
def CountsAll (obs : List OffsetObservation) (cap : ℕ) : Prop :=
  (infer obs cap).discarded = (dropped obs).length ∧
    ∀ o ∈ obs, (infer obs cap).map o.stored ≠ some o.physical → o ∈ dropped obs

/-- Every observation the map does not reproduce is counted as often as it was made. -/
def CountsEach (obs : List OffsetObservation) (cap : ℕ) : Prop :=
  (infer obs cap).discarded = (dropped obs).length ∧
    ∀ o ∈ obs, (infer obs cap).map o.stored ≠ some o.physical → obs.count o ≤ (dropped obs).count o

/-- In every order the observations give the same map, and a usable one accounts for them. -/
structure OrderFree (Counts : List OffsetObservation → ℕ → Prop) (obs : List OffsetObservation)
    (cap : ℕ) : Prop where
  same : ∀ l : List OffsetObservation, l.Perm obs → infer l cap = infer obs cap
  counts : ∀ l : List OffsetObservation, l.Perm obs → (infer l cap).isUsable = true → Counts l cap

/-- Every observation made more than once is in order, or a shift wraps onto it. -/
def RepeatedInOrder (obs : List OffsetObservation) : Prop :=
  ∀ o, 2 ≤ obs.count o → InOrder obs o ∨ WrapsOnto obs o

theorem CountsEach.countsAll (h : CountsEach obs cap) : CountsAll obs cap := by
  refine ⟨h.1, fun o ho hmap ↦ List.count_pos_iff.mp ?_⟩
  exact (List.count_pos_iff.mpr ho).trans_le (h.2 o ho hmap)

theorem OrderFree.imp {P Q : List OffsetObservation → ℕ → Prop} (h : OrderFree P obs cap)
    (himp : ∀ l, P l cap → Q l cap) : OrderFree Q obs cap :=
  ⟨h.same, fun l hl hu ↦ himp l (h.counts l hl hu)⟩

theorem StoredFit.perm (hfit : StoredFit obs) (h : obs'.Perm obs) : StoredFit obs' :=
  fun o ho ↦ hfit o (h.mem_iff.mp ho)

theorem InOrder.perm (hin : InOrder obs o) (h : obs'.Perm obs) : InOrder obs' o :=
  fun x hx ↦ hin x (h.mem_iff.mp hx)

section Consistent

variable (hfit : StoredFit obs) (hc : Consistent obs)
  (hrep : ∀ x ∈ obs, InOrder obs x → Representable x)

include hfit hc hrep

theorem countsAll_of_consistent (hu : (infer obs cap).isUsable = true) : CountsAll obs cap := by
  obtain ⟨-, -, -, hcount⟩ := infer_usable hu
  refine ⟨hcount, fun o ho hmap ↦ (mem_dropped hc).mpr ⟨ho, fun hin ↦ hmap ?_⟩⟩
  exact (map_kept_iff hu hfit ((mem_kept hc).mpr ⟨ho, hin⟩)).mpr (hrep o ho hin)

theorem countsEach_of_consistent (hrepeat : RepeatedInOrder obs)
    (hu : (infer obs cap).isUsable = true) : CountsEach obs cap := by
  obtain ⟨hcount, hall⟩ := countsAll_of_consistent hfit hc hrep hu
  refine ⟨hcount, fun o ho hmap ↦ ?_⟩
  have hdrop := hall o ho hmap
  have honce : obs.count o ≤ 1 := by
    by_contra htwice
    rcases hrepeat o (by omega) with hin | hwraps
    · exact ((mem_dropped hc).mp hdrop).2 hin
    · exact hmap ((map_dropped_iff hu hfit hc hrep hdrop).mpr hwraps)
  exact honce.trans (List.count_pos_iff.mpr hdrop)

/-- Consistent evidence is accounted for in every order. -/
theorem orderFree_of_consistent (cap : ℕ) : OrderFree CountsAll obs cap := by
  refine ⟨fun l hl ↦ ?_, fun l hl hu ↦ ?_⟩
  · exact infer_congr (representatives_perm hc hl) ⟨fun h ↦ (h ▸ hl).nil_eq.symm,
      fun h ↦ (h ▸ hl).eq_nil⟩
  · exact countsAll_of_consistent (hfit.perm hl) (hc.perm hl)
      (fun x hx hin ↦ hrep x (hl.mem_iff.mp hx) (hin.perm hl.symm)) hu

theorem orderFree_each_of_consistent (hrepeat : RepeatedInOrder obs) (cap : ℕ) :
    OrderFree CountsEach obs cap := by
  refine ⟨(orderFree_of_consistent hfit hc hrep cap).same, fun l hl hu ↦ ?_⟩
  refine countsEach_of_consistent (hfit.perm hl) (hc.perm hl)
    (fun x hx hin ↦ hrep x (hl.mem_iff.mp hx) (hin.perm hl.symm)) (fun o ho ↦ ?_) hu
  have hkept : kept l = kept obs := by rw [kept, kept, representatives_perm hc hl]
  rcases hrepeat o (hl.count_eq o ▸ ho) with hin | ⟨z, hz, heq⟩
  · exact .inl (hin.perm hl)
  · refine .inr ⟨z, furthest_iff.mpr ?_, heq⟩
    rw [hkept]
    exact furthest_iff.mp hz

end Consistent

/-! ## What a map free of order says about its evidence -/

theorem length_extendSegments_le (segs : List OffsetSegment) (o : OffsetObservation) :
    (extendSegments segs o).length ≤ segs.length + 1 := by
  unfold extendSegments
  cases hlast : segs.getLast? with
  | none => simp
  | some seg =>
      obtain ⟨init, rfl⟩ := List.getLast?_eq_some_iff.mp hlast
      by_cases hd : seg.delta = deltaOf o <;> simp [hd]

theorem length_runs_le (obs : List OffsetObservation) : (runs obs).length ≤ obs.length := by
  have hfold : ∀ (k : List OffsetObservation) segs,
      (k.foldl extendSegments segs).length ≤ segs.length + k.length := by
    intro k
    induction k with
    | nil => simp
    | cons o k ih =>
        intro segs
        have hstep := length_extendSegments_le segs o
        have hrest := ih (extendSegments segs o)
        rw [List.foldl_cons, List.length_cons]
        omega
  have hkept : (kept obs).Sublist (representatives obs) := (representatives_filtered obs).sublist
  have hrep : (representatives obs).length ≤ obs.length := by
    rw [← List.length_insertionSort (·.stored ≤ ·.stored) obs]
    exact (List.destutter_sublist _ _).length_le
  have hruns := hfold (kept obs) []
  have hlen := hkept.length_le
  rw [List.length_nil] at hruns
  exact (hruns.trans (by omega)).trans hrep

section Free

variable (hfree : OrderFree CountsAll obs cap) (hu : (infer obs cap).isUsable = true)

include hfree hu

/-- An observation that another one of its stored offset precedes is reproduced. -/
theorem map_of_free {a b : OffsetObservation} (ha : a ∈ obs) (hb : b ∈ obs)
    (hab : a.stored = b.stored) (hne : a ≠ b) : (infer obs cap).map b.stored = some b.physical := by
  by_contra hmap
  -- put `a` first: it stands for its stored offset, and `b` is not even counted
  have hperm : (a :: obs.erase a).Perm obs := (List.perm_cons_erase ha).symm
  have hsame := hfree.same _ hperm
  obtain ⟨-, hall⟩ := hfree.counts _ hperm (hsame ▸ hu)
  rw [hsame] at hall
  have hdrop := hall b (hperm.mem_iff.mpr hb) hmap
  have hfind := mem_select_iff.mp (List.mem_filter.mp hdrop).1
  rw [List.find?_cons_of_pos (by simpa using hab), Option.some.injEq] at hfind
  exact hne hfind

theorem consistent_of_free : Consistent obs := by
  intro a ha b hb hab
  by_contra hne
  have hma := map_of_free hfree hu hb ha hab.symm (Ne.symm hne)
  have hmb := map_of_free hfree hu ha hb hab hne
  rw [hab, hmb, Option.some.injEq] at hma
  cases a
  cases b
  simp_all

theorem representable_of_free (hfit : StoredFit obs) (ho : o ∈ obs) (hin : InOrder obs o) :
    Representable o := by
  have hc := consistent_of_free hfree hu
  have hk := (mem_kept hc).mpr ⟨ho, hin⟩
  by_contra hrep
  obtain ⟨-, hall⟩ := hfree.counts obs (List.Perm.refl _) hu
  have hdrop := hall o ho fun hmap ↦ hrep ((map_kept_iff hu hfit hk).mp hmap)
  exact ((mem_dropped hc).mp hdrop).2 hin

end Free

/-- A usable map that counts every repetition saw its repeated observations in order. -/
theorem repeatedInOrder_of_free (hfree : OrderFree CountsEach obs cap)
    (hu : (infer obs cap).isUsable = true) (hfit : StoredFit obs) : RepeatedInOrder obs := by
  have hall := hfree.imp fun _ h ↦ h.countsAll
  have hc := consistent_of_free hall hu
  intro o ho
  by_contra hnot
  obtain ⟨hout, hwraps⟩ := not_or.mp hnot
  have hmem : o ∈ obs := List.count_pos_iff.mp (by omega)
  have hdrop := (mem_dropped hc).mpr ⟨hmem, hout⟩
  have hmap : (infer obs cap).map o.stored ≠ some o.physical := fun hmap ↦
    hwraps ((map_dropped_iff hu hfit hc
      (fun x hx hin ↦ representable_of_free hall hu hfit hx hin) hdrop).mp hmap)
  obtain ⟨-, heach⟩ := hfree.counts obs (List.Perm.refl _) hu
  have hcount := heach o hmem hmap
  have honce := List.nodup_iff_count_le_one.mp (dropped_nodup obs) o
  omega

theorem exists_usable (hne : obs ≠ []) : ∃ cap, (infer obs cap).isUsable = true :=
  ⟨obs.length, infer_isUsable hne (by simpa using hne) (length_runs_le obs)⟩

/-- The order of the observations is immaterial, and no contradiction is lost, exactly when no two
of them disagree about a stored offset and those in order are representable; counting repetitions
needs the repeated ones in order too. -/
theorem infer_orderFree_iff (hfit : StoredFit obs) :
    ((∀ cap, OrderFree CountsAll obs cap) ↔
      Consistent obs ∧ ∀ o ∈ obs, InOrder obs o → Representable o) ∧
    ((∀ cap, OrderFree CountsEach obs cap) ↔
      Consistent obs ∧ (∀ o ∈ obs, InOrder obs o → Representable o) ∧ RepeatedInOrder obs) := by
  have hall : (∀ cap, OrderFree CountsAll obs cap) →
      Consistent obs ∧ ∀ o ∈ obs, InOrder obs o → Representable o := by
    intro h
    by_cases hne : obs = []
    · subst hne
      exact ⟨by simp [Consistent], by simp⟩
    · obtain ⟨cap, hu⟩ := exists_usable hne
      exact ⟨consistent_of_free (h cap) hu, fun o ↦ representable_of_free (h cap) hu hfit⟩
  refine ⟨⟨hall, fun ⟨hc, hrep⟩ ↦ orderFree_of_consistent hfit hc hrep⟩, fun h ↦ ?_,
    fun ⟨hc, hrep, hrepeat⟩ ↦ orderFree_each_of_consistent hfit hc hrep hrepeat⟩
  obtain ⟨hc, hrep⟩ := hall fun cap ↦ (h cap).imp fun _ heach ↦ heach.countsAll
  refine ⟨hc, hrep, ?_⟩
  by_cases hne : obs = []
  · subst hne
    intro o ho
    simp at ho
  · obtain ⟨cap, hu⟩ := exists_usable hne
    exact repeatedInOrder_of_free (h cap) hu hfit

theorem infer_orderFree_iff_pair :
    ((∀ cap, OrderFree CountsAll [⟨0, 0⟩, ⟨10, 5⟩] cap) ↔
      Consistent [⟨0, 0⟩, ⟨10, 5⟩] ∧
        ∀ o ∈ [⟨0, 0⟩, ⟨10, 5⟩], InOrder [⟨0, 0⟩, ⟨10, 5⟩] o → Representable o) ∧
    ((∀ cap, OrderFree CountsEach [⟨0, 0⟩, ⟨10, 5⟩] cap) ↔
      Consistent [⟨0, 0⟩, ⟨10, 5⟩] ∧
        (∀ o ∈ [⟨0, 0⟩, ⟨10, 5⟩], InOrder [⟨0, 0⟩, ⟨10, 5⟩] o → Representable o) ∧
        RepeatedInOrder [⟨0, 0⟩, ⟨10, 5⟩]) :=
  infer_orderFree_iff (by unfold StoredFit; decide)

/-- Two records of one stored offset, matched to different headers. -/
def disputed : List OffsetObservation := [⟨0, 0⟩, ⟨100, 50⟩, ⟨100, 70⟩]

theorem disputed_depends_on_order :
    [⟨0, 0⟩, ⟨100, 70⟩, ⟨100, 50⟩].Perm disputed ∧
      infer [⟨0, 0⟩, ⟨100, 70⟩, ⟨100, 50⟩] 4 ≠ infer disputed 4 ∧
      (infer disputed 4).isUsable = true ∧ ⟨100, 70⟩ ∈ disputed ∧
      (infer disputed 4).map 100 ≠ some 70 ∧ (infer disputed 4).discarded = 0 := by
  decide

end OffsetMap

end VeraqisRecover.Zip
