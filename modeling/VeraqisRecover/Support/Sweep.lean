import Mathlib

/-!
# Merging touching ranges in one sweep

Items with a range each come in the order of their lower ends.  An item that
touches the last one kept is absorbed into it, and any other item is kept.
-/

/-- Items that can absorb one another, their ranges growing to the hull. -/
structure Sweep (α β : Type*) [LinearOrder β] where
  lo : α → β
  hi : α → β
  absorb : α → α → α
  lo_absorb : ∀ a b, lo (absorb a b) = min (lo a) (lo b)
  hi_absorb : ∀ a b, hi (absorb a b) = max (hi a) (hi b)

namespace Sweep

variable {α β ω : Type*} [LinearOrder β] [LinearOrder ω] (S : Sweep α β)

/-- The closed ranges have a position in common. -/
def Touches (a b : α) : Prop := S.lo a ≤ S.hi b ∧ S.lo b ≤ S.hi a

instance : DecidableRel S.Touches :=
  fun a b ↦ inferInstanceAs (Decidable (S.lo a ≤ S.hi b ∧ S.lo b ≤ S.hi a))

def Within (a b : α) : Prop := S.lo b ≤ S.lo a ∧ S.hi a ≤ S.hi b

instance : DecidableRel S.Within :=
  fun a b ↦ inferInstanceAs (Decidable (S.lo b ≤ S.lo a ∧ S.hi a ≤ S.hi b))

/-- The first ends before the second begins. -/
def Before (a b : α) : Prop := S.hi a < S.lo b

def push (kept : List α) (a : α) : List α :=
  match kept.getLast? with
  | some last => if S.Touches last a then kept.dropLast ++ [S.absorb last a] else kept ++ [a]
  | none => kept ++ [a]

def run (items : List α) : List α := items.foldl S.push []

/-! ## The groups that become one item -/

/-- A group is its first item with those absorbed into it. -/
def fold (g : α × List α) : α := g.2.foldl S.absorb g.1

def members (g : α × List α) : List α := g.1 :: g.2

def groupsFrom (g : α × List α) : List α → List (α × List α)
  | [] => [g]
  | a :: items =>
      if S.Touches (S.fold g) a then groupsFrom (g.1, g.2 ++ [a]) items
      else g :: groupsFrom (a, []) items

def groups : List α → List (α × List α)
  | [] => []
  | a :: items => S.groupsFrom (a, []) items

theorem fold_concat (g : α × List α) (a : α) :
    S.fold (g.1, g.2 ++ [a]) = S.absorb (S.fold g) a :=
  List.foldl_concat S.absorb g.1 a g.2

theorem foldl_push (items kept : List α) (g : α × List α) :
    items.foldl S.push (kept ++ [S.fold g]) = kept ++ (S.groupsFrom g items).map S.fold := by
  induction items generalizing kept g with
  | nil => rfl
  | cons a items ih =>
      rw [List.foldl_cons, push, List.getLast?_concat, List.dropLast_concat, groupsFrom]
      dsimp only
      split
      · rw [← S.fold_concat g a, ih]
      · exact (ih (kept ++ [S.fold g]) (a, [])).trans (List.append_assoc _ _ _)

/-- What is kept are the groups, each folded into one item. -/
theorem run_eq (items : List α) : S.run items = (S.groups items).map S.fold := by
  cases items with
  | nil => rfl
  | cons a items => exact S.foldl_push items [] (a, [])

theorem flatMap_groupsFrom (g : α × List α) (items : List α) :
    (S.groupsFrom g items).flatMap members = members g ++ items := by
  induction items generalizing g with
  | nil => rw [groupsFrom, List.flatMap_singleton, List.append_nil]
  | cons a items ih =>
      rw [groupsFrom]
      split
      · rw [ih, members, members, List.cons_append, List.append_assoc, List.singleton_append,
          List.cons_append]
      · rw [List.flatMap_cons, ih]
        rfl

theorem flatMap_groups (items : List α) : (S.groups items).flatMap members = items := by
  cases items with
  | nil => rfl
  | cons a items => exact S.flatMap_groupsFrom (a, []) items

/-- What holds of single items and stays when a touching one joins holds of every group. -/
theorem forall_mem_groupsFrom {P : α × List α → Prop} (hone : ∀ a, P (a, []))
    (hjoin : ∀ g a, P g → S.Touches (S.fold g) a → P (g.1, g.2 ++ [a])) {g : α × List α}
    (hg : P g) (items : List α) : ∀ g' ∈ S.groupsFrom g items, P g' := by
  induction items generalizing g with
  | nil =>
      intro g' hg'
      rw [List.mem_singleton.mp hg']
      exact hg
  | cons a items ih =>
      rw [groupsFrom]
      split
      · exact ih (hjoin g a hg ‹_›)
      · exact List.forall_mem_cons.mpr ⟨hg, ih (hone a)⟩

theorem forall_mem_groups {P : α × List α → Prop} (hone : ∀ a, P (a, []))
    (hjoin : ∀ g a, P g → S.Touches (S.fold g) a → P (g.1, g.2 ++ [a])) (items : List α) :
    ∀ g ∈ S.groups items, P g := by
  cases items with
  | nil => exact List.forall_mem_nil P
  | cons a items => exact S.forall_mem_groupsFrom hone hjoin (hone a) items

/-! ## What a group becomes -/

section Group

variable {S} {items : List α} {g : α × List α}

theorem mem_members_concat {a c : α} : c ∈ members (g.1, g.2 ++ [a]) ↔ c ∈ members g ∨ c = a := by
  simp only [members, List.mem_cons, List.mem_append, List.not_mem_nil, or_false, or_assoc]

theorem Within.trans {a b c : α} (hab : S.Within a b) (hbc : S.Within b c) : S.Within a c :=
  ⟨hbc.1.trans hab.1, hab.2.trans hbc.2⟩

theorem within_absorb_left (a b : α) : S.Within a (S.absorb a b) := by
  rw [Within, S.lo_absorb, S.hi_absorb]
  exact ⟨min_le_left _ _, le_max_left _ _⟩

theorem within_absorb_right (a b : α) : S.Within b (S.absorb a b) := by
  rw [Within, S.lo_absorb, S.hi_absorb]
  exact ⟨min_le_right _ _, le_max_right _ _⟩

theorem within_fold (hg : g ∈ S.groups items) : ∀ c ∈ members g, S.Within c (S.fold g) := by
  refine S.forall_mem_groups
    (P := fun g ↦ ∀ c ∈ members g, S.Within c (S.fold g)) ?_ ?_ items g hg
  · intro a c hc
    rw [List.mem_singleton.mp hc]
    exact ⟨le_rfl, le_rfl⟩
  · intro g a hwithin htouch c hc
    rw [S.fold_concat]
    rcases mem_members_concat.mp hc with hc | rfl
    · exact (hwithin c hc).trans (within_absorb_left _ _)
    · exact within_absorb_right _ _

theorem exists_lo_eq (hg : g ∈ S.groups items) : ∃ c ∈ members g, S.lo c = S.lo (S.fold g) := by
  refine S.forall_mem_groups
    (P := fun g ↦ ∃ c ∈ members g, S.lo c = S.lo (S.fold g)) ?_ ?_ items g hg
  · exact fun a ↦ ⟨a, List.mem_cons_self, rfl⟩
  · rintro g a ⟨c, hc, hlo⟩ -
    rw [S.fold_concat, S.lo_absorb]
    rcases min_choice (S.lo (S.fold g)) (S.lo a) with hmin | hmin
    · exact ⟨c, mem_members_concat.mpr (Or.inl hc), hlo.trans hmin.symm⟩
    · exact ⟨a, mem_members_concat.mpr (Or.inr rfl), hmin.symm⟩

/-- A group leaves no position of its range uncovered, because every item touched the hull of
those before it. -/
theorem exists_covering (hg : g ∈ S.groups items) {x : β} (hlo : S.lo (S.fold g) ≤ x)
    (hhi : x < S.hi (S.fold g)) : ∃ c ∈ members g, S.lo c ≤ x ∧ x < S.hi c := by
  revert x
  refine S.forall_mem_groups (P := fun g ↦ ∀ {x}, S.lo (S.fold g) ≤ x → x < S.hi (S.fold g) →
    ∃ c ∈ members g, S.lo c ≤ x ∧ x < S.hi c) ?_ ?_ items g hg
  · exact fun a x hlo hhi ↦ ⟨a, List.mem_cons_self, hlo, hhi⟩
  · intro g a hfilled htouch x hlo hhi
    rw [S.fold_concat] at hlo hhi
    rw [S.lo_absorb] at hlo
    rw [S.hi_absorb] at hhi
    by_cases hin : S.lo (S.fold g) ≤ x ∧ x < S.hi (S.fold g)
    · obtain ⟨c, hc, hcover⟩ := hfilled hin.1 hin.2
      exact ⟨c, mem_members_concat.mpr (Or.inl hc), hcover⟩
    · refine ⟨a, mem_members_concat.mpr (Or.inr rfl), ?_⟩
      rcases not_and_or.mp hin with hx | hx
      · rw [not_le] at hx
        exact ⟨(min_le_iff.mp hlo).resolve_left hx.not_ge, hx.trans_le htouch.1⟩
      · rw [not_lt] at hx
        exact ⟨htouch.2.trans hx, (lt_max_iff.mp hhi).resolve_left hx.not_gt⟩

/-- A weight that absorbing maximises is the greatest of the group. -/
theorem isGreatest_fold {weight : α → ω}
    (hmax : ∀ a b, weight (S.absorb a b) = max (weight a) (weight b)) (hg : g ∈ S.groups items) :
    IsGreatest {w | ∃ c ∈ members g, weight c = w} (weight (S.fold g)) := by
  refine S.forall_mem_groups
    (P := fun g ↦ IsGreatest {w | ∃ c ∈ members g, weight c = w} (weight (S.fold g)))
    ?_ ?_ items g hg
  · refine fun a ↦ ⟨⟨a, List.mem_cons_self, rfl⟩, ?_⟩
    rintro _ ⟨c, hc, rfl⟩
    rw [List.mem_singleton.mp hc]
    rfl
  · rintro g a ⟨⟨c, hc, hweight⟩, hupper⟩ -
    rw [S.fold_concat, hmax]
    constructor
    · rcases max_choice (weight (S.fold g)) (weight a) with h | h
      · exact ⟨c, mem_members_concat.mpr (Or.inl hc), hweight.trans h.symm⟩
      · exact ⟨a, mem_members_concat.mpr (Or.inr rfl), h.symm⟩
    · rintro _ ⟨c, hc, rfl⟩
      rcases mem_members_concat.mp hc with hc | rfl
      · exact le_max_of_le_left (hupper ⟨c, hc, rfl⟩)
      · exact le_max_right _ _

end Group

/-! ## Sorted items -/

section Sorted

variable {S} {items items' : List α}

/-- Items in the order of their lower ends, each range the right way round. -/
structure Sorted (S : Sweep α β) (items : List α) : Prop where
  sorted : items.Pairwise (S.lo · ≤ S.lo ·)
  ordered : ∀ c ∈ items, S.lo c ≤ S.hi c

theorem lo_le_fold {g : α × List α} {b : β} (hb : ∀ c ∈ members g, b ≤ S.lo c)
    (hg : ∃ c ∈ members g, S.lo c = S.lo (S.fold g)) : b ≤ S.lo (S.fold g) := by
  obtain ⟨c, hc, hlo⟩ := hg
  exact (hb c hc).trans_eq hlo

/-- A group ends before the next item it does not touch. -/
theorem before_of_not_touches {a b : α} (hlo : S.lo a ≤ S.lo b) (hord : S.lo b ≤ S.hi b)
    (h : ¬S.Touches a b) : S.Before a b :=
  not_le.mp fun hle ↦ h ⟨hlo.trans hord, hle⟩

theorem pairwise_groupsFrom {g : α × List α} (hlo : ∀ c ∈ items, S.lo (S.fold g) ≤ S.lo c)
    (hs : S.Sorted items) :
    (S.groupsFrom g items).Pairwise fun g g' ↦ S.Before (S.fold g) (S.fold g') := by
  induction items generalizing g with
  | nil => exact List.pairwise_singleton _ _
  | cons a items ih =>
      obtain ⟨hfirst, hrest⟩ := List.pairwise_cons.mp hs.sorted
      obtain ⟨ha, hordered⟩ := List.forall_mem_cons.mp hs.ordered
      rw [groupsFrom]
      split
      · refine ih (fun c hc ↦ ?_) ⟨hrest, hordered⟩
        rw [S.fold_concat, S.lo_absorb]
        exact min_le_of_left_le (hlo c (List.mem_cons_of_mem a hc))
      · have hbefore := before_of_not_touches (hlo a List.mem_cons_self) ha ‹_›
        refine List.pairwise_cons.mpr ⟨fun g' hg' ↦ ?_, ih hfirst ⟨hrest, hordered⟩⟩
        have hmember : ∀ c ∈ members g', S.lo a ≤ S.lo c := by
          intro c hc
          have hin : c ∈ a :: items := by
            rw [← S.flatMap_groups (a :: items)]
            exact List.mem_flatMap.mpr ⟨g', hg', hc⟩
          rcases List.mem_cons.mp hin with rfl | hin
          · exact le_rfl
          · exact hfirst c hin
        exact hbefore.trans_le
          (lo_le_fold hmember (exists_lo_eq (show g' ∈ S.groups (a :: items) from hg')))

theorem pairwise_groups (hs : S.Sorted items) :
    (S.groups items).Pairwise fun g g' ↦ S.Before (S.fold g) (S.fold g') := by
  cases items with
  | nil => exact List.Pairwise.nil
  | cons a items =>
      obtain ⟨hfirst, hrest⟩ := List.pairwise_cons.mp hs.sorted
      exact pairwise_groupsFrom hfirst ⟨hrest, fun c hc ↦ hs.ordered c (List.mem_cons_of_mem a hc)⟩

/-- What a sweep makes of its items, whatever their order. -/
structure Merges (S : Sweep α β) (items out : List α) : Prop where
  before : out.Pairwise S.Before
  ordered : ∀ c ∈ items, S.lo c ≤ S.hi c
  within : ∀ c ∈ items, ∃ r ∈ out, S.Within c r
  begun : ∀ r ∈ out, ∃ c ∈ items, S.lo c = S.lo r ∧ S.Within c r
  filled : ∀ r ∈ out, ∀ x, S.lo r ≤ x → x < S.hi r → ∃ c ∈ items, S.lo c ≤ x ∧ x < S.hi c

theorem mem_of_mem_groups {g : α × List α} {c : α} (hg : g ∈ S.groups items)
    (hc : c ∈ members g) : c ∈ items := by
  rw [← S.flatMap_groups items]
  exact List.mem_flatMap.mpr ⟨g, hg, hc⟩

theorem exists_group {c : α} (hc : c ∈ items) : ∃ g ∈ S.groups items, c ∈ members g := by
  rw [← S.flatMap_groups items] at hc
  exact List.mem_flatMap.mp hc

theorem merges_run (hs : S.Sorted items) : S.Merges items (S.run items) where
  before := by
    rw [S.run_eq]
    exact List.pairwise_map.mpr (pairwise_groups hs)
  ordered := hs.ordered
  within := by
    intro c hc
    obtain ⟨g, hg, hcg⟩ := exists_group (S := S) hc
    rw [S.run_eq]
    exact ⟨S.fold g, List.mem_map_of_mem hg, within_fold hg c hcg⟩
  begun := by
    intro r hr
    rw [S.run_eq] at hr
    obtain ⟨g, hg, rfl⟩ := List.mem_map.mp hr
    obtain ⟨c, hc, hlo⟩ := exists_lo_eq hg
    exact ⟨c, mem_of_mem_groups hg hc, hlo, within_fold hg c hc⟩
  filled := by
    intro r hr x hlo hhi
    rw [S.run_eq] at hr
    obtain ⟨g, hg, rfl⟩ := List.mem_map.mp hr
    obtain ⟨c, hc, hcover⟩ := exists_covering hg hlo hhi
    exact ⟨c, mem_of_mem_groups hg hc, hcover⟩

namespace Merges

variable {out out' : List α}

theorem ordered_out (h : S.Merges items out) {r : α} (hr : r ∈ out) : S.lo r ≤ S.hi r := by
  obtain ⟨c, hc, hlo, hwithin⟩ := h.begun r hr
  exact hlo.ge.trans ((h.ordered c hc).trans hwithin.2)

/-- Two of the ranges that have a position in common are the same. -/
theorem eq_of_touches (h : S.Merges items out) {r q : α} (hr : r ∈ out) (hq : q ∈ out)
    (htouch : S.Touches r q) : r = q := by
  by_contra hne
  have hapart : out.Pairwise fun a b ↦ ¬S.Touches a b ∧ ¬S.Touches b a := by
    refine h.before.imp fun hab ↦ ⟨fun ht ↦ ?_, fun ht ↦ ?_⟩
    · exact ht.2.not_gt hab
    · exact ht.1.not_gt hab
  have hsymm : Std.Symm fun a b : α ↦ ¬S.Touches a b ∧ ¬S.Touches b a :=
    ⟨fun _ _ hab ↦ And.symm hab⟩
  exact (hapart.forall hr hq hne).1 htouch

/-- The positions covered are those of the items. -/
theorem mem_span_iff (h : S.Merges items out) (x : β) :
    (∃ r ∈ out, S.lo r ≤ x ∧ x < S.hi r) ↔ ∃ c ∈ items, S.lo c ≤ x ∧ x < S.hi c := by
  constructor
  · rintro ⟨r, hr, hlo, hhi⟩
    exact h.filled r hr x hlo hhi
  · rintro ⟨c, hc, hlo, hhi⟩
    obtain ⟨r, hr, hwithin⟩ := h.within c hc
    exact ⟨r, hr, hwithin.1.trans hlo, hhi.trans_le hwithin.2⟩

theorem exists_within (h : S.Merges items out) (h' : S.Merges items' out')
    (hsame : ∀ c, c ∈ items ↔ c ∈ items') {r : α} (hr : r ∈ out) :
    ∃ r' ∈ out', S.Within r r' := by
  obtain ⟨c, hc, hlo, -⟩ := h.begun r hr
  obtain ⟨r', hr', hwithin⟩ := h'.within c ((hsame c).mp hc)
  refine ⟨r', hr', hwithin.1.trans_eq hlo, ?_⟩
  -- otherwise an item reaches over the end of `r'`, and what it lies in would touch `r'`
  by_contra! hover
  have hstart : S.lo r ≤ S.hi r' := hlo.ge.trans ((h.ordered c hc).trans hwithin.2)
  obtain ⟨d, hd, hdlo, hdhi⟩ := h.filled r hr (S.hi r') hstart hover
  obtain ⟨q, hq, hdq⟩ := h'.within d ((hsame d).mp hd)
  have hend : S.hi r' < S.hi q := hdhi.trans_le hdq.2
  have heq := h'.eq_of_touches hr' hq
    ⟨(h'.ordered_out hr').trans hend.le, hdq.1.trans hdlo⟩
  exact hend.ne (congrArg S.hi heq)

theorem exists_range_eq (h : S.Merges items out) (h' : S.Merges items' out')
    (hsame : ∀ c, c ∈ items ↔ c ∈ items') {r : α} (hr : r ∈ out) :
    ∃ r' ∈ out', (S.lo r', S.hi r') = (S.lo r, S.hi r) := by
  obtain ⟨r', hr', hwithin⟩ := h.exists_within h' hsame hr
  obtain ⟨q, hq, hback⟩ := h'.exists_within h (fun c ↦ (hsame c).symm) hr'
  have hrange := h.ordered_out hr
  have hqr : q = r := h.eq_of_touches hq hr
    ⟨(hwithin.trans hback).1.trans hrange, hrange.trans (hwithin.trans hback).2⟩
  rw [hqr] at hback
  exact ⟨r', hr', Prod.ext (hwithin.1.antisymm hback.1) (hback.2.antisymm hwithin.2)⟩

theorem pairwise_lo (h : S.Merges items out) :
    (out.map fun r ↦ (S.lo r, S.hi r)).Pairwise fun p q ↦ p.1 < q.1 := by
  rw [List.pairwise_map]
  refine h.before.imp_of_mem fun hr _ hbefore ↦ ?_
  exact (h.ordered_out hr).trans_lt hbefore

/-- The ranges depend on nothing but which items there are. -/
theorem ranges_eq (h : S.Merges items out) (h' : S.Merges items' out')
    (hsame : ∀ c, c ∈ items ↔ c ∈ items') :
    (out.map fun r ↦ (S.lo r, S.hi r)) = out'.map fun r ↦ (S.lo r, S.hi r) := by
  have hirrefl : Std.Irrefl fun p q : β × β ↦ p.1 < q.1 := ⟨fun _ ↦ lt_irrefl _⟩
  have hasymm : Std.Antisymm fun p q : β × β ↦ p.1 < q.1 := ⟨fun _ _ h h' ↦ absurd h' h.asymm⟩
  refine h.pairwise_lo.eq_of_mem_iff h'.pairwise_lo fun p ↦ ?_
  simp only [List.mem_map]
  constructor
  · rintro ⟨r, hr, rfl⟩
    exact h.exists_range_eq h' hsame hr
  · rintro ⟨r, hr, rfl⟩
    exact h'.exists_range_eq h (fun c ↦ (hsame c).symm) hr

end Merges

theorem not_within_of_before {a b c : α} (hord : S.lo c ≤ S.hi c) (ha : S.Within c a)
    (hbefore : S.Before a b ∨ S.Before b a) : ¬S.Within c b := by
  intro hb
  rcases hbefore with hab | hba
  · exact (hb.1.trans (hord.trans ha.2)).not_gt hab
  · exact (ha.1.trans (hord.trans hb.2)).not_gt hba

/-- The members of a group are the items that lie in what it became. -/
theorem members_eq_filter (hs : S.Sorted items) {g : α × List α} (hg : g ∈ S.groups items) :
    members g = items.filter fun c ↦ S.Within c (S.fold g) := by
  obtain ⟨before, after, hsplit⟩ := List.append_of_mem hg
  have hpairs := pairwise_groups hs
  rw [hsplit, List.pairwise_append, List.pairwise_cons] at hpairs
  obtain ⟨-, ⟨hafter, -⟩, hbefore⟩ := hpairs
  have hnone : ∀ gs : List (α × List α), (∀ g' ∈ gs, g' ∈ S.groups items ∧
      (S.Before (S.fold g') (S.fold g) ∨ S.Before (S.fold g) (S.fold g'))) →
      (gs.flatMap members).filter (fun c ↦ S.Within c (S.fold g)) = [] := by
    intro gs hgs
    refine List.filter_eq_nil_iff.mpr fun c hc ↦ ?_
    obtain ⟨g', hg', hcg'⟩ := List.mem_flatMap.mp hc
    obtain ⟨hin, hapart⟩ := hgs g' hg'
    rw [decide_eq_true_iff]
    exact not_within_of_before (hs.ordered c (mem_of_mem_groups hin hcg')) (within_fold hin c hcg')
      hapart
  have hall : (members g).filter (fun c ↦ S.Within c (S.fold g)) = members g :=
    List.filter_eq_self.mpr fun c hc ↦ decide_eq_true (within_fold hg c hc)
  have hfirst := hnone before fun g' hg' ↦
    ⟨hsplit ▸ List.mem_append_left _ hg', Or.inl (hbefore g' hg' g List.mem_cons_self)⟩
  have hlast := hnone after fun g' hg' ↦
    ⟨hsplit ▸ List.mem_append_right _ (List.mem_cons_of_mem g hg'), Or.inr (hafter g' hg')⟩
  conv_rhs => rw [← S.flatMap_groups items, hsplit, List.flatMap_append, List.flatMap_cons]
  rw [List.filter_append, List.filter_append, hfirst, hall, hlast, List.nil_append,
    List.append_nil]

theorem map_eq_of_map_eq {γ δ : Type*} {f : α → γ} {h : α → δ} {l l' : List α}
    (hf : l.map f = l'.map f) (hfh : ∀ a ∈ l, ∀ b ∈ l', f a = f b → h a = h b) :
    l.map h = l'.map h := by
  induction l generalizing l' with
  | nil =>
      rw [List.map_nil, eq_comm, List.map_eq_nil_iff] at hf
      rw [hf]
  | cons a l ih =>
      cases l' with
      | nil => cases hf
      | cons b l' =>
          obtain ⟨hab, hrest⟩ := List.cons.inj hf
          rw [List.map_cons, List.map_cons, hfh a List.mem_cons_self b List.mem_cons_self hab,
            ih hrest fun a ha b hb ↦
              hfh a (List.mem_cons_of_mem _ ha) b (List.mem_cons_of_mem _ hb)]

/-- What is read off from a group's range and its members up to order is the same for every order
of the items. -/
theorem map_run_eq {γ : Type*} {f : α → γ} (hs : S.Sorted items) (hs' : S.Sorted items')
    (hperm : items.Perm items')
    (hf : ∀ g ∈ S.groups items, ∀ g' ∈ S.groups items', (members g).Perm (members g') →
      S.lo (S.fold g) = S.lo (S.fold g') → S.hi (S.fold g) = S.hi (S.fold g') →
      f (S.fold g) = f (S.fold g')) :
    (S.run items).map f = (S.run items').map f := by
  have hranges := (merges_run hs).ranges_eq (merges_run hs') fun _ ↦ hperm.mem_iff
  refine map_eq_of_map_eq hranges fun r hr r' hr' hrange ↦ ?_
  rw [S.run_eq] at hr hr'
  obtain ⟨g, hg, rfl⟩ := List.mem_map.mp hr
  obtain ⟨g', hg', rfl⟩ := List.mem_map.mp hr'
  obtain ⟨hlo, hhi⟩ := Prod.mk.inj hrange
  refine hf g hg g' hg' ?_ hlo hhi
  rw [members_eq_filter hs hg, members_eq_filter hs' hg']
  simp only [Within, hlo, hhi]
  exact hperm.filter _

end Sorted

end Sweep
