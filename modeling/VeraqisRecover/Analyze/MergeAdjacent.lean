import VeraqisRecover.Analyze.Source
import VeraqisRecover.Support.StableSort
import VeraqisRecover.Support.Sweep

/-!
# Adjacent damage

`merge_adjacent` of `corruption/classifier.rs`: bit flips whose ranges touch
become one record, and everything else passes through.
-/

namespace VeraqisRecover.Analyze

open ByteString Checked LossyUtf8

/-! ## Corruptions -/

inductive CorruptionCategory
  | missingData | bitFlip | blockReorder | truncation | paddingMismatch | checksumMismatch
  | structuralCorruption | securityThreat
  deriving DecidableEq, Repr

inductive Severity
  | benign | minor | major | catastrophic
  deriving DecidableEq, Repr

namespace Severity

def rank : Severity → ℕ
  | benign => 0
  | minor => 1
  | major => 2
  | catastrophic => 3

theorem rank_injective : Function.Injective rank := by
  intro a b h
  cases a <;> cases b <;> first | rfl | cases h

/-- In the order of declaration. -/
instance : LinearOrder Severity := LinearOrder.lift' rank rank_injective

end Severity

inductive EvidenceType
  | signatureMismatch | checksumMismatch | offsetOutOfBounds | lengthOverflow | lengthUnderflow
  | structureMissing | valueOutOfRange | blockReorder | paddingViolation | truncationMarker
  | overlappingEntries | ratioExceeded | depthExceeded | pathEscape | cycleDetected
  deriving DecidableEq, Repr

/-- A single piece of evidence. -/
structure Evidence where
  offset : ℕ
  expectedBytes : Option Bytes
  actualBytes : Bytes
  fieldName : String
  fieldDescription : String
  confidence : ℚ
  ruleId : String
  evidenceType : EvidenceType
  deriving DecidableEq, Repr

structure ChainOfEvidence where
  primary : Evidence
  supporting : List Evidence
  aggregateConfidence : ℚ
  deriving DecidableEq, Repr

/-- A single detected defect. -/
structure Corruption where
  id : ℕ
  location : CorruptionLocation
  category : CorruptionCategory
  severity : Severity
  description : String
  byteRange : Option ByteRange
  chain : ChainOfEvidence
  deriving DecidableEq, Repr

namespace ByteRange

def adjacentOrOverlapping (r other : ByteRange) : Bool :=
  decide (r.start ≤ other.stop) && decide (other.start ≤ r.stop)

/-- The documented invariant. -/
def Ordered (r : ByteRange) : Prop := r.start ≤ r.stop

theorem eq_of_ends {r q : ByteRange} (hstart : r.start = q.start) (hstop : r.stop = q.stop) :
    r = q := by
  cases r
  cases q
  exact congrArg₂ ByteRange.mk hstart hstop

end ByteRange

namespace Corruption

/-- The description that belongs to the chain.  `percent` writes a confidence as a whole number
of hundredths. -/
def refreshDescription (percent : ℚ → String) (c : Corruption) : Corruption :=
  let p := c.chain.primary
  { c with description := s!"{p.ruleId}: {p.fieldName} at offset 0x{hexUpper 1 p.offset} " ++
      s!"(confidence {percent c.chain.aggregateConfidence}%)" }

/-- What `merge_adjacent` merges. -/
def IsBitFlip (c : Corruption) : Prop := c.category = .bitFlip ∧ c.byteRange.isSome

instance : DecidablePred IsBitFlip :=
  fun c ↦ inferInstanceAs (Decidable (c.category = .bitFlip ∧ c.byteRange.isSome))

end Corruption

/-- A corruption on the merging side of the partition: it has a range to unwrap. -/
abbrev BitFlip : Type := {c : Corruption // c.IsBitFlip}

namespace BitFlip

/-- `c.byte_range.unwrap()` -/
def range (c : BitFlip) : ByteRange := c.val.byteRange.get c.2.2

/-- The record after its range and everything that goes with it were replaced. -/
def grow (percent : ℚ → String) (prev : BitFlip) (newRange : ByteRange) (severity : Severity) :
    BitFlip :=
  ⟨Corruption.refreshDescription percent
    { prev.val with
      byteRange := some newRange
      location := { prev.val.location with
        offsetStart := newRange.start
        offsetEnd := newRange.stop }
      severity := max prev.val.severity severity
      chain := { prev.val.chain with
        primary := { prev.val.chain.primary with offset := newRange.start } } },
    prev.2.1, rfl⟩

def absorb (percent : ℚ → String) (prev c : BitFlip) : Checked BitFlip := do
  let newRange ← ByteRange.new (min prev.range.start c.range.start)
    (max prev.range.stop c.range.stop)
  return prev.grow percent newRange c.val.severity

end BitFlip

/-- One turn of the loop over the sorted bit flips. -/
def mergeStep (percent : ℚ → String) (merged : List BitFlip) (c : BitFlip) :
    Checked (List BitFlip) :=
  match merged.getLast? with
  | some prev =>
      if prev.range.adjacentOrOverlapping c.range then do
        let prev ← prev.absorb percent c
        return merged.dropLast ++ [prev]
      else return merged ++ [c]
  | none => return merged ++ [c]

/-- The first half of the partition. -/
def bitflips (corruptions : List Corruption) : List BitFlip :=
  corruptions.filterMap fun c ↦ if h : c.IsBitFlip then some ⟨c, h⟩ else none

/-- The second half of the partition. -/
def others (corruptions : List Corruption) : List Corruption :=
  corruptions.filter fun c ↦ ¬c.IsBitFlip

def mergeAdjacent (percent : ℚ → String) (corruptions : List Corruption) :
    Checked (List Corruption) := do
  let sorted := StableSort.sortByKey (fun c : BitFlip ↦ c.range.start) (bitflips corruptions)
  let merged ← sorted.foldlM (mergeStep percent) []
  return merged.map (·.val) ++ others corruptions

/-! ## The loop is a sweep -/

section Loop

variable {percent : ℚ → String}

@[simp] theorem BitFlip.range_grow (prev : BitFlip) (r : ByteRange) (severity : Severity) :
    (prev.grow percent r severity).range = r := rfl

@[simp] theorem BitFlip.severity_grow (prev : BitFlip) (r : ByteRange) (severity : Severity) :
    (prev.grow percent r severity).val.severity = max prev.val.severity severity := rfl

variable (percent) in
/-- Bit flips that absorb one another. -/
def flipSweep : Sweep BitFlip ℕ where
  lo c := c.range.start
  hi c := c.range.stop
  absorb prev c := prev.grow percent
    ⟨min prev.range.start c.range.start, max prev.range.stop c.range.stop⟩ c.val.severity
  lo_absorb _ _ := rfl
  hi_absorb _ _ := rfl

theorem adjacentOrOverlapping_iff {a b : BitFlip} :
    a.range.adjacentOrOverlapping b.range ↔ (flipSweep percent).Touches a b := by
  rw [ByteRange.adjacentOrOverlapping, Bool.and_eq_true, decide_eq_true_iff, decide_eq_true_iff]
  rfl

theorem absorb_eq {prev c : BitFlip} (hprev : prev.range.Ordered) :
    prev.absorb percent c = .ok ((flipSweep percent).absorb prev c) := by
  have hle : min prev.range.start c.range.start ≤ max prev.range.stop c.range.stop :=
    (min_le_left _ _).trans (hprev.trans (le_max_left _ _))
  rw [BitFlip.absorb, ByteRange.new, debugAssert_eq hle]
  rfl

theorem mergeStep_eq {merged : List BitFlip} {c : BitFlip}
    (hmerged : ∀ r ∈ merged, r.range.Ordered) :
    mergeStep percent merged c = .ok ((flipSweep percent).push merged c) := by
  unfold mergeStep Sweep.push
  cases hlast : merged.getLast? with
  | none => rfl
  | some prev =>
      have hprev := hmerged prev (List.mem_of_getLast? hlast)
      dsimp only
      by_cases htouch : (flipSweep percent).Touches prev c
      · rw [if_pos htouch, if_pos (adjacentOrOverlapping_iff.mpr htouch), absorb_eq hprev]
        rfl
      · rw [if_neg htouch, if_neg (mt adjacentOrOverlapping_iff.mp htouch)]
        rfl

theorem ordered_push {merged : List BitFlip} {c : BitFlip}
    (hmerged : ∀ r ∈ merged, r.range.Ordered) (hc : c.range.Ordered) :
    ∀ r ∈ (flipSweep percent).push merged c, r.range.Ordered := by
  unfold Sweep.push
  cases hlast : merged.getLast? with
  | none =>
      intro r hr
      rcases List.mem_append.mp hr with hr | hr
      · exact hmerged r hr
      · rwa [List.mem_singleton.mp hr]
  | some prev =>
      have hprev := hmerged prev (List.mem_of_getLast? hlast)
      dsimp only
      split
      · intro r hr
        rcases List.mem_append.mp hr with hr | hr
        · exact hmerged r (List.mem_of_mem_dropLast hr)
        · rw [List.mem_singleton.mp hr]
          exact (min_le_left _ _).trans (hprev.trans (le_max_left _ _))
      · intro r hr
        rcases List.mem_append.mp hr with hr | hr
        · exact hmerged r hr
        · rwa [List.mem_singleton.mp hr]

theorem foldlM_mergeStep {items merged : List BitFlip}
    (hmerged : ∀ r ∈ merged, r.range.Ordered) (hitems : ∀ c ∈ items, c.range.Ordered) :
    items.foldlM (mergeStep percent) merged =
      .ok (items.foldl (flipSweep percent).push merged) := by
  induction items generalizing merged with
  | nil => rfl
  | cons c items ih =>
      obtain ⟨hc, hrest⟩ := List.forall_mem_cons.mp hitems
      rw [List.foldlM_cons, mergeStep_eq hmerged]
      exact ih (ordered_push hmerged hc) hrest

end Loop

/-! ## The two halves -/

section Halves

variable {cs cs' : List Corruption}

theorem map_val_bitflips (cs : List Corruption) :
    (bitflips cs).map (·.val) = cs.filter fun c ↦ c.IsBitFlip := by
  induction cs with
  | nil => rfl
  | cons c cs ih =>
      by_cases hc : c.IsBitFlip
      · rw [bitflips, List.filterMap_cons_some (dif_pos hc), List.map_cons, ← bitflips, ih]
        simp only [List.filter_cons, hc, decide_true, if_true]
      · rw [bitflips, List.filterMap_cons_none (dif_neg hc), ← bitflips, ih]
        simp only [List.filter_cons, hc, decide_false, Bool.false_eq_true, if_false]

theorem mem_bitflips {c : BitFlip} : c ∈ bitflips cs ↔ c.val ∈ cs := by
  have hmem : c.val ∈ (bitflips cs).map (·.val) ↔ c.val ∈ cs := by
    rw [map_val_bitflips, List.mem_filter, decide_eq_true_iff]
    exact and_iff_left c.2
  rw [← hmem, List.mem_map_of_injective Subtype.val_injective]

/-- The documented invariant of every range. -/
def RangesOrdered (cs : List Corruption) : Prop :=
  ∀ c ∈ cs, ∀ r ∈ c.byteRange, r.Ordered

theorem BitFlip.byteRange_eq (c : BitFlip) : c.val.byteRange = some c.range :=
  (Option.some_get c.2.2).symm

theorem RangesOrdered.bitflips (h : RangesOrdered cs) : ∀ c ∈ bitflips cs, c.range.Ordered :=
  fun c hc ↦ h c.val (mem_bitflips.mp hc) c.range c.byteRange_eq

def sortedFlips (cs : List Corruption) : List BitFlip :=
  StableSort.sortByKey (fun c : BitFlip ↦ c.range.start) (bitflips cs)

theorem perm_sortedFlips (cs : List Corruption) : (sortedFlips cs).Perm (bitflips cs) :=
  StableSort.perm_sortByKey _ _

variable {percent : ℚ → String}

theorem RangesOrdered.sorted (h : RangesOrdered cs) :
    (flipSweep percent).Sorted (sortedFlips cs) where
  sorted := StableSort.pairwise_sortByKey _
  ordered c hc := h.bitflips c ((perm_sortedFlips cs).mem_iff.mp hc)

theorem mergeAdjacent_eq (h : RangesOrdered cs) : mergeAdjacent percent cs =
    .ok (((flipSweep percent).run (sortedFlips cs)).map (·.val) ++ others cs) := by
  have hsorted : (flipSweep percent).Sorted (sortedFlips cs) := h.sorted
  have hloop : _ = Except.ok ((flipSweep percent).run (sortedFlips cs)) :=
    foldlM_mergeStep (List.forall_mem_nil _) hsorted.ordered
  rw [mergeAdjacent]
  change (List.foldlM (mergeStep percent) [] (sortedFlips cs) >>= _) = _
  rw [hloop]
  rfl

theorem filter_result (merged : List BitFlip) (cs : List Corruption) :
    ((merged.map (·.val) ++ others cs).filter fun c ↦ c.IsBitFlip) = merged.map (·.val) := by
  have hflips : ((merged.map (·.val)).filter fun c ↦ c.IsBitFlip) = merged.map (·.val) := by
    refine List.filter_eq_self.mpr fun c hc ↦ ?_
    obtain ⟨b, -, rfl⟩ := List.mem_map.mp hc
    exact decide_eq_true b.2
  have hothers : ((others cs).filter fun c ↦ c.IsBitFlip) = [] := by
    refine List.filter_eq_nil_iff.mpr fun c hc ↦ ?_
    rw [others, List.mem_filter] at hc
    simpa using hc.2
  rw [List.filter_append, hflips, hothers, List.append_nil]

theorem others_result (merged : List BitFlip) (cs : List Corruption) :
    others (merged.map (·.val) ++ others cs) = others cs := by
  have hflips : others (merged.map (·.val)) = [] := by
    refine List.filter_eq_nil_iff.mpr fun c hc ↦ ?_
    obtain ⟨b, -, rfl⟩ := List.mem_map.mp hc
    simpa using b.2
  rw [others, List.filter_append, ← others, hflips, List.nil_append, others, List.filter_filter]
  simp only [Bool.and_self]

theorem bitflips_result (merged : List BitFlip) (cs : List Corruption) :
    bitflips (merged.map (·.val) ++ others cs) = merged := by
  have hval := map_val_bitflips (merged.map (·.val) ++ others cs)
  rw [filter_result] at hval
  exact List.map_injective_iff.mpr Subtype.val_injective hval

end Halves

/-! ## What the merge makes of a list -/

def BitFlip.Covers (r c : BitFlip) : Prop :=
  r.range.start ≤ c.range.start ∧ c.range.stop ≤ r.range.stop

/-- The merge loses no damage and invents none. -/
structure MergedExactly (cs out : List Corruption) : Prop where
  others_eq : others out = others cs
  apart : (bitflips out).Pairwise fun a b ↦ ¬a.range.adjacentOrOverlapping b.range
  mem_span_iff : ∀ x, (∃ r ∈ bitflips out, x ∈ Set.Ico r.range.start r.range.stop) ↔
    ∃ c ∈ bitflips cs, x ∈ Set.Ico c.range.start c.range.stop
  exists_covers : ∀ c ∈ bitflips cs, ∃ r ∈ bitflips out, r.Covers c
  severity : ∀ r ∈ bitflips out,
    IsGreatest {v | ∃ c ∈ bitflips cs, r.Covers c ∧ c.val.severity = v} r.val.severity

/-- What a record says of the damage, apart from its identity, the member it names, and the
evidence behind its offset. -/
structure Placed where
  category : CorruptionCategory
  severity : Severity
  byteRange : Option ByteRange
  offsetStart : ℕ
  offsetEnd : ℕ
  evidenceOffset : ℕ
  deriving DecidableEq, Repr

def Corruption.placed (c : Corruption) : Placed :=
  ⟨c.category, c.severity, c.byteRange, c.location.offsetStart, c.location.offsetEnd,
    c.chain.primary.offset⟩

/-- The bit flips at one start, in the order of the list. -/
def startingAt (start : ℕ) (cs : List Corruption) : List BitFlip :=
  (bitflips cs).filter (·.range.start = start)

section Merged

open Sweep

variable {percent : ℚ → String} {cs cs' : List Corruption}

theorem isGreatest_severity {items : List BitFlip} {g : BitFlip × List BitFlip}
    (hg : g ∈ (flipSweep percent).groups items) :
    IsGreatest {v | ∃ c ∈ members g, c.val.severity = v}
      ((flipSweep percent).fold g).val.severity :=
  @isGreatest_fold _ _ _ _ _ (flipSweep percent) items g (fun c ↦ c.val.severity)
    (fun _ _ ↦ rfl) hg

theorem mergedExactly (hcs : RangesOrdered cs) : MergedExactly cs
    (((flipSweep percent).run (sortedFlips cs)).map (·.val) ++ others cs) := by
  have hsorted : (flipSweep percent).Sorted (sortedFlips cs) := hcs.sorted
  have hmerges := merges_run hsorted
  have hmem : ∀ c, c ∈ sortedFlips cs ↔ c ∈ bitflips cs := fun _ ↦ (perm_sortedFlips cs).mem_iff
  constructor
  case others_eq => exact others_result _ _
  case apart =>
    rw [bitflips_result]
    refine hmerges.before.imp fun hbefore htouch ↦ ?_
    exact (adjacentOrOverlapping_iff.mp htouch).2.not_gt hbefore
  case mem_span_iff =>
    intro x
    rw [bitflips_result]
    simp only [Set.mem_Ico, ← hmem]
    exact hmerges.mem_span_iff x
  case exists_covers =>
    intro c hc
    rw [bitflips_result]
    exact hmerges.within c ((hmem c).mpr hc)
  case severity =>
    intro r hr
    rw [bitflips_result, run_eq] at hr
    obtain ⟨g, hg, rfl⟩ := List.mem_map.mp hr
    have hgreatest := isGreatest_severity hg
    rw [members_eq_filter hsorted hg] at hgreatest
    simp only [List.mem_filter, decide_eq_true_iff, hmem, and_assoc] at hgreatest
    exact hgreatest

/-- A group of more than one has its offsets at the ends of its range. -/
theorem offsets_fold {g : BitFlip × List BitFlip} (hg : g.2 ≠ []) :
    ((flipSweep percent).fold g).val.location.offsetStart =
        ((flipSweep percent).fold g).range.start ∧
      ((flipSweep percent).fold g).val.location.offsetEnd =
        ((flipSweep percent).fold g).range.stop ∧
      ((flipSweep percent).fold g).val.chain.primary.offset =
        ((flipSweep percent).fold g).range.start := by
  obtain ⟨first, rest⟩ := g
  obtain rfl | ⟨front, last, rfl⟩ := List.eq_nil_or_concat' rest
  · exact absurd rfl hg
  · rw [(flipSweep percent).fold_concat (first, front) last]
    exact ⟨rfl, rfl, rfl⟩

theorem placed_eq {items items' : List BitFlip} {g g' : BitFlip × List BitFlip}
    (hg : g ∈ (flipSweep percent).groups items) (hg' : g' ∈ (flipSweep percent).groups items')
    (hperm : (members g).Perm (members g'))
    (hrange : ((flipSweep percent).fold g).range = ((flipSweep percent).fold g').range) :
    ((flipSweep percent).fold g).val.placed = ((flipSweep percent).fold g').val.placed := by
  have hlen : g.2.length = g'.2.length := Nat.succ.inj hperm.length_eq
  by_cases hnil : g.2 = []
  · have hnil' : g'.2 = [] := by rwa [← List.length_eq_zero_iff, ← hlen, List.length_eq_zero_iff]
    rw [members, members, hnil, hnil', List.singleton_perm_singleton] at hperm
    rw [show g = g' from Prod.ext hperm (hnil.trans hnil'.symm)]
  · have hnil' : g'.2 ≠ [] := by rwa [← List.length_pos_iff, ← hlen, List.length_pos_iff]
    have hgreatest := isGreatest_severity hg
    simp only [hperm.mem_iff] at hgreatest
    have hseverity := hgreatest.unique (isGreatest_severity hg')
    obtain ⟨hstart, hstop, hoffset⟩ := @offsets_fold percent g hnil
    obtain ⟨hstart', hstop', hoffset'⟩ := @offsets_fold percent g' hnil'
    rw [Corruption.placed, Corruption.placed, hstart, hstop, hoffset, hstart', hstop', hoffset',
      BitFlip.byteRange_eq, BitFlip.byteRange_eq, hseverity, hrange,
      ((flipSweep percent).fold g).2.1, ((flipSweep percent).fold g').2.1]

/-- The order of the input does not matter for what the records say of the damage. -/
theorem placed_run_eq (hcs : RangesOrdered cs) (hcs' : RangesOrdered cs') (hperm : cs.Perm cs') :
    ((flipSweep percent).run (sortedFlips cs)).map (·.val.placed) =
      ((flipSweep percent).run (sortedFlips cs')).map (·.val.placed) := by
  have hflips : (bitflips cs).Perm (bitflips cs') := hperm.filterMap _
  refine map_run_eq hcs.sorted hcs'.sorted ?_ fun g hg g' hg' hmembers hlo hhi ↦ ?_
  · exact (perm_sortedFlips cs).trans (hflips.trans (perm_sortedFlips cs').symm)
  · refine placed_eq hg hg' hmembers ?_
    exact ByteRange.eq_of_ends hlo hhi

/-- The merge is exact, and the order of the input shows only in which of several records with one
start lends its identity and its evidence. -/
theorem mergeAdjacent_exact (percent : ℚ → String) {cs : List Corruption}
    (hcs : RangesOrdered cs) :
    ∃ out, mergeAdjacent percent cs = .ok out ∧ MergedExactly cs out ∧
      ∀ cs', cs.Perm cs' → ∃ out', mergeAdjacent percent cs' = .ok out' ∧
        (bitflips out).map (·.val.placed) = (bitflips out').map (·.val.placed) ∧
        ((∀ start, startingAt start cs = startingAt start cs') →
          bitflips out = bitflips out') := by
  refine ⟨_, mergeAdjacent_eq hcs, mergedExactly hcs, fun cs' hperm ↦ ?_⟩
  have hcs' : RangesOrdered cs' := fun c hc ↦ hcs c (hperm.mem_iff.mpr hc)
  refine ⟨_, mergeAdjacent_eq hcs', ?_, fun hties ↦ ?_⟩
  · rw [bitflips_result, bitflips_result]
    exact placed_run_eq hcs hcs' hperm
  · rw [bitflips_result, bitflips_result]
    have hsorted : sortedFlips cs = sortedFlips cs' := StableSort.sortByKey_eq hties
    rw [hsorted]

end Merged

/-- A bit flip of one byte range, found by the rule for flips. -/
def flipAt (id start stop : ℕ) : Corruption where
  id := id
  location := ⟨none, start, stop⟩
  category := .bitFlip
  severity := .minor
  description := ""
  byteRange := some ⟨start, stop⟩
  chain := ⟨⟨start, none, [], "payload.bits", "Flipped bit(s)", 1, "GEN_FLIP_001",
    .checksumMismatch⟩, [], 1⟩

def hundred : ℚ → String := fun _ ↦ "100"

theorem flips_ordered : RangesOrdered [flipAt 1 4 8, flipAt 2 0 4] := by
  simp [RangesOrdered, flipAt, ByteRange.Ordered]

theorem touchingFlips_exact :
    ∃ out, mergeAdjacent hundred [flipAt 1 4 8, flipAt 2 0 4] = .ok out ∧
      MergedExactly [flipAt 1 4 8, flipAt 2 0 4] out ∧
      ∀ cs', [flipAt 1 4 8, flipAt 2 0 4].Perm cs' → ∃ out', mergeAdjacent hundred cs' = .ok out' ∧
        (bitflips out).map (·.val.placed) = (bitflips out').map (·.val.placed) ∧
        ((∀ start, startingAt start [flipAt 1 4 8, flipAt 2 0 4] = startingAt start cs') →
          bitflips out = bitflips out') :=
  mergeAdjacent_exact hundred flips_ordered

/-- Everything of a record but its description. -/
def Corruption.withoutDescription (c : Corruption) : Corruption := { c with description := "" }

theorem twinFlips_merged (id id' : ℕ) : ∃ out,
    mergeAdjacent hundred [flipAt id 0 4, flipAt id' 0 4] = .ok out ∧
      (bitflips out).map (·.val.withoutDescription) = [flipAt id 0 4] := by
  have hordered : RangesOrdered [flipAt id 0 4, flipAt id' 0 4] := by
    simp [RangesOrdered, flipAt, ByteRange.Ordered]
  have hsorted : sortedFlips [flipAt id 0 4, flipAt id' 0 4] =
      bitflips [flipAt id 0 4, flipAt id' 0 4] :=
    StableSort.sortByKey_of_pairwise (List.pairwise_pair.mpr le_rfl)
  refine ⟨_, mergeAdjacent_eq hordered, ?_⟩
  rw [bitflips_result, hsorted]
  rfl

/-- Two flips of the same bytes: the one that comes first lends the merged record its identity. -/
theorem twinFlips_order : [flipAt 1 0 4, flipAt 2 0 4].Perm [flipAt 2 0 4, flipAt 1 0 4] ∧
    ∃ out out', mergeAdjacent hundred [flipAt 1 0 4, flipAt 2 0 4] = .ok out ∧
      mergeAdjacent hundred [flipAt 2 0 4, flipAt 1 0 4] = .ok out' ∧
      (bitflips out).map (·.val.withoutDescription) ≠
        (bitflips out').map (·.val.withoutDescription) := by
  obtain ⟨out, hrun, hout⟩ := twinFlips_merged 1 2
  obtain ⟨out', hrun', hout'⟩ := twinFlips_merged 2 1
  refine ⟨List.Perm.swap _ _ _, out, out', hrun, hrun', ?_⟩
  rw [hout, hout']
  decide

end VeraqisRecover.Analyze
