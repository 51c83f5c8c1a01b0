import VeraqisRecover.Zip.Policy

/-!
# Piecewise offset mapping

From a directory's stored offsets to physical reality (`zip_offset_map.rs`).
Deltas are observed, segments are runs of equal delta in stored order, and an
over-complicated or contradictory map is not offered at all.
-/

namespace VeraqisRecover.Zip

/-- `x as i64`, wrapping at 64 bits. -/
def wrapI64 (x : ℤ) : ℤ := x.bmod (2 ^ 64)

def checkedAddI64 (a b : ℤ) : Option ℤ :=
  if -2 ^ 63 ≤ a + b ∧ a + b < 2 ^ 63 then some (a + b) else none

/-- The largest 64-bit offset; in a directory record it marks a header removed by truncation. -/
def offsetMax : ℕ := 2 ^ 64 - 1

/-- One contiguous run of stored offsets that all moved by the same amount. -/
structure OffsetSegment where
  originalStart : ℕ
  originalEnd : ℕ
  delta : ℤ
  support : ℕ
  deriving DecidableEq, Repr

namespace OffsetSegment

def contains (s : OffsetSegment) (stored : ℕ) : Bool :=
  s.originalStart ≤ stored && stored ≤ s.originalEnd

/-- Apply this segment's shift; absent when the result would be negative or overflow. -/
def apply (s : OffsetSegment) (stored : ℕ) : Option ℕ := do
  let v ← checkedAddI64 (wrapI64 stored) s.delta
  if v < 0 then none else some v.toNat

end OffsetSegment

inductive OffsetMapKind
  | empty
  | singleDelta
  | piecewise
  | rejected
  deriving DecidableEq, Repr

/-- An observed stored offset with the physical offset it was matched to. -/
structure OffsetObservation where
  stored : ℕ
  physical : ℕ
  deriving DecidableEq, Repr

structure OffsetMap where
  kind : OffsetMapKind
  segments : List OffsetSegment
  discarded : ℕ
  deriving DecidableEq, Repr

namespace OffsetMap

def empty : OffsetMap := ⟨.empty, [], 0⟩

def isUsable (m : OffsetMap) : Bool :=
  m.kind = .singleDelta || m.kind = .piecewise

/-- Translate a stored offset through the first segment that covers it. -/
def map (m : OffsetMap) (stored : ℕ) : Option ℕ :=
  if m.isUsable then (m.segments.find? (·.contains stored)).bind (·.apply stored) else none

/-- Keep an observation unless it would place a later record physically before an earlier one. -/
def keepMonotone (acc : List OffsetObservation × ℕ) (o : OffsetObservation) :
    List OffsetObservation × ℕ :=
  match acc.1.getLast? with
  | some prev => if o.physical ≤ prev.physical then (acc.1, acc.2 + 1) else (acc.1 ++ [o], acc.2)
  | none => (acc.1 ++ [o], acc.2)

def deltaOf (o : OffsetObservation) : ℤ := wrapI64 (wrapI64 o.physical - wrapI64 o.stored)

/-- Extend the last segment by an observation of the same delta, or open a new one. -/
def extendSegments (segments : List OffsetSegment) (o : OffsetObservation) :
    List OffsetSegment :=
  let fresh : OffsetSegment := ⟨o.stored, o.stored, deltaOf o, 1⟩
  match segments.getLast? with
  | some seg =>
      if seg.delta = deltaOf o then
        segments.dropLast ++ [{ seg with originalEnd := o.stored, support := seg.support + 1 }]
      else segments ++ [fresh]
  | none => [fresh]

/-- Infer a map from observations; `maxSegments` caps the edit history it may describe. -/
def infer (observations : List OffsetObservation) (maxSegments : ℕ) : OffsetMap :=
  if observations = [] ∨ maxSegments = 0 then empty
  else
    let sorted := observations.insertionSort (·.stored ≤ ·.stored)
    let (kept, discarded) := (sorted.destutter (·.stored ≠ ·.stored)).foldl keepMonotone ([], 0)
    if kept = [] then ⟨.rejected, [], discarded⟩
    else
      let runs := kept.foldl extendSegments []
      if maxSegments < runs.length then ⟨.rejected, [], discarded⟩
      else
        let widened := (runs.modifyHead fun s ↦ { s with originalStart := 0 }).modifyLast
          fun s ↦ { s with originalEnd := offsetMax }
        ⟨if widened.length = 1 then .singleDelta else .piecewise, widened, discarded⟩

end OffsetMap

end VeraqisRecover.Zip
