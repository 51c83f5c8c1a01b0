import VeraqisRecover.Rar.Inventory

/-!
# The walk along the block chain

Where the loop goes depends on the file alone, so the positions it visits can
be listed without the inventory.  The run lemma says what is in the inventory
at the end: what each visited block enters, in order.
-/

namespace VeraqisRecover.Rar

open ByteString LossyUtf8 Reader

/-! ## What one block enters -/

namespace Block

/-- The entry of a file block. -/
def entry (b : Block) (file : Bytes) : Option FileEntry :=
  if b.fields.htype = tFile then
    (parseFileHeader file b.cursor b.bodyEnd).map fun e ↦
      { e with dataOffset := b.bodyEnd, packedSize := b.fields.dataSize }
  else none

/-- The archive flags of a main block. -/
def arcFlags (b : Block) (file : Bytes) : Option ℕ :=
  if b.fields.htype = tMain then (vint file b.cursor).map Prod.fst else none

/-- The name of a service block. -/
def service (b : Block) (file : Bytes) : Option Text :=
  if b.fields.htype = tService then
    (parseFileHeader file b.cursor b.bodyEnd).map FileEntry.name
  else none

def setsRecovery (b : Block) (file : Bytes) : Bool :=
  (b.arcFlags file).any (· &&& arcRecoveryRecord != 0) || b.service file == some recoveryName

def setsVolume (b : Block) (file : Bytes) : Bool := (b.arcFlags file).any (· &&& arcVolume != 0)

def setsEnd (b : Block) : Bool := b.fields.htype == tEndarc

end Block

/-- The parts of the inventory that come out of headers. -/
structure Facts where
  files : List FileEntry
  hasEnd : Bool
  hasRecoveryRecord : Bool
  isVolume : Bool

namespace Facts

def none : Facts := ⟨[], false, false, false⟩

def join (f g : Facts) : Facts where
  files := f.files ++ g.files
  hasEnd := f.hasEnd || g.hasEnd
  hasRecoveryRecord := f.hasRecoveryRecord || g.hasRecoveryRecord
  isVolume := f.isVolume || g.isVolume

theorem join_none (f : Facts) : f.join none = f := by
  cases f
  simp [join, none]

theorem none_join (f : Facts) : none.join f = f := by
  cases f
  simp [join, none]

theorem join_assoc (f g h : Facts) : (f.join g).join h = f.join (g.join h) := by
  simp only [join, List.append_assoc, Bool.or_assoc]

end Facts

def Inventory.facts (inv : Inventory) : Facts :=
  ⟨inv.files, inv.hasEnd, inv.hasRecoveryRecord, inv.isVolume⟩

@[simp] theorem Inventory.facts_cut (inv : Inventory) : inv.cut.facts = inv.facts := rfl

theorem Inventory.facts_close (inv : Inventory) : inv.close.facts = inv.facts := by
  rw [Inventory.close]
  split
  · rfl
  · rfl

/-- What a block proves if its header checks out. -/
def Block.facts (b : Block) (file : Bytes) : Facts where
  files := (b.entry file).toList
  hasEnd := b.setsEnd
  hasRecoveryRecord := b.setsRecovery file
  isVolume := b.setsVolume file

namespace Block

variable {b : Block} {file : Bytes}

theorem facts_of_main (h : b.fields.htype = tMain) :
    b.facts file = match vint file b.cursor with
      | some (arcFlags, _) =>
          ⟨[], false, arcFlags &&& arcRecoveryRecord != 0, arcFlags &&& arcVolume != 0⟩
      | none => Facts.none := by
  cases hflags : vint file b.cursor with
  | none => simp [facts, entry, arcFlags, service, setsRecovery, setsVolume, setsEnd, h, hflags,
      tMain, tFile, tService, tEndarc, Facts.none]
  | some x => simp [facts, entry, arcFlags, service, setsRecovery, setsVolume, setsEnd, h, hflags,
      tMain, tFile, tService, tEndarc]

theorem facts_of_file (h : b.fields.htype = tFile) :
    b.facts file = ⟨(b.entry file).toList, false, false, false⟩ := by
  simp [facts, arcFlags, service, setsRecovery, setsVolume, setsEnd, h, tMain, tFile, tService,
    tEndarc]

theorem facts_of_service (h : b.fields.htype = tService) :
    b.facts file = ⟨[], false, b.service file == some recoveryName, false⟩ := by
  simp [facts, entry, arcFlags, setsRecovery, setsVolume, setsEnd, h, tMain, tFile, tService,
    tEndarc]

theorem facts_of_other (hm : b.fields.htype ≠ tMain) (hf : b.fields.htype ≠ tFile)
    (hs : b.fields.htype ≠ tService) : b.facts file = ⟨[], b.setsEnd, false, false⟩ := by
  simp [facts, entry, arcFlags, service, setsRecovery, setsVolume, hm, hf, hs]

end Block

theorem facts_enter (inv : Inventory) (file : Bytes) (b : Block) :
    (inv.enter file b).facts = inv.facts.join (b.facts file) := by
  rw [Inventory.enter]
  by_cases hm : b.fields.htype = tMain
  · rw [if_pos hm, Block.facts_of_main hm]
    cases vint file b.cursor with
    | none => exact (Facts.join_none _).symm
    | some x => simp [Inventory.facts, Facts.join]
  rw [if_neg hm]
  by_cases hf : b.fields.htype = tFile
  · rw [if_pos hf, Block.facts_of_file hf, Block.entry, if_pos hf]
    cases parseFileHeader file b.cursor b.bodyEnd with
    | none => exact (Facts.join_none _).symm
    | some e => simp [Inventory.facts, Facts.join]
  rw [if_neg hf]
  by_cases hs : b.fields.htype = tService
  · rw [if_pos hs, Block.facts_of_service hs, Block.service, if_pos hs]
    cases parseFileHeader file b.cursor b.bodyEnd with
    | none => exact (Facts.join_none _).symm
    | some e =>
        by_cases hname : e.name = recoveryName
        · simp [Inventory.facts, Facts.join, hname]
        · simp [Inventory.facts, Facts.join, hname]
  rw [if_neg hs, Block.facts_of_other hm hf hs, Block.setsEnd]
  by_cases he : b.fields.htype = tEndarc
  · simp [Inventory.facts, Facts.join, he]
  · simp [Inventory.facts, Facts.join, he]

/-! ## The positions -/

/-- The next block's start, unless the loop ends here. -/
def hop (file : Bytes) (p : ℕ) : Option ℕ :=
  match readBlock file p with
  | some (some b) => if b.crcOk ∧ b.fields.htype = tEndarc then none else b.next file
  | _ => none

/-- The block starts of at most `n` turns. -/
def visited (file : Bytes) : ℕ → ℕ → List ℕ
  | 0, _ => []
  | n + 1, p =>
      if file.length < p + 5 then []
      else
        p :: match hop file p with
          | none => []
          | some next => visited file n next

/-- What the turn at a position proves. -/
def factsAt (file : Bytes) (p : ℕ) : Facts :=
  match readBlock file p with
  | some (some b) => if b.crcOk then b.facts file else Facts.none
  | _ => Facts.none

def factsOf (file : Bytes) (ps : List ℕ) : Facts :=
  ps.foldr (fun p f ↦ (factsAt file p).join f) Facts.none

theorem turn_spec (file : Bytes) (p : ℕ) (inv : Inventory) :
    (readBlock file p = none ∧ turn file p inv = none) ∨
      ∃ out, readBlock file p ≠ none ∧ turn file p inv = some (out, hop file p) ∧
        out.facts = inv.facts.join (factsAt file p) := by
  rw [turn, hop, factsAt]
  cases hread : readBlock file p with
  | none => exact Or.inl ⟨rfl, rfl⟩
  | some read =>
      right
      cases read with
      | none => exact ⟨inv.cut, by simp, rfl, (Facts.join_none _).symm⟩
      | some b =>
          have hrecord : (inv.record file b).facts =
              inv.facts.join (if b.crcOk then b.facts file else Facts.none) := by
            rw [Inventory.record]
            split
            · exact facts_enter inv file b
            · exact (Facts.join_none _).symm
          cases hnext : b.next file with
          | none => exact ⟨(inv.record file b).cut, by simp, by simp [hnext], hrecord⟩
          | some next => exact ⟨inv.record file b, by simp, by simp [hnext], hrecord⟩

theorem walk_spec (file : Bytes) (n p : ℕ) (inv : Inventory) :
    (walk file n p inv = none ↔ ∃ q ∈ visited file n p, readBlock file q = none) ∧
      ∀ out, walk file n p inv = some out →
        out.facts = inv.facts.join (factsOf file (visited file n p)) := by
  induction n generalizing p inv with
  | zero =>
      refine ⟨by simp [walk, visited], ?_⟩
      intro out hout
      cases hout
      exact (Facts.join_none _).symm
  | succ n ih =>
      rw [walk, visited]
      by_cases hend : file.length < p + 5
      · rw [if_pos hend, if_pos hend]
        refine ⟨by simp, ?_⟩
        intro out hout
        cases hout
        exact (Facts.join_none _).symm
      · rw [if_neg hend, if_neg hend]
        rcases turn_spec file p inv with ⟨hnone, hturn⟩ | ⟨mid, hread, hturn, hfacts⟩
        · rw [hturn]
          exact ⟨⟨fun _ ↦ ⟨p, List.mem_cons_self, hnone⟩, fun _ ↦ rfl⟩, by simp⟩
        · rw [hturn]
          cases hhop : hop file p with
          | none =>
              refine ⟨by simp [hread], ?_⟩
              intro out hout
              cases hout
              rw [hfacts, factsOf, List.foldr_cons, List.foldr_nil, Facts.join_none]
          | some next =>
              obtain ⟨hnone, hsome⟩ := ih next mid
              refine ⟨?_, ?_⟩
              · rw [List.exists_mem_cons_iff]
                simp only [hread, false_or]
                exact hnone
              · intro out hout
                rw [hsome out hout, hfacts]
                exact Facts.join_assoc _ _ _

/-! ## Whole runs -/

/-- The positions that the parse of a file with the signature visits. -/
def blockStarts (file : Bytes) : List ℕ := visited file maxTurns 8

def HasSignature (file : Bytes) : Prop := file.take 8 = signature5

instance (file : Bytes) : Decidable (HasSignature file) :=
  inferInstanceAs (Decidable (file.take 8 = signature5))

theorem HasSignature.length_le {file : Bytes} (h : HasSignature file) : 8 ≤ file.length := by
  have hlen := congrArg List.length h
  rw [List.length_take] at hlen
  exact min_eq_left_iff.mp hlen

theorem readInventory_eq {file : Bytes} (h : HasSignature file) :
    readInventory file = (walk file maxTurns 8 Inventory.empty).map Inventory.close := by
  have hlen := h.length_le
  rw [readInventory, if_neg (by rw [h]; simp [hlen])]
  cases walk file maxTurns 8 Inventory.empty with
  | none => rfl
  | some inv => rfl

theorem readInventory_eq_none {file : Bytes} (h : HasSignature file) :
    readInventory file = none ↔ ∃ p ∈ blockStarts file, readBlock file p = none := by
  rw [readInventory_eq h, Option.map_eq_none_iff]
  exact (walk_spec file maxTurns 8 Inventory.empty).1

/-- The inventory holds what the visited blocks prove, and nothing else. -/
theorem readInventory_facts {file : Bytes} {inv : Inventory} (h : readInventory file = some inv) :
    inv.facts = factsOf file (blockStarts file) := by
  have hsig : HasSignature file := by
    by_contra hno
    have hother : file.take 8 ≠ signature5 := hno
    rw [readInventory, if_pos (Or.inr hother)] at h
    cases h
  rw [readInventory_eq hsig] at h
  obtain ⟨out, hout, rfl⟩ := Option.map_eq_some_iff.mp h
  rw [Inventory.facts_close, (walk_spec file maxTurns 8 Inventory.empty).2 out hout]
  exact Facts.none_join _

theorem files_factsOf (file : Bytes) (ps : List ℕ) :
    (factsOf file ps).files = ps.flatMap fun p ↦ (factsAt file p).files := by
  induction ps with
  | nil => rfl
  | cons p ps ih => rw [factsOf, List.foldr_cons, List.flatMap_cons, ← ih]; rfl

theorem mem_files_iff {file : Bytes} {inv : Inventory} (h : readInventory file = some inv)
    {e : FileEntry} :
    e ∈ inv.files ↔ ∃ p ∈ blockStarts file, e ∈ (factsAt file p).files := by
  have hfiles : inv.files = (factsOf file (blockStarts file)).files :=
    congrArg Facts.files (readInventory_facts h)
  rw [hfiles, files_factsOf, List.mem_flatMap]

end VeraqisRecover.Rar
