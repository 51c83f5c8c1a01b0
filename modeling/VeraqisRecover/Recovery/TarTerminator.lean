import VeraqisRecover.Recovery.Engine
import VeraqisRecover.Tar.Append
import VeraqisRecover.Tar.Build

/-!
# Appending the TAR terminator

`TarTerminatorAppend` of `tar_repair.rs` writes two blocks of zeros after the
source, wherever the source ends.  The zeros are also read as the missing data
of a truncated last member, and they close the archive only when the source
ends on a block boundary.
-/

namespace VeraqisRecover.Recovery

open ByteString VeraqisRecover.Tar

namespace TarTerminatorAppend

def name : String := "tar-terminator-append"

def handles (c : Corruption) : Bool := c.ruleId = "TAR_TERM_001"

def canApply (result : AnalysisResult) : Bool :=
  result.archiveFormat = some .tar && result.corruptions.any fun c ↦
    c.ruleId = "TAR_TERM_001" || c.category = .truncation

/-- The archive already ends with a terminator. -/
def alreadyTerminated (data : Bytes) : Bool :=
  1024 ≤ data.length && (data.drop (data.length - 1024)).all (· = 0)

def apply (source : Bytes) : Except RecoveryError (Bytes × RecoveryReport) :=
  let report := { RecoveryReport.empty "" with strategiesApplied := [name] }
  if alreadyTerminated source then
    .ok (source, { report with
      bytesRecovered := source.length
      success := true
      warnings := ["archive already has a terminator; copied verbatim"] })
  else
    .ok (source ++ List.replicate 1024 0, { report with
      bytesRecovered := source.length + 1024
      success := true
      warnings := ["appended 2×512 end-of-archive terminator blocks"] })

end TarTerminatorAppend

/-- Append the end-of-archive terminator when it is missing. -/
def tarTerminatorAppend : RecoveryStrategy where
  name := TarTerminatorAppend.name
  technique := "TerminatorAppend"
  risk := .safe
  priority := 88
  handles := TarTerminatorAppend.handles
  canApply := TarTerminatorAppend.canApply
  predictedOutcome := fun _ ↦ "append two 512-byte zero blocks (end-of-archive terminator)"
  apply := TarTerminatorAppend.apply

theorem tarTerminatorAppend_reportsItself : tarTerminatorAppend.ReportsItself := by
  intro source staged report hrun
  simp only [tarTerminatorAppend, TarTerminatorAppend.apply] at hrun
  split at hrun
  · obtain ⟨-, rfl⟩ := Prod.mk.inj (Except.ok.inj hrun)
    exact ⟨rfl, rfl⟩
  · obtain ⟨-, rfl⟩ := Prod.mk.inj (Except.ok.inj hrun)
    exact ⟨rfl, rfl⟩

/-- Names and data of the members a salvage verifies. -/
def verifiedMembers (data : Bytes) : List (Option Text × Bytes) :=
  ((salvageTar data).segments.filter (·.verified)).map fun s ↦ (s.name, s.bytes)

/-- The output ends in at least two zero blocks that stand on block boundaries. -/
def EndsInZeroBlocks (output : Bytes) : Prop :=
  ∃ body j, output = body ++ List.replicate (j * block) 0 ∧ 2 ≤ j ∧ block ∣ body.length

/-- The repair neither invents nor loses a member, and terminates the archive. -/
structure AppendsTerminator (source output : Bytes) : Prop where
  members : verifiedMembers output = verifiedMembers source
  terminator : EndsInZeroBlocks output

/-! ## The walk over a source and over the source with zeros appended -/

/-- The walk goes on from `p` at `q`. -/
def Goes (data : Bytes) (p q : ℕ) : Prop := p + block ≤ data.length ∧ q = nextPos data p

/-- At `q` stands a trusted header whose data runs past the end by at most `n` bytes. -/
def PadsMember (n : ℕ) (data : Bytes) (q : ℕ) : Prop :=
  q + block ≤ data.length ∧ headerAt data q = true ∧ data.length < declaredEnd data q ∧
    declaredEnd data q ≤ data.length + n

/-- From `p` the walk comes to a truncated member that `n` zeros would complete. -/
def ReachesPaddedMember (n : ℕ) (data : Bytes) (p : ℕ) : Prop :=
  ∃ q, Relation.ReflTransGen (Goes data) p q ∧ PadsMember n data q

theorem reachesPaddedMember_iff {n : ℕ} {data : Bytes} {p : ℕ} :
    ReachesPaddedMember n data p ↔ PadsMember n data p ∨
      p + block ≤ data.length ∧ ReachesPaddedMember n data (nextPos data p) := by
  constructor
  · rintro ⟨q, hreach, hpads⟩
    rcases Relation.ReflTransGen.cases_head hreach with rfl | ⟨r, ⟨hroom, rfl⟩, hrest⟩
    · exact .inl hpads
    · exact .inr ⟨hroom, q, hrest, hpads⟩
  · rintro (hpads | ⟨hroom, q, hrest, hpads⟩)
    · exact ⟨p, .refl, hpads⟩
    · exact ⟨q, .head ⟨hroom, rfl⟩ hrest, hpads⟩

def memberOf (s : Segment) : Option Text × Bytes := (s.name, s.bytes)

def membersAt (data : Bytes) (pos : ℕ) : List (Option Text × Bytes) :=
  (segmentsAt data pos).map memberOf

theorem verifiedMembers_eq (data : Bytes) : verifiedMembers data = membersAt data 0 := by
  unfold verifiedMembers
  rw [salvageTar_segments, List.filter_eq_self.mpr verified_of_mem_segmentsAt]
  rfl

/-- Past the source there are only zeros, and no member. -/
theorem membersAt_zeros (data : Bytes) (n pos : ℕ) (h : data.length ≤ pos) :
    membersAt (data ++ List.replicate n 0) pos = [] := by
  rw [membersAt, segmentsAt_zeros data n h]
  rfl

section Append

variable {n : ℕ} {data : Bytes} {pos : ℕ}

/-- Whole blocks after a block boundary leave no room for a partial one. -/
theorem padded_le {size : ℕ} (hn : block ∣ n) (hpos : block ∣ pos) (h : pos + block + size ≤ n) :
    pos + block + paddedSize size ≤ n := by
  unfold paddedSize divCeil block at *
  omega

theorem block_dvd_nextPos (hdata : block ∣ data.length) (hpos : block ∣ pos) :
    block ∣ nextPos data pos := by
  unfold nextPos
  split
  · split
    · exact (hpos.add (dvd_refl block)).add (Dvd.intro_left _ rfl)
    · exact hdata
  · exact hpos.add (dvd_refl block)

theorem nextPos_le (hdata : block ∣ data.length) (hpos : block ∣ pos)
    (h : pos + block ≤ data.length) : nextPos data pos ≤ data.length := by
  unfold nextPos
  split
  · split
    · rename_i hend
      exact padded_le hdata hpos hend
    · exact le_rfl
  · exact h

theorem memberOf_append (rest : Bytes) (h : pos + block ≤ data.length)
    (hend : declaredEnd data pos ≤ data.length) :
    memberOf (memberSegment (data ++ rest) pos) = memberOf (memberSegment data pos) := by
  unfold memberOf memberSegment
  dsimp only
  rw [field_append_left rest h]
  exact congrArg (Prod.mk _) (field_append_left rest hend)

theorem membersAt_step (h : pos + block ≤ data.length) :
    membersAt data pos =
      (memberAt data pos).map memberOf ++ membersAt data (nextPos data pos) := by
  rw [membersAt, segmentsAt_step h, List.map_append]
  rfl

theorem membersAt_end (h : ¬ pos + block ≤ data.length) : membersAt data pos = [] := by
  rw [membersAt, segmentsAt_end h]
  rfl

theorem not_room_of_end {p : ℕ} (h : data.length ≤ p) : ¬ p + block ≤ data.length := by
  unfold block
  omega

theorem not_reaches_of_not_room (h : ¬ pos + block ≤ data.length) :
    ¬ ReachesPaddedMember n data pos := by
  rw [reachesPaddedMember_iff]
  rintro (hpads | ⟨hroom, -⟩)
  · exact h hpads.1
  · exact h hroom

/-- A truncated member: the walk over the source ends there, and the zeros complete it or not. -/
theorem membersAt_append_truncated (h : pos + block ≤ data.length)
    (hheader : headerAt data pos = true) (hend : data.length < declaredEnd data pos) :
    membersAt (data ++ List.replicate n 0) pos = membersAt data pos ↔
      ¬ ReachesPaddedMember n data pos := by
  have hroom : pos + block ≤ (data ++ List.replicate n (0 : UInt8)).length := by
    rw [List.length_append]
    omega
  have hstop : membersAt data pos = [] := by
    rw [membersAt_step h, memberAt, if_neg (by rintro ⟨-, hle⟩; omega), nextPos, if_pos hheader,
      if_neg (by omega), membersAt_end (not_room_of_end le_rfl)]
    rfl
  have hlater : ¬ ReachesPaddedMember n data (nextPos data pos) := by
    rw [nextPos, if_pos hheader, if_neg (by omega)]
    exact not_reaches_of_not_room (not_room_of_end le_rfl)
  have hlen : (data ++ List.replicate n (0 : UInt8)).length = data.length + n := by
    rw [List.length_append, List.length_replicate]
  rw [hstop, membersAt_step hroom, memberAt, headerAt_append _ h, declaredEnd_append _ h, hlen,
    reachesPaddedMember_iff]
  by_cases hpad : declaredEnd data pos ≤ data.length + n
  · rw [if_pos ⟨hheader, hpad⟩]
    simp [PadsMember, h, hheader, hend, hpad]
  · rw [if_neg (by rintro ⟨-, hle⟩; omega), nextPos, headerAt_append _ h, if_pos hheader,
      declaredEnd_append _ h, hlen, if_neg hpad,
      membersAt_end (not_room_of_end hlen.le)]
    simp [PadsMember, hpad, hlater]

/-- On block boundaries the zeros add a member exactly where they complete a truncated one. -/
theorem membersAt_append_iff (hdata : block ∣ data.length) :
    ∀ pos, block ∣ pos → pos ≤ data.length →
      (membersAt (data ++ List.replicate n 0) pos = membersAt data pos ↔
        ¬ ReachesPaddedMember n data pos) := by
  have hall : ∀ k pos, data.length - pos ≤ k → block ∣ pos → pos ≤ data.length →
      (membersAt (data ++ List.replicate n 0) pos = membersAt data pos ↔
        ¬ ReachesPaddedMember n data pos) := by
    intro k
    induction k with
    | zero =>
        intro pos hk _ hle
        have hend : data.length ≤ pos := by omega
        rw [membersAt_zeros data n pos hend, membersAt_end (not_room_of_end hend)]
        simpa using not_reaches_of_not_room (not_room_of_end hend)
    | succ k ih =>
        intro pos hk hpos hle
        by_cases hroom : pos + block ≤ data.length
        · have hroom' : pos + block ≤ (data ++ List.replicate n (0 : UInt8)).length := by
            rw [List.length_append]
            omega
          have hlt := lt_nextPos hroom
          have hrest := ih (nextPos data pos) (by omega) (block_dvd_nextPos hdata hpos)
            (nextPos_le hdata hpos hroom)
          -- the same step on both when nothing is truncated here
          have hsame : (headerAt data pos = true → declaredEnd data pos ≤ data.length) →
              (membersAt (data ++ List.replicate n 0) pos = membersAt data pos ↔
                ¬ ReachesPaddedMember n data pos) := by
            intro hend
            have hnext : nextPos (data ++ List.replicate n 0) pos = nextPos data pos := by
              unfold nextPos
              rw [headerAt_append _ hroom, declaredEnd_append _ hroom, field_append_left _ hroom]
              split
              · rename_i hheader
                rw [if_pos (hend hheader), if_pos (by
                  rw [List.length_append]; exact (hend hheader).trans (Nat.le_add_right _ _))]
              · rfl
            have hmember : (memberAt (data ++ List.replicate n 0) pos).map memberOf =
                (memberAt data pos).map memberOf := by
              unfold memberAt
              rw [headerAt_append _ hroom, declaredEnd_append _ hroom]
              by_cases hheader : headerAt data pos = true
              · rw [if_pos ⟨hheader, by
                  rw [List.length_append]; exact (hend hheader).trans (Nat.le_add_right _ _)⟩,
                  if_pos ⟨hheader, hend hheader⟩]
                simp [memberOf_append _ hroom (hend hheader)]
              · rw [if_neg (by simp [hheader]), if_neg (by simp [hheader])]
            have hpads : ¬ PadsMember n data pos := by
              rintro ⟨-, hheader, hlong, -⟩
              have := hend hheader
              omega
            rw [membersAt_step hroom, membersAt_step hroom', hmember, hnext,
              List.append_cancel_left_eq, reachesPaddedMember_iff]
            simpa [hpads, hroom] using hrest
          cases hheader : headerAt data pos with
          | false => exact hsame (by simp [hheader])
          | true =>
              by_cases hend : declaredEnd data pos ≤ data.length
              · exact hsame fun _ ↦ hend
              · exact membersAt_append_truncated hroom hheader (by omega)
        · have hend : data.length ≤ pos := by
            unfold block at *
            omega
          rw [membersAt_zeros data n pos hend, membersAt_end hroom]
          simpa using not_reaches_of_not_room hroom
  exact fun pos ↦ hall _ pos le_rfl

end Append

/-! ## The terminator -/

theorem endsInZeroBlocks_append_iff (source : Bytes) :
    EndsInZeroBlocks (source ++ List.replicate 1024 0) ↔ block ∣ source.length := by
  constructor
  · rintro ⟨body, j, heq, -, hbody⟩
    have hlen := congrArg List.length heq
    simp only [List.length_append, List.length_replicate] at hlen
    unfold block at *
    omega
  · intro h
    exact ⟨source, 2, congrArg (source ++ List.replicate · 0) (show 1024 = 2 * block from rfl),
      le_rfl, h⟩

theorem endsInZeroBlocks_terminated_iff {source : Bytes}
    (h : TarTerminatorAppend.alreadyTerminated source = true) :
    EndsInZeroBlocks source ↔ block ∣ source.length := by
  simp only [TarTerminatorAppend.alreadyTerminated, Bool.and_eq_true, decide_eq_true_eq,
    List.all_eq_true] at h
  obtain ⟨hlen, hzeros⟩ := h
  have hsplit : source = source.take (source.length - 1024) ++ List.replicate 1024 0 := by
    have hdrop : source.drop (source.length - 1024) = List.replicate 1024 0 :=
      List.eq_replicate_iff.mpr ⟨by rw [List.length_drop]; omega, hzeros⟩
    rw [← hdrop, List.take_append_drop]
  rw [hsplit, endsInZeroBlocks_append_iff, List.length_append, List.length_replicate]
  exact (Nat.dvd_add_left (by decide)).symm

theorem apply_terminated {source : Bytes}
    (h : TarTerminatorAppend.alreadyTerminated source = true) :
    ∃ report, tarTerminatorAppend.apply source = .ok (source, report) :=
  ⟨_, if_pos h⟩

theorem apply_open {source : Bytes}
    (h : ¬ TarTerminatorAppend.alreadyTerminated source = true) :
    ∃ report, tarTerminatorAppend.apply source =
      .ok (source ++ List.replicate 1024 0, report) :=
  ⟨_, if_neg h⟩

/-- The repair does what it says exactly on sources that end on a block boundary and either carry
their terminator or hold no truncated member the zeros would complete. -/
theorem tarTerminatorAppend_iff (source : Bytes) :
    ∃ output report, tarTerminatorAppend.apply source = .ok (output, report) ∧
      (AppendsTerminator source output ↔ block ∣ source.length ∧
        (TarTerminatorAppend.alreadyTerminated source = true ∨
          ¬ ReachesPaddedMember 1024 source 0)) := by
  by_cases h : TarTerminatorAppend.alreadyTerminated source = true
  · obtain ⟨report, hrun⟩ := apply_terminated h
    refine ⟨_, report, hrun, ?_⟩
    constructor
    · rintro ⟨-, hzeros⟩
      exact ⟨(endsInZeroBlocks_terminated_iff h).mp hzeros, .inl h⟩
    · rintro ⟨hblock, -⟩
      exact ⟨rfl, (endsInZeroBlocks_terminated_iff h).mpr hblock⟩
  · obtain ⟨report, hrun⟩ := apply_open h
    refine ⟨_, report, hrun, ?_⟩
    constructor
    · rintro ⟨hmembers, hzeros⟩
      have hblock := (endsInZeroBlocks_append_iff source).mp hzeros
      rw [verifiedMembers_eq, verifiedMembers_eq] at hmembers
      exact ⟨hblock, .inr ((membersAt_append_iff hblock 0 (dvd_zero _) (Nat.zero_le _)).mp
        hmembers)⟩
    · rintro ⟨hblock, hnone⟩
      refine ⟨?_, (endsInZeroBlocks_append_iff source).mpr hblock⟩
      rw [verifiedMembers_eq, verifiedMembers_eq]
      exact (membersAt_append_iff hblock 0 (dvd_zero _) (Nat.zero_le _)).mpr
        (hnone.resolve_left h)

/-- A member of 600 bytes whose second data block is gone. -/
def truncatedMember : Bytes := (tarMember ['a'] (List.replicate 600 0x61)).take 1024

theorem truncatedMember_invented :
    ∃ output report, tarTerminatorAppend.apply truncatedMember = .ok (output, report) ∧
      ¬ AppendsTerminator truncatedMember output := by
  have hopen : ¬ TarTerminatorAppend.alreadyTerminated truncatedMember = true := by
    decide +kernel
  obtain ⟨report, hrun⟩ := apply_open hopen
  refine ⟨_, report, hrun, fun hdone ↦ ?_⟩
  have hnone : (verifiedMembers truncatedMember).length = 0 := by decide +kernel
  have hone : (verifiedMembers (truncatedMember ++ List.replicate 1024 0)).length = 1 := by
    decide +kernel
  rw [hdone.members, hnone] at hone
  exact absurd hone (by decide)

end VeraqisRecover.Recovery
