import VeraqisRecover.Recovery.TarTerminator
import VeraqisRecover.Tar.Whole

/-!
# Re-emitting the members of a damaged TAR

`TarContinuationSalvage` splices the verified members' own bytes, fills the
last one up to a whole block and appends a terminator.  Every splice is a whole
member, so the walk over the output finds the members of the source, and a
second run splices the same bytes.
-/

namespace VeraqisRecover.Recovery

open ByteString VeraqisRecover.Tar

namespace TarContinuationSalvage

def name : String := "tar-continuation-salvage"

def handles (c : Corruption) : Bool := c.ruleId = "TAR_UST_001" || c.ruleId = "TAR_TERM_001"

def canApply (result : AnalysisResult) : Bool :=
  result.archiveFormat = some .tar && !result.corruptions.isEmpty

def predictedOutcome : String :=
  "recover every ustar-checksum-verified TAR member (ignore-zeros + header resync) " ++
    "and re-emit them as a valid archive; drop unreadable members"

/-- The original bytes of the verified members. -/
def splice (data : Bytes) (segments : List Segment) : Bytes :=
  (segments.filter fun s ↦ s.kind = .verifiedTarMember).flatMap fun s ↦
    (slice? data s.sourceOffset s.sourceEnd).getD []

/-- Pad to a 512-byte boundary. -/
def padToBlock (out : Bytes) : Bytes :=
  if out.length % block ≠ 0 then
    out ++ List.replicate (divCeil out.length block * block - out.length) 0
  else out

def apply (source : Bytes) : Except RecoveryError (Bytes × RecoveryReport) :=
  let report := { RecoveryReport.empty "" with strategiesApplied := [name] }
  let salvage := salvageTar source
  if salvage.membersVerified = 0 then
    .ok ([], { report with
      warnings :=
        ["no TAR member could be checksum-verified; nothing salvaged (falling through)"] })
  else
    let out := splice source salvage.segments
    if out = [] then .ok ([], report)
    else
      let out := padToBlock out ++ List.replicate (2 * block) 0
      .ok (out, { report with
        bytesRecovered := out.length
        bytesLost := source.length - out.length
        success := true
        warnings := [s!"salvaged {salvage.membersVerified} checksum-verified TAR member(s); " ++
          "re-emitted with a fresh terminator"] })

end TarContinuationSalvage

/-- Recover the checksum-verified members of a TAR. -/
def tarContinuationSalvage : RecoveryStrategy where
  name := TarContinuationSalvage.name
  technique := "TarContinuationSalvage"
  risk := .lossy
  priority := 45
  handles := TarContinuationSalvage.handles
  canApply := TarContinuationSalvage.canApply
  predictedOutcome := fun _ ↦ TarContinuationSalvage.predictedOutcome
  apply := TarContinuationSalvage.apply

open TarContinuationSalvage

theorem tarContinuationSalvage_reportsItself : tarContinuationSalvage.ReportsItself := by
  intro source staged report hrun
  simp only [tarContinuationSalvage, TarContinuationSalvage.apply] at hrun
  split at hrun
  · obtain ⟨-, rfl⟩ := Prod.mk.inj (Except.ok.inj hrun)
    exact ⟨rfl, rfl⟩
  · split at hrun
    · obtain ⟨-, rfl⟩ := Prod.mk.inj (Except.ok.inj hrun)
      exact ⟨rfl, rfl⟩
    · obtain ⟨-, rfl⟩ := Prod.mk.inj (Except.ok.inj hrun)
      exact ⟨rfl, rfl⟩

/-! ## Padding -/

theorem padToBlock_append {xs : Bytes} (h : block ∣ xs.length) (ys : Bytes) :
    padToBlock (xs ++ ys) = xs ++ padToBlock ys := by
  obtain ⟨k, hk⟩ := h
  have hmod : (xs ++ ys).length % block = ys.length % block := by
    rw [List.length_append, hk, Nat.mul_add_mod]
  have hceil : divCeil (xs ++ ys).length block * block - (xs ++ ys).length =
      divCeil ys.length block * block - ys.length := by
    rw [List.length_append, hk]
    unfold divCeil block
    omega
  rw [padToBlock, padToBlock, hmod, hceil]
  split
  · rw [List.append_assoc]
  · rfl

theorem padToBlock_of_dvd {xs : Bytes} (h : block ∣ xs.length) : padToBlock xs = xs :=
  if_neg (not_not.mpr (Nat.mod_eq_zero_of_dvd h))

/-- A span short of its padding is filled up to the whole member. -/
theorem padToBlock_spanAt {data : Bytes} {pos : ℕ} (h : pos + block ≤ data.length)
    (hend : declaredEnd data pos ≤ data.length) :
    padToBlock (spanAt data pos) = filledSpan data pos := by
  have hlen := length_spanAt data pos
  rw [declaredEnd] at hend
  have hceil : divCeil (spanAt data pos).length block * block =
      block + paddedSize (declaredSize (field data pos block)) := by
    rw [hlen]
    unfold paddedSize divCeil block at *
    omega
  rw [padToBlock, filledSpan, hceil]
  split
  · rfl
  · rename_i hmod
    have hfull : block + paddedSize (declaredSize (field data pos block)) -
        (spanAt data pos).length = 0 := by
      rw [← hceil]
      unfold divCeil block at *
      omega
    rw [hfull, List.replicate_zero, List.append_nil]

/-! ## Splices of the source -/

theorem splice_cons {data : Bytes} {s : Segment} (h : s.kind = .verifiedTarMember)
    (rest : List Segment) :
    splice data (s :: rest) =
      (slice? data s.sourceOffset s.sourceEnd).getD [] ++ splice data rest := by
  rw [splice, List.filter_cons, if_pos (decide_eq_true h), List.flatMap_cons]
  rfl

theorem slice?_memberSegment {data : Bytes} {pos : ℕ} (h : pos + block ≤ data.length) :
    slice? data (memberSegment data pos).sourceOffset (memberSegment data pos).sourceEnd =
      some (spanAt data pos) := by
  rw [memberSegment]
  dsimp only
  rw [slice?_eq_some]
  refine ⟨⟨by omega, min_le_right _ _⟩, ?_⟩
  change _ = List.take _ _
  rw [List.take_eq_take_iff, List.length_drop]
  omega

/-- The members of a whole member list. -/
def contents (m : WholeMember) : Option Text × Bytes := (some (readName m.header), m.data)

/-- What is found from a position on is a list of whole members, and the splices
padded to a block are these members joined. -/
theorem segmentsAt_whole (data : Bytes) (pos : ℕ) : ∃ ms : List WholeMember,
    membersAt data pos = ms.map contents ∧
      padToBlock (splice data (segmentsAt data pos)) = joined ms := by
  fun_induction segmentsAt data pos with
  | case1 pos hpos _ ih =>
      obtain ⟨ms, hmembers, hsplice⟩ := ih
      by_cases hmember : headerAt data pos = true ∧ declaredEnd data pos ≤ data.length
      · obtain ⟨ht, hend⟩ := hmember
        have hcontents : contents (wholeAt data pos hpos ht) =
            memberOf (memberSegment data pos) := by
          rw [contents, data_wholeAt hpos ht hend, WholeMember.header]
          exact congrArg (fun b ↦ (some (readName b), _)) (field_filledSpan_header hpos)
        refine ⟨wholeAt data pos hpos ht :: ms, ?_, ?_⟩
        · rw [membersAt_step hpos, hmembers, memberAt, if_pos ⟨ht, hend⟩]
          exact congrArg (· :: ms.map contents) hcontents.symm
        · rw [memberAt, if_pos ⟨ht, hend⟩, List.singleton_append, splice_cons rfl,
            slice?_memberSegment hpos, Option.getD_some, joined, List.flatMap_cons, ← joined]
          change _ = filledSpan data pos ++ joined ms
          have hnext : nextPos data pos =
              pos + block + paddedSize (declaredSize (field data pos block)) := by
            rw [nextPos, if_pos ht, if_pos hend]
          have hlen := length_spanAt data pos
          by_cases hfull : nextPos data pos ≤ data.length
          · have hfilled : filledSpan data pos = spanAt data pos := by
              rw [filledSpan, hlen, min_eq_left (by omega), Nat.sub_self, List.replicate_zero,
                List.append_nil]
            have hdvd : block ∣ (spanAt data pos).length := by
              rw [hlen, min_eq_left (by omega)]
              exact (dvd_refl block).add (Dvd.intro_left _ rfl)
            rw [padToBlock_append hdvd, hsplice, hfilled]
          · have hstop : segmentsAt data (nextPos data pos) = [] := segmentsAt_end (by omega)
            rw [hstop] at hsplice ⊢
            have hnil : splice data [] = [] := rfl
            rw [hnil] at hsplice ⊢
            rw [List.append_nil, padToBlock_spanAt hpos hend, ← hsplice,
              padToBlock_of_dvd (dvd_zero _), List.append_nil]
      · refine ⟨ms, ?_, ?_⟩
        · rw [membersAt_step hpos, memberAt, if_neg hmember, hmembers]
          rfl
        · rw [memberAt, if_neg hmember, List.nil_append, hsplice]
  | case2 pos hpos =>
      refine ⟨[], membersAt_end hpos, ?_⟩
      exact padToBlock_of_dvd (dvd_zero _)

/-! ## The output -/

/-- Whole members and a terminator. -/
def emitted (ms : List WholeMember) : Bytes := joined ms ++ List.replicate (2 * block) 0

theorem block_dvd_joined (ms : List WholeMember) : block ∣ (joined ms).length := by
  induction ms with
  | nil => exact dvd_zero _
  | cons m ms ih =>
      rw [joined, List.flatMap_cons, List.length_append, m.length_eq]
      exact ((dvd_refl block).add (Dvd.intro_left _ rfl)).add ih

theorem segmentsAt_emitted (ms : List WholeMember) : segmentsAt (emitted ms) 0 = wholeFrom 0 ms :=
  segmentsAt_joined ms (2 * block) []

theorem membersAt_emitted (ms : List WholeMember) : membersAt (emitted ms) 0 = ms.map contents := by
  have hwhole : ∀ o, (wholeFrom o ms).map memberOf = ms.map contents := by
    induction ms with
    | nil =>
        intro o
        rfl
    | cons m ms ih =>
        intro o
        rw [wholeFrom, List.map_cons, ih, List.map_cons]
        rfl
  rw [membersAt, segmentsAt_emitted, hwhole]

theorem splice_wholeFrom (ms : List WholeMember) (pre rest : Bytes) :
    splice (pre ++ (joined ms ++ rest)) (wholeFrom pre.length ms) = joined ms := by
  induction ms generalizing pre with
  | nil => rfl
  | cons m ms ih =>
      have hsplit : joined (m :: ms) ++ rest = m.bytes ++ (joined ms ++ rest) := by
        rw [joined, List.flatMap_cons, List.append_assoc]
        rfl
      have hrest := ih (pre ++ m.bytes)
      rw [List.append_assoc, List.length_append] at hrest
      have hslice : slice? (pre ++ (m.bytes ++ (joined ms ++ rest))) pre.length
          (pre.length + m.bytes.length) = some m.bytes := by
        rw [slice?_eq_some]
        refine ⟨⟨Nat.le_add_right _ _, by rw [List.length_append, List.length_append]; omega⟩, ?_⟩
        rw [List.drop_left, Nat.add_sub_cancel_left, List.take_left]
      rw [wholeFrom, splice_cons rfl, hsplit]
      change (slice? _ pre.length (pre.length + m.bytes.length)).getD [] ++ _ = _
      rw [hslice, hrest]
      rfl

theorem splice_emitted (ms : List WholeMember) :
    splice (emitted ms) (segmentsAt (emitted ms) 0) = joined ms := by
  rw [segmentsAt_emitted]
  exact splice_wholeFrom ms [] _

theorem joined_ne_nil {ms : List WholeMember} (h : ms ≠ []) : joined ms ≠ [] := by
  cases ms with
  | nil => exact absurd rfl h
  | cons m ms =>
      apply List.ne_nil_of_length_pos
      rw [joined, List.flatMap_cons, List.length_append, m.length_eq, block]
      omega

/-- A source with members: the strategy writes them whole, with a terminator. -/
theorem apply_of_members {source : Bytes} {ms : List WholeMember}
    (hsplice : padToBlock (splice source (segmentsAt source 0)) = joined ms) (hne : ms ≠ [])
    (hverified : (salvageTar source).membersVerified ≠ 0) :
    ∃ report, tarContinuationSalvage.apply source = .ok (emitted ms, report) ∧
      report.success = true := by
  have hout : splice source (segmentsAt source 0) ≠ [] := by
    intro hnil
    rw [hnil, padToBlock_of_dvd (dvd_zero _)] at hsplice
    exact joined_ne_nil hne hsplice.symm
  change ∃ report, TarContinuationSalvage.apply source = _ ∧ _
  rw [TarContinuationSalvage.apply]
  dsimp only
  rw [if_neg hverified, salvageTar_segments, if_neg hout, hsplice]
  exact ⟨_, rfl, rfl⟩

theorem membersVerified_eq (data : Bytes) :
    (salvageTar data).membersVerified = (membersAt data 0).length := by
  rw [salvageTar_membersVerified, salvageTar_segments, membersAt, List.length_map]

/-- Re-emission keeps the members, ends on a block boundary and is idempotent. -/
theorem tarContinuationSalvage_faithful {source : Bytes}
    (h : 0 < (salvageTar source).membersVerified) :
    ∃ output report, tarContinuationSalvage.apply source = .ok (output, report) ∧
      report.success = true ∧ block ∣ output.length ∧
      verifiedMembers output = verifiedMembers source ∧
      ∃ report', tarContinuationSalvage.apply output = .ok (output, report') := by
  obtain ⟨ms, hmembers, hsplice⟩ := segmentsAt_whole source 0
  have hne : ms ≠ [] := by
    rintro rfl
    rw [membersVerified_eq, hmembers] at h
    exact absurd h (lt_irrefl 0)
  obtain ⟨report, hrun, hsuccess⟩ := apply_of_members hsplice hne h.ne'
  have hverified : (salvageTar (emitted ms)).membersVerified ≠ 0 := by
    rw [membersVerified_eq, membersAt_emitted, ← hmembers, ← membersVerified_eq]
    exact h.ne'
  have hagain : padToBlock (splice (emitted ms) (segmentsAt (emitted ms) 0)) = joined ms := by
    rw [splice_emitted, padToBlock_of_dvd (block_dvd_joined ms)]
  obtain ⟨report', hrun', -⟩ := apply_of_members hagain hne hverified
  refine ⟨emitted ms, report, hrun, hsuccess, ?_, ?_, report', hrun'⟩
  · rw [emitted, List.length_append, List.length_replicate]
    exact (block_dvd_joined ms).add (Dvd.intro_left 2 rfl)
  · rw [verifiedMembers_eq, verifiedMembers_eq, membersAt_emitted, hmembers]

/-- An unreadable block, then a member whose padding is missing. -/
def shortPadding : Bytes := List.replicate 512 0x55 ++ (tarMember ['a'] [1, 2, 3]).take 515

theorem shortPadding_faithful :
    ∃ output report, tarContinuationSalvage.apply shortPadding = .ok (output, report) ∧
      report.success = true ∧ block ∣ output.length ∧
      verifiedMembers output = verifiedMembers shortPadding ∧
      ∃ report', tarContinuationSalvage.apply output = .ok (output, report') :=
  tarContinuationSalvage_faithful (by decide +kernel)

end VeraqisRecover.Recovery
