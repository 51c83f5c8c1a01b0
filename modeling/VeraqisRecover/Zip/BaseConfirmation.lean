import VeraqisRecover.Zip.Container
import VeraqisRecover.Support.Checked

/-!
# Every record of an embedded archive is confirmed

The base of an embedded archive is chosen by one walk over its directory and confirmed by
another.  The second walk meets the records of the first, so that it confirms all of them and
the assertion behind it holds.
-/

namespace VeraqisRecover.Zip

open ByteString Checked

/-! ## The two walks -/

/-- The record's own name stands in a local header where the base puts it. -/
def Confirms (data : Bytes) (cdStart base : ℕ) (r : Bytes × ℕ) : Bool :=
  (checkedAdd base r.2).any fun abs ↦ abs < cdStart && headerNamedAt data abs r.1

/-- The test of a record as `validate_embedded` spells it out. -/
def confirmsInline (data : Bytes) (cdStart abs : ℕ) (name : Bytes) : Bool :=
  abs + 30 ≤ data.length && u32le data abs = some lfhSig && abs < cdStart &&
    (u16le data (abs + 26)).any fun nl ↦
      nl = name.length && slice? data (abs + 30) (abs + 30 + nl) = some name

theorem confirmsInline_eq {data : Bytes} (hdata : data.length < 2 ^ 63) (cdStart abs : ℕ)
    (name : Bytes) :
    confirmsInline data cdStart abs name = (abs < cdStart && headerNamedAt data abs name) := by
  have hread : ((u16le data (abs + 26)).any fun nl ↦
      nl = name.length && slice? data (abs + 30) (abs + 30 + nl) = some name) =
        (u16le data (abs + 26) = some name.length &&
          slice? data (abs + 30) (abs + 30 + name.length) = some name) := by
    cases u16le data (abs + 26) with
    | none => rfl
    | some nl =>
        by_cases hnl : nl = name.length
        · simp [hnl]
        · simp [hnl]
  have hroom : (checkedAdd abs 30).any (· ≤ data.length) = decide (abs + 30 ≤ data.length) := by
    have hword : data.length ≤ wordMax := by
      unfold wordMax
      omega
    by_cases hin : abs + 30 ≤ wordMax
    · rw [checkedAdd_of_le hin]
      rfl
    · rw [checkedAdd, if_neg hin, Option.any_none, eq_comm, decide_eq_false_iff_not]
      omega
  rw [confirmsInline, hread, headerNamedAt, localHeaderPresent, hroom]
  ac_rfl

variable {data : Bytes} {policy : ZipRecoveryPolicy} {cdStart cdEnd base : ℕ}

theorem confirmRecords_of_chain {o : ℕ} {out recs : List (Bytes × ℕ)}
    (h : chainRecordsFrom data cdEnd policy o out = some recs) :
    ∃ rest, recs = out ++ rest ∧ ∀ confirmed,
      confirmRecords data cdStart cdEnd base policy o out.length confirmed =
        some (recs.length, confirmed + rest.countP (Confirms data cdStart base)) := by
  fun_induction chainRecordsFrom data cdEnd policy o out with
  | case1 o out hmore hr => cases h
  | case2 o out hmore r hr _ ih =>
      obtain ⟨rest, rfl, hrest⟩ := ih h
      refine ⟨(r.name, r.relLho) :: rest, by rw [List.append_assoc]; rfl, fun confirmed ↦ ?_⟩
      rw [confirmRecords, if_pos hmore]
      split
      · rename_i hnone
        cases hnone.symm.trans hr
      · rename_i r' hr'
        obtain rfl := Option.some.inj (hr'.symm.trans hr)
        have hlen : out.length + 1 = (out ++ [(r'.name, r'.relLho)]).length := by
          rw [List.length_append, List.length_singleton]
        dsimp only
        rw [hlen, hrest, List.countP_cons]
        change some (_, (if Confirms data cdStart base (r'.name, r'.relLho) then confirmed + 1
          else confirmed) + _) = _
        refine congrArg (fun n ↦ some (_, n)) ?_
        split <;> omega
  | case3 out hdone =>
      obtain rfl := Option.some.inj h
      refine ⟨[], (List.append_nil out).symm, fun confirmed ↦ ?_⟩
      rw [confirmRecords, if_neg hdone]
      rfl
  | case4 o out hdone hend => cases h

/-- A base that the first walk accepts lets the second one confirm all it meets. -/
theorem confirmRecords_of_confirms (h : candidateBaseConfirms data cdStart cdEnd base policy) :
    ∃ n, confirmRecords data cdStart cdEnd base policy cdStart 0 0 = some (n, n) := by
  unfold candidateBaseConfirms at h
  split at h
  · cases h
  · rename_i recs hrecs
    obtain ⟨rest, hrest, hwalk⟩ :=
      @confirmRecords_of_chain data policy cdStart cdEnd base _ _ _ hrecs
    obtain rfl : recs = rest := hrest
    have hall : ∀ r ∈ recs, Confirms data cdStart base r = true := by
      rw [Bool.and_eq_true, List.all_eq_true] at h
      exact h.2
    have hcount := hwalk 0
    rw [List.countP_eq_length.mpr hall, Nat.zero_add] at hcount
    exact ⟨recs.length, hcount⟩

theorem confirms_of_probeBase {firstName : Bytes} {firstRel probe b : ℕ}
    (h : probeBase data cdStart cdEnd policy firstName firstRel probe = some b) :
    0 < b ∧ candidateBaseConfirms data cdStart cdEnd b policy := by
  fun_induction probeBase data cdStart cdEnd policy firstName firstRel probe with
  | case1 probe hroom hfits =>
      obtain rfl := Option.some.inj h
      exact hfits.2
  | case2 probe hroom hfits ih => exact ih h
  | case3 probe hroom => cases h

/-! ## The check of the record count -/

/-- What `validate_embedded` has in hand when it compares the record counts. -/
structure CountCheck where
  total : ℕ
  commentLen : ℕ
  cdStart : ℕ
  base : ℕ
  records : ℕ
  confirmed : ℕ

/-- `validate_embedded` up to the comparison. -/
def countCheck (data : Bytes) (eocd : ℕ) (policy : ZipRecoveryPolicy) : Option CountCheck := do
  let total ← u16le data (eocd + 10)
  let cdSize ← u32le data (eocd + 12)
  let cdOffset ← u32le data (eocd + 16)
  let commentLen ← u16le data (eocd + 20)
  if total = 0 ∨ cdSize = 0 then none else
  if policy.maxCommentBytes < commentLen then none else
  let cdStart ← checkedSub eocd cdSize
  if data.length < eocd ∨ u32le data cdStart ≠ some cdfhSig then none else
  let declared := (checkedSub cdStart cdOffset).filter fun b ↦
    0 < b && candidateBaseConfirms data cdStart eocd b policy
  let base ← declared.or (deriveBaseFromRecords data cdStart eocd policy)
  if base = 0 ∨ cdStart ≤ base then none else
  let (records, confirmed) ← confirmRecords data cdStart eocd base policy cdStart 0 0
  some { total, commentLen, cdStart, base, records, confirmed }

/-- What follows the comparison and the assertion. -/
def CountCheck.archive (c : CountCheck) (data : Bytes) (eocd : ℕ) : Option EmbeddedArchive := do
  let eocdEnd ← checkedAdd eocd eocdLen
  let commentEnd ← checkedAdd eocdEnd c.commentLen
  let stop := min commentEnd data.length
  if data.length ≤ stop then none else
  some { c with stop, eocd, confirmedRecords := c.confirmed }

/-- `validate_embedded` with its debug assertion. -/
def validateAsserted (data : Bytes) (eocd : ℕ) (policy : ZipRecoveryPolicy) :
    Checked (Option EmbeddedArchive) :=
  match countCheck data eocd policy with
  | none => return none
  | some c =>
      if c.records = 0 ∨ c.records ≠ c.total then return none
      else do
        debugAssert (c.confirmed = c.records)
        return c.archive data eocd

theorem validateEmbedded_eq (data : Bytes) (eocd : ℕ) (policy : ZipRecoveryPolicy) :
    validateEmbedded data eocd policy = (countCheck data eocd policy).bind fun c ↦
      if c.records = 0 ∨ c.records ≠ c.total then none else c.archive data eocd := by
  simp only [validateEmbedded, countCheck, Option.bind_eq_bind, Option.bind_assoc]
  refine Option.bind_congr fun total _ ↦ Option.bind_congr fun cdSize _ ↦
    Option.bind_congr fun cdOffset _ ↦ Option.bind_congr fun commentLen _ ↦ ?_
  split
  · rfl
  split
  · rfl
  rw [Option.bind_assoc]
  refine Option.bind_congr fun cdStart _ ↦ ?_
  split
  · rfl
  rw [Option.bind_assoc]
  refine Option.bind_congr fun base _ ↦ ?_
  split
  · rfl
  rw [Option.bind_assoc]
  rfl

/-- The base is positive and confirmed by the first walk, whichever way it was found. -/
theorem confirms_of_base {cdOffset b : ℕ}
    (h : ((checkedSub cdStart cdOffset).filter fun b ↦
      0 < b && candidateBaseConfirms data cdStart cdEnd b policy).or
        (deriveBaseFromRecords data cdStart cdEnd policy) = some b) :
    0 < b ∧ candidateBaseConfirms data cdStart cdEnd b policy := by
  rcases Option.or_eq_some_iff.mp h with hdeclared | ⟨-, hderived⟩
  · obtain ⟨-, hb⟩ := Option.filter_eq_some_iff.mp hdeclared
    simpa using hb
  · obtain ⟨recs, -, hprobe⟩ := Option.bind_eq_some_iff.mp hderived
    obtain ⟨first, -, hprobe⟩ := Option.bind_eq_some_iff.mp hprobe
    exact confirms_of_probeBase hprobe

/-- What holds whenever the comparison is reached. -/
structure CountCheck.Sound (c : CountCheck) (eocd : ℕ) : Prop where
  confirmed : c.confirmed = c.records
  base_pos : 0 < c.base
  base_lt : c.base < c.cdStart
  cdStart_le : c.cdStart ≤ eocd

theorem countCheck_sound {eocd : ℕ} {c : CountCheck} (h : countCheck data eocd policy = some c) :
    c.Sound eocd := by
  simp only [countCheck, Option.bind_eq_bind, Option.bind_eq_some_iff,
    Option.ite_none_left_eq_some, Option.some.injEq] at h
  obtain ⟨total, -, cdSize, -, cdOffset, -, commentLen, -, -, -, start, hstart, -, b, hb, hfits,
    ⟨records, confirmed⟩, hwalk, rfl⟩ := h
  obtain ⟨hpos, hconfirms⟩ := confirms_of_base hb
  obtain ⟨n, hn⟩ := confirmRecords_of_confirms hconfirms
  obtain ⟨rfl, rfl⟩ := Prod.mk.inj (Option.some.inj (hn.symm.trans hwalk))
  unfold checkedSub at hstart
  split at hstart
  · obtain rfl := Option.some.inj hstart
    exact ⟨rfl, hpos, by dsimp only; omega, Nat.sub_le _ _⟩
  · cases hstart

theorem CountCheck.Sound.archive {c : CountCheck} {eocd : ℕ} (h : c.Sound eocd)
    {a : EmbeddedArchive} (ha : c.archive data eocd = some a) :
    0 < a.base ∧ a.base < a.cdStart ∧ a.cdStart ≤ a.eocd ∧ a.eocd < a.stop ∧
      a.stop < data.length := by
  simp only [CountCheck.archive, Option.bind_eq_bind, Option.bind_eq_some_iff,
    Option.ite_none_left_eq_some, Option.some.injEq, checkedAdd_eq_some] at ha
  obtain ⟨_, ⟨-, rfl⟩, _, ⟨-, rfl⟩, hstop, rfl⟩ := ha
  refine ⟨h.base_pos, h.base_lt, h.cdStart_le, ?_, ?_⟩
  · change eocd < min (eocd + eocdLen + c.commentLen) data.length
    unfold eocdLen at *
    omega
  · change min (eocd + eocdLen + c.commentLen) data.length < data.length
    omega

/-- Choosing the base has confirmed every record: the assertion never fails, and what is
accepted lies in order inside its host. -/
theorem validateEmbedded_confirmed (data : Bytes) (eocd : ℕ) (policy : ZipRecoveryPolicy) :
    (∀ c, countCheck data eocd policy = some c → c.records = c.total → c.confirmed = c.records) ∧
      validateAsserted data eocd policy = .ok (validateEmbedded data eocd policy) ∧
      ∀ a, validateEmbedded data eocd policy = some a →
        0 < a.base ∧ a.base < a.cdStart ∧ a.cdStart ≤ a.eocd ∧ a.eocd < a.stop ∧
          a.stop < data.length := by
  refine ⟨fun c hc _ ↦ (countCheck_sound hc).confirmed, ?_, ?_⟩
  · rw [validateAsserted, validateEmbedded_eq]
    cases hc : countCheck data eocd policy with
    | none => rfl
    | some c =>
        dsimp only [Option.bind_some]
        split
        · rfl
        · rw [debugAssert_eq (countCheck_sound hc).confirmed]
          rfl
  · intro a ha
    rw [validateEmbedded_eq] at ha
    obtain ⟨c, hc, ha⟩ := Option.bind_eq_some_iff.mp ha
    split at ha
    · cases ha
    · exact (countCheck_sound hc).archive ha

end VeraqisRecover.Zip
