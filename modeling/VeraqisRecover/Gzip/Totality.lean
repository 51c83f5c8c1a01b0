import VeraqisRecover.Crc.Rocksoft
import VeraqisRecover.Gzip.Turn

/-!
# When the GZIP salvage panics

With a decoder that reports no more input than it was given, the one slice that
can go wrong is the body of an unproven member, cut out from the end of its
header to the next magic.  The header's extra fields can contain that magic.
-/

namespace VeraqisRecover.Gzip

open ByteString Tar

instance (dec : GzDecoder) (data : Bytes) (bodyStart : ℕ) (outcome : InflateOutcome) :
    Decidable (Matches dec data bodyStart outcome) :=
  inferInstanceAs (Decidable (_ ∧ _))

/-- An unproven member whose header reaches past the next magic. -/
def Overruns (dec : GzDecoder) (data : Bytes) (start next : ℕ) : Prop :=
  ∃ hlen, gzHeaderLen data start = some hlen ∧ next < start + hlen ∧
    ¬Matches dec data (start + hlen) (inflated dec data (start + hlen))

instance (dec : GzDecoder) (data : Bytes) (start next : ℕ) :
    Decidable (Overruns dec data start next) :=
  decidable_of_iff (∃ hlen ∈ gzHeaderLen data start, next < start + hlen ∧
    ¬Matches dec data (start + hlen) (inflated dec data (start + hlen))) (by
      simp only [Overruns, Option.mem_def])

/-- The resume cursor after the member at `start`. -/
def resume (dec : GzDecoder) (data : Bytes) (start next : ℕ) : ℕ :=
  match gzHeaderLen data start with
  | none => next
  | some hlen =>
      let outcome := inflated dec data (start + hlen)
      if Matches dec data (start + hlen) outcome then start + hlen + outcome.consumed + 8 else next

/-- The members the loop turns to, each with the next magic. -/
def visits (dec : GzDecoder) (data : Bytes) : List ℕ → ℕ → List (ℕ × ℕ)
  | [], _ => []
  | start :: rest, cursor =>
      if start < cursor then visits dec data rest cursor
      else (start, nextStart data rest) ::
        visits dec data rest (resume dec data start (nextStart data rest))

theorem inflateLoop_consumed_le {n : ℕ} : ∀ (reads : List (ReadResult × ℕ)) (plain : Bytes)
    (consumed : ℕ), consumed ≤ n → (∀ x ∈ reads, x.2 ≤ n) →
      (inflateLoop reads plain consumed).consumed ≤ n := by
  intro reads
  induction reads with
  | nil =>
      intro plain consumed hconsumed _
      exact hconsumed
  | cons x rest ih =>
      obtain ⟨result, totalIn⟩ := x
      intro plain consumed _ hreads
      have hfirst : totalIn ≤ n := hreads _ List.mem_cons_self
      cases result with
      | err => exact hfirst
      | ok chunk =>
          rw [inflateLoop]
          split
          · exact hfirst
          · split
            · exact hfirst
            · exact ih _ _ hfirst fun x hx ↦ hreads x (List.mem_cons_of_mem _ hx)

variable {dec : GzDecoder} {data : Bytes}

theorem inflated_consumed_le (hdec : dec.Bounded) {bodyStart : ℕ} (h : bodyStart ≤ data.length) :
    bodyStart + (inflated dec data bodyStart).consumed ≤ data.length := by
  have hle := inflateLoop_consumed_le (dec.reads (data.drop bodyStart)) [] 0 (Nat.zero_le _)
    (hdec (data.drop bodyStart))
  rw [List.length_drop] at hle
  rw [inflated, inflateMember]
  omega

theorem unproven_eq_none {res : SalvageResult} {start bodyStart next : ℕ} {plain : Bytes}
    (hnext : next ≤ data.length) :
    unproven data res start bodyStart next plain = none ↔ next < bodyStart := by
  rw [unproven, slice?]
  by_cases h : bodyStart ≤ next
  · rw [if_pos ⟨h, hnext⟩]
    constructor
    · intro hnone
      cases hnone
    · intro hlt
      exact absurd h (not_le.mpr hlt)
  · rw [if_neg fun hboth ↦ h hboth.1]
    exact ⟨fun _ ↦ not_le.mp h, fun _ ↦ rfl⟩

/-- One member: it panics exactly when it overruns, and else the cursor is known. -/
theorem memberTurn_spec (hdec : dec.Bounded) (hlen : data.length < 2 ^ 63) {start next : ℕ}
    (hnext : next ≤ data.length) (res : SalvageResult) :
    (Overruns dec data start next ∧ memberTurn dec data start next res = none) ∨
      (¬Overruns dec data start next ∧ ∃ out,
        memberTurn dec data start next res = some (out, resume dec data start next)) := by
  rw [resume]
  cases hheader : gzHeaderLen data start with
  | none =>
      right
      obtain ⟨w, hturn⟩ := memberTurn_of_malformed dec next res hheader
      refine ⟨?_, _, hturn⟩
      rintro ⟨hlen, hsome, -⟩
      rw [hheader] at hsome
      cases hsome
  | some hl =>
      have hover : Overruns dec data start next ↔ next < start + hl ∧
          ¬Matches dec data (start + hl) (inflated dec data (start + hl)) := by
        rw [Overruns, hheader]
        simp
      have hbody := inflated_consumed_le hdec (gzHeaderLen_le hheader)
      obtain ⟨label, hturn⟩ := memberTurn_of_header dec next res hheader
      rw [hturn, hover]
      dsimp only
      rcases judge_cases dec data start (start + hl) next label
        (inflated dec data (start + hl)) (counted res) with
        ⟨hfar, -⟩ | ⟨hmatch, hjudge⟩ | ⟨hno, w, hjudge⟩
      · rw [wordMax] at hfar
        omega
      · right
        rw [hjudge, if_pos hmatch]
        exact ⟨fun h ↦ h.2 hmatch, _, rfl⟩
      · rw [hjudge, if_neg hno]
        by_cases hlt : next < start + hl
        · exact Or.inl ⟨⟨hlt, hno⟩, (unproven_eq_none hnext).mpr hlt⟩
        · right
          refine ⟨fun h ↦ hlt h.1, ?_⟩
          rw [unproven, slice?, if_pos ⟨not_lt.mp hlt, hnext⟩]
          exact ⟨_, rfl⟩

theorem nextStart_le {rest : List ℕ} (h : ∀ i ∈ rest, i < data.length) :
    nextStart data rest ≤ data.length := by
  cases rest with
  | nil => exact le_refl _
  | cons i rest => exact (h i List.mem_cons_self).le

theorem memberLoop_isSome_iff (hdec : dec.Bounded) (hlen : data.length < 2 ^ 63)
    {starts : List ℕ} (hstarts : ∀ i ∈ starts, i < data.length) (cursor : ℕ)
    (res : SalvageResult) :
    (∃ out, memberLoop dec data starts cursor res = some out) ↔
      ∀ m ∈ visits dec data starts cursor, ¬Overruns dec data m.1 m.2 := by
  induction starts generalizing cursor res with
  | nil => simp [memberLoop, visits]
  | cons start rest ih =>
      have hrest : ∀ i ∈ rest, i < data.length := fun i hi ↦
        hstarts i (List.mem_cons_of_mem _ hi)
      rw [memberLoop, visits]
      by_cases hskip : start < cursor
      · rw [if_pos hskip, if_pos hskip]
        exact ih hrest cursor res
      · rw [if_neg hskip, if_neg hskip, List.forall_mem_cons]
        rcases memberTurn_spec hdec hlen (nextStart_le hrest) res with
          ⟨hover, hturn⟩ | ⟨hok, out, hturn⟩
        · rw [hturn]
          constructor
          · rintro ⟨out, hout⟩
            cases hout
          · rintro ⟨hno, -⟩
            exact absurd hover hno
        · rw [hturn, Option.bind_eq_bind, Option.bind_some, ih hrest]
          exact ⟨fun h ↦ ⟨hok, h⟩, fun h ↦ h.2⟩

/-- The salvage returns exactly when no member it turns to overruns. -/
theorem salvageGzip_returns_iff (hdec : dec.Bounded) (hlen : data.length < 2 ^ 63) :
    (∃ res, salvageGzip dec data = some res) ↔
      ∀ m ∈ visits dec data (memberStarts data) 0, ¬Overruns dec data m.1 m.2 := by
  have hstarts : ∀ i ∈ memberStarts data, i < data.length := by
    intro i hi
    have hlt := (mem_memberStarts.mp hi).1
    omega
  rw [← memberLoop_isSome_iff hdec hlen hstarts 0 { format := "gzip" }, salvageGzip]
  split
  · rename_i hempty
    rw [hempty]
    exact ⟨fun _ ↦ ⟨_, rfl⟩, fun _ ↦ ⟨_, rfl⟩⟩
  · cases memberLoop dec data (memberStarts data) 0 { format := "gzip" } with
    | none => simp
    | some out => simp

/-- The decoder as it behaves on the letter 'a' as a stored block, and on what is refused. -/
def letterDecoder : GzDecoder where
  reads body := if body.take 6 = [1, 1, 0, 0xFE, 0xFF, 0x61] then [(.ok [0x61], 6), (.ok [], 6)]
    else [(.err, 0)]
  crc32 d := (Crc.crc32 d).toNat

theorem letterDecoder_bounded : letterDecoder.Bounded := by
  intro body x hx
  simp only [letterDecoder] at hx
  split at hx
  · rename_i htake
    have hlen := congrArg List.length htake
    rw [List.length_take] at hlen
    change min 6 body.length = 6 at hlen
    rcases List.mem_cons.mp hx with rfl | hx
    · dsimp only
      omega
    · rw [List.mem_singleton.mp hx]
      dsimp only
      omega
  · rw [List.mem_singleton.mp hx]
    exact Nat.zero_le _

/-- A member with the magic in its name and the letter 'a' for its body. -/
def magicInSoundName : Bytes :=
  [0x1F, 0x8B, 0x08, 0x08, 0, 0, 0, 0, 0, 0xFF, 0x1F, 0x8B, 0x08, 0x00, 1, 1, 0, 0xFE, 0xFF, 0x61,
    0x43, 0xBE, 0xB7, 0xE8, 1, 0, 0, 0]

/-- Its header reaches past the next magic, and its trailer is sound. -/
theorem salvageGzip_returns_magicInSoundName :
    (∃ res, salvageGzip letterDecoder magicInSoundName = some res) ∧
      ∀ m ∈ visits letterDecoder magicInSoundName (memberStarts magicInSoundName) 0,
        m.2 < m.1 + 14 ∧ ¬Overruns letterDecoder magicInSoundName m.1 m.2 := by
  have hvisits : ∀ m ∈ visits letterDecoder magicInSoundName (memberStarts magicInSoundName) 0,
      m.2 < m.1 + 14 ∧ ¬Overruns letterDecoder magicInSoundName m.1 m.2 := by
    decide
  refine ⟨(salvageGzip_returns_iff letterDecoder_bounded (by decide)).mpr ?_, hvisits⟩
  exact fun m hm ↦ (hvisits m hm).2

/-- The decoder as it behaves on a body that begins with an invalid block type. -/
def refusingDecoder : GzDecoder where
  reads _ := [(.err, 0)]
  crc32 d := (Crc.crc32 d).toNat

theorem refusingDecoder_bounded : refusingDecoder.Bounded := by
  intro body x hx
  rw [List.mem_singleton.mp hx]
  exact Nat.zero_le _

/-- A member with the magic in its name and one byte of body, of the reserved block type. -/
def magicInName : Bytes :=
  [0x1F, 0x8B, 0x08, 0x08, 0, 0, 0, 0, 0, 0xFF, 0x1F, 0x8B, 0x08, 0x00, 0xFF]

theorem magicInName_panics :
    refusingDecoder.Bounded ∧ salvageGzip refusingDecoder magicInName = none :=
  ⟨refusingDecoder_bounded, by decide⟩

end VeraqisRecover.Gzip
