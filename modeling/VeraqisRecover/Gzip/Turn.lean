import VeraqisRecover.Gzip.Salvage

/-!
# What one member does

The header of a member, when it reads, ends in the data.  The member is then
either proven by its trailer or handed to the best-effort salvage, and this is
decided by the bytes alone.
-/

namespace VeraqisRecover.Gzip

open ByteString Tar

/-! ## Starts and headers -/

theorem mem_memberStarts {data : Bytes} {i : ℕ} :
    i ∈ memberStarts data ↔ i + 2 < data.length ∧ isMagic data i = true := by
  rw [memberStarts, List.mem_filter, List.mem_range]
  constructor
  · rintro ⟨hi, hmagic⟩
    exact ⟨by omega, hmagic⟩
  · rintro ⟨hi, hmagic⟩
    exact ⟨by omega, hmagic⟩

theorem memberStarts_sorted (data : Bytes) : (memberStarts data).Pairwise (· < ·) :=
  List.pairwise_lt_range.filter _

theorem lt_skipZstring {data : Bytes} {pos q : ℕ} (h : skipZstring data pos = some q) :
    pos < q := by
  have hloop : ∀ (bs : Bytes) (pos : ℕ), skipZstringLoop bs pos = some q → pos < q := by
    intro bs
    induction bs with
    | nil =>
        intro pos h
        cases h
    | cons b rest ih =>
        intro pos h
        rw [skipZstringLoop] at h
        split at h
        · exact (Nat.lt_succ_self pos).trans (ih (pos + 1) h)
        · cases h
          exact Nat.lt_succ_self pos
  exact hloop _ _ h

theorem le_skipIf {c : Bool} {skip : ℕ → Option ℕ} {pos q : ℕ}
    (hskip : ∀ pos q, skip pos = some q → pos ≤ q) (h : skipIf c skip pos = some q) : pos ≤ q := by
  cases c with
  | false =>
      cases h
      exact le_refl _
  | true => exact hskip pos q h

theorem le_skipExtra {data : Bytes} {pos q : ℕ} (h : skipExtra data pos = some q) : pos ≤ q := by
  obtain ⟨len, -, rfl⟩ := Option.map_eq_some_iff.mp h
  omega

theorem gzHeaderLen_le {data : Bytes} {off hlen : ℕ} (h : gzHeaderLen data off = some hlen) :
    off + hlen ≤ data.length := by
  simp only [gzHeaderLen, Option.bind_eq_bind, Option.bind_eq_some_iff] at h
  obtain ⟨_, -, h⟩ := h
  split at h
  · cases h
  · obtain ⟨flags, -, h⟩ := Option.bind_eq_some_iff.mp h
    obtain ⟨p, hextra, h⟩ := Option.bind_eq_some_iff.mp h
    obtain ⟨q, hname, h⟩ := Option.bind_eq_some_iff.mp h
    obtain ⟨r, hcomment, h⟩ := Option.bind_eq_some_iff.mp h
    have hp := le_skipIf (fun _ _ ↦ le_skipExtra) hextra
    have hq := le_skipIf (fun _ _ h ↦ (lt_skipZstring h).le) hname
    have hr := le_skipIf (fun _ _ h ↦ (lt_skipZstring h).le) hcomment
    obtain ⟨t, hcrc, h⟩ := Option.bind_eq_some_iff.mp h
    have ht : r ≤ t := by
      apply le_skipIf _ hcrc
      intro pos q hpos
      cases hpos
      omega
    split at h
    · cases h
    · cases h
      omega

/-! ## Proven and unproven members -/

/-- The body inflates, and the trailer behind it matches. -/
def Matches (dec : GzDecoder) (data : Bytes) (bodyStart : ℕ) (outcome : InflateOutcome) : Prop :=
  outcome.ok = true ∧ readTrailer data (bodyStart + outcome.consumed) =
    some (dec.crc32 outcome.plain, outcome.plain.length % 2 ^ 32)

/-- A member is proven or unproven; only a trailer beyond the word size panics here. -/
theorem judge_cases (dec : GzDecoder) (data : Bytes) (start bodyStart next : ℕ) (label : String)
    (outcome : InflateOutcome) (res : SalvageResult) :
    (wordMax < bodyStart + outcome.consumed + 8 ∧
        judge dec data start bodyStart next label outcome res = none) ∨
      (Matches dec data bodyStart outcome ∧
        judge dec data start bodyStart next label outcome res =
          some (res.push (memberSegment data start (bodyStart + outcome.consumed + 8) label
            outcome.plain), bodyStart + outcome.consumed + 8)) ∨
      (¬Matches dec data bodyStart outcome ∧
        ∃ w, judge dec data start bodyStart next label outcome res =
          unproven data (res.warn w) start bodyStart next outcome.plain) := by
  rw [judge, Matches]
  cases hok : outcome.ok with
  | false =>
      right
      right
      refine ⟨fun hv ↦ Bool.false_ne_true hv.1, ?_⟩
      rw [if_neg Bool.false_ne_true]
      exact ⟨_, rfl⟩
  | true =>
      rw [if_pos rfl]
      by_cases hfar : wordMax < bodyStart + outcome.consumed + 8
      · refine Or.inl ⟨hfar, ?_⟩
        cases hat : checkedAdd bodyStart outcome.consumed with
        | none => rfl
        | some trailerAt =>
            obtain ⟨-, rfl⟩ := checkedAdd_eq_some.mp hat
            have hend : checkedAdd (bodyStart + outcome.consumed) 8 = none := by
              rw [checkedAdd, if_neg (by omega)]
            rw [Option.bind_eq_bind, Option.bind_some, hend]
            rfl
      · right
        rw [checkedAdd_of_le (by omega), Option.bind_eq_bind, Option.bind_some,
          checkedAdd_of_le (by omega), Option.bind_some]
        cases htrailer : readTrailer data (bodyStart + outcome.consumed) with
        | none => exact Or.inr ⟨by simp, _, rfl⟩
        | some t =>
            obtain ⟨crc, isize⟩ := t
            dsimp only
            by_cases hmatch : dec.crc32 outcome.plain = crc ∧
                outcome.plain.length % 2 ^ 32 = isize
            · obtain ⟨rfl, rfl⟩ := hmatch
              rw [if_pos ⟨rfl, rfl⟩]
              exact Or.inl ⟨⟨rfl, rfl⟩, rfl⟩
            · rw [if_neg hmatch]
              refine Or.inr ⟨?_, _, rfl⟩
              rintro ⟨-, hsame⟩
              cases hsame
              exact hmatch ⟨rfl, rfl⟩

/-- What the decoder makes of everything from `bodyStart` on. -/
def inflated (dec : GzDecoder) (data : Bytes) (bodyStart : ℕ) : InflateOutcome :=
  inflateMember dec (data.drop bodyStart)

theorem slice?_to_end {data : Bytes} {i : ℕ} (h : i ≤ data.length) :
    slice? data i data.length = some (data.drop i) := by
  rw [slice?_eq_some]
  refine ⟨⟨h, le_refl _⟩, List.take_of_length_le ?_⟩
  rw [List.length_drop]

/-- The result with one more member seen. -/
def counted (res : SalvageResult) : SalvageResult :=
  { res with membersTotal := res.membersTotal + 1 }

theorem memberTurn_of_malformed (dec : GzDecoder) {data : Bytes} {start : ℕ} (next : ℕ)
    (res : SalvageResult) (h : gzHeaderLen data start = none) :
    ∃ w, memberTurn dec data start next res = some ((counted res).warn w, next) := by
  rw [memberTurn, h]
  exact ⟨_, rfl⟩

theorem memberTurn_of_header (dec : GzDecoder) {data : Bytes} {start hlen : ℕ} (next : ℕ)
    (res : SalvageResult) (h : gzHeaderLen data start = some hlen) :
    ∃ label, memberTurn dec data start next res =
      judge dec data start (start + hlen) next label (inflated dec data (start + hlen))
        (counted res) := by
  rw [memberTurn, h]
  dsimp only
  rw [slice?_to_end (gzHeaderLen_le h)]
  exact ⟨_, rfl⟩

end VeraqisRecover.Gzip
