import VeraqisRecover.Gzip.Soundness
import VeraqisRecover.Gzip.Totality

/-!
# The members the loop turns to

A start is visited when no earlier visit has taken the resume cursor past it,
and the proven segments are the visits whose trailer matches.
-/

namespace VeraqisRecover.Gzip

open ByteString Tar

/-- Where a segment lies, and its bytes. -/
def spanOf (s : Segment) : ℕ × ℕ × Bytes := (s.sourceOffset, s.sourceEnd, s.bytes)

/-- What the member at `start` proves, if anything. -/
def provenAt (dec : GzDecoder) (data : Bytes) (start : ℕ) : Option (ℕ × ℕ × Bytes) :=
  match gzHeaderLen data start with
  | none => none
  | some hlen =>
      let outcome := inflated dec data (start + hlen)
      if Matches dec data (start + hlen) outcome then
        some (start, start + hlen + outcome.consumed + 8, outcome.plain)
      else none

def provenSpans (dec : GzDecoder) (data : Bytes) (vs : List (ℕ × ℕ)) : List (ℕ × ℕ × Bytes) :=
  vs.filterMap fun m ↦ provenAt dec data m.1

/-- Checksums are 32-bit words. -/
def GzDecoder.WordSums (dec : GzDecoder) : Prop := ∀ plain, dec.crc32 plain < 2 ^ 32

/-- The trailer of a member: the checksum and the length of its content. -/
def trailerOf (dec : GzDecoder) (plain : Bytes) : Bytes :=
  le32 (dec.crc32 plain) ++ le32 (plain.length % 2 ^ 32)

theorem length_trailerOf (dec : GzDecoder) (plain : Bytes) :
    (trailerOf dec plain).length = 8 := rfl

theorem readTrailer_trailerOf {dec : GzDecoder} (hword : dec.WordSums) {data plain : Bytes} {i : ℕ}
    (h : At data i (trailerOf dec plain)) :
    readTrailer data i = some (dec.crc32 plain, plain.length % 2 ^ 32) := by
  obtain ⟨hcrc, hisize⟩ := At.le32_append_iff.mp h
  rw [readTrailer, hcrc.u32le_le32 (hword plain),
    hisize.u32le_le32 (Nat.mod_lt _ (by decide))]
  rfl

section Turn

variable {dec : GzDecoder} {data : Bytes} {start hlen next : ℕ}

theorem provenAt_of_matches (hheader : gzHeaderLen data start = some hlen)
    (h : Matches dec data (start + hlen) (inflated dec data (start + hlen))) :
    provenAt dec data start = some (start,
      start + hlen + (inflated dec data (start + hlen)).consumed + 8,
      (inflated dec data (start + hlen)).plain) := by
  rw [provenAt, hheader]
  exact if_pos h

theorem provenAt_of_not_matches (hheader : gzHeaderLen data start = some hlen)
    (h : ¬Matches dec data (start + hlen) (inflated dec data (start + hlen))) :
    provenAt dec data start = none := by
  rw [provenAt, hheader]
  exact if_neg h

theorem provenAt_of_malformed (hheader : gzHeaderLen data start = none) :
    provenAt dec data start = none := by
  rw [provenAt, hheader]

theorem resume_of_matches (hheader : gzHeaderLen data start = some hlen)
    (h : Matches dec data (start + hlen) (inflated dec data (start + hlen))) :
    resume dec data start next =
      start + hlen + (inflated dec data (start + hlen)).consumed + 8 := by
  rw [resume, hheader]
  exact if_pos h

theorem resume_of_not_matches (hheader : gzHeaderLen data start = some hlen)
    (h : ¬Matches dec data (start + hlen) (inflated dec data (start + hlen))) :
    resume dec data start next = next := by
  rw [resume, hheader]
  exact if_neg h

theorem le_resume (hnext : start ≤ next) : start ≤ resume dec data start next := by
  cases hheader : gzHeaderLen data start with
  | none =>
      rw [resume, hheader]
      exact hnext
  | some hlen =>
      by_cases h : Matches dec data (start + hlen) (inflated dec data (start + hlen))
      · rw [resume_of_matches hheader h]
        omega
      · rw [resume_of_not_matches hheader h]
        exact hnext

theorem provenAt_start {span : ℕ × ℕ × Bytes} (h : provenAt dec data start = some span) :
    span.1 = start := by
  rw [provenAt] at h
  split at h
  · cases h
  · dsimp only at h
    split at h
    · cases h
      rfl
    · cases h

theorem Matches.end_le {bodyStart : ℕ} {outcome : InflateOutcome}
    (h : Matches dec data bodyStart outcome) :
    bodyStart + outcome.consumed + 8 ≤ data.length := by
  obtain ⟨-, htrailer⟩ := h
  simp only [readTrailer, Option.bind_eq_bind, Option.bind_eq_some_iff] at htrailer
  obtain ⟨crc, -, isize, hisize, -⟩ := htrailer
  exact le_length_of_u32le hisize

/-- A turn leaves the cursor where `resume` says, and adds what the member proves. -/
theorem memberTurn_verified {res out : SalvageResult} {cursor : ℕ} (hres : Tallied res)
    (h : memberTurn dec data start next res = some (out, cursor)) :
    Tallied out ∧ cursor = resume dec data start next ∧
      (verifiedSegments out).map spanOf =
        (verifiedSegments res).map spanOf ++ (provenAt dec data start).toList := by
  cases hheader : gzHeaderLen data start with
  | none =>
      obtain ⟨w, hturn⟩ := memberTurn_of_malformed dec next res hheader
      rw [hturn] at h
      cases h
      rw [provenAt_of_malformed hheader, Option.toList_none, List.append_nil, resume, hheader]
      exact ⟨hres.counted.warn w, rfl, rfl⟩
  | some hlen =>
      obtain ⟨label, hturn⟩ := memberTurn_of_header dec next res hheader
      rw [hturn] at h
      rcases judge_cases dec data start (start + hlen) next label
        (inflated dec data (start + hlen)) (counted res) with
        ⟨-, hjudge⟩ | ⟨hmatch, hjudge⟩ | ⟨hno, w, hjudge⟩
      · rw [hjudge] at h
        cases h
      · rw [hjudge] at h
        cases h
        rw [provenAt_of_matches hheader hmatch, resume_of_matches hheader hmatch,
          verifiedSegments_push_verified rfl, List.map_append]
        refine ⟨hres.counted.push, rfl, ?_⟩
        rw [List.map_singleton, spanOf, sourceEnd_memberSegment start label _ hmatch.end_le]
        rfl
      · rw [hjudge, unproven] at h
        obtain ⟨body, -, hbody⟩ := Option.bind_eq_some_iff.mp h
        cases hbody
        obtain ⟨htallied, hsame⟩ := salvageUnverified_spec (hres.counted.warn w) start
          (start + hlen) (inflated dec data (start + hlen)).plain body
        rw [provenAt_of_not_matches hheader hno, resume_of_not_matches hheader hno, hsame,
          Option.toList_none, List.append_nil]
        exact ⟨htallied, rfl, rfl⟩

end Turn

section Run

variable {dec : GzDecoder} {data : Bytes}

theorem memberLoop_verified {starts : List ℕ} {cursor : ℕ} {res out : SalvageResult}
    (hres : Tallied res) (h : memberLoop dec data starts cursor res = some out) :
    (verifiedSegments out).map spanOf = (verifiedSegments res).map spanOf ++
      provenSpans dec data (visits dec data starts cursor) := by
  induction starts generalizing cursor res with
  | nil =>
      cases h
      exact (List.append_nil _).symm
  | cons start rest ih =>
      rw [memberLoop] at h
      rw [visits]
      split at h
      · rename_i hskip
        rw [if_pos hskip]
        exact ih hres h
      · rename_i hskip
        obtain ⟨⟨mid, cursor'⟩, hturn, hloop⟩ := Option.bind_eq_some_iff.mp h
        obtain ⟨hmid, rfl, hspans⟩ := memberTurn_verified hres hturn
        rw [if_neg hskip, ih hmid hloop, hspans, List.append_assoc, provenSpans, provenSpans,
          List.filterMap_cons]
        dsimp only
        cases provenAt dec data start with
        | none => rfl
        | some span => rfl

/-- The proven segments are the visits whose trailer matches. -/
theorem salvageGzip_verified {res : SalvageResult} (h : salvageGzip dec data = some res) :
    (verifiedSegments res).map spanOf =
      provenSpans dec data (visits dec data (memberStarts data) 0) := by
  rw [salvageGzip] at h
  split at h
  · rename_i hempty
    cases h
    rw [hempty]
    rfl
  · obtain ⟨out, hloop, hout⟩ := Option.bind_eq_some_iff.mp h
    have hverified := memberLoop_verified ⟨rfl, rfl, rfl⟩ hloop
    cases hout
    split
    · exact hverified
    · exact hverified

/-! ## Which starts are visited -/

/-- One visit lies before another, and its cursor does not reach past that. -/
def VisitedBefore (dec : GzDecoder) (data : Bytes) (m n : ℕ × ℕ) : Prop :=
  m.1 < n.1 ∧ resume dec data m.1 m.2 ≤ n.1

theorem visits_spec {starts : List ℕ} (hsorted : starts.Pairwise (· < ·))
    (hstarts : ∀ i ∈ starts, i ≤ data.length) (cursor : ℕ) :
    (∀ m ∈ visits dec data starts cursor, m.1 ∈ starts ∧ cursor ≤ m.1) ∧
      (visits dec data starts cursor).Pairwise (VisitedBefore dec data) := by
  induction starts generalizing cursor with
  | nil => exact ⟨by simp [visits], List.Pairwise.nil⟩
  | cons start rest ih =>
      obtain ⟨hfirst, hrest⟩ := List.pairwise_cons.mp hsorted
      have hlater := ih hrest fun i hi ↦ hstarts i (List.mem_cons_of_mem _ hi)
      rw [visits]
      split
      · obtain ⟨hmem, hpair⟩ := hlater cursor
        exact ⟨fun m hm ↦ ⟨List.mem_cons_of_mem _ (hmem m hm).1, (hmem m hm).2⟩, hpair⟩
      · rename_i hcursor
        obtain ⟨hmem, hpair⟩ := hlater (resume dec data start (nextStart data rest))
        have hnext : start ≤ nextStart data rest := by
          cases rest with
          | nil => exact hstarts start List.mem_cons_self
          | cons i rest => exact (hfirst i List.mem_cons_self).le
        have hresume : start ≤ resume dec data start (nextStart data rest) := le_resume hnext
        refine ⟨?_, List.pairwise_cons.mpr ⟨?_, hpair⟩⟩
        · intro m hm
          rcases List.mem_cons.mp hm with rfl | hm
          · exact ⟨List.mem_cons_self, not_lt.mp hcursor⟩
          · obtain ⟨hin, hle⟩ := hmem m hm
            exact ⟨List.mem_cons_of_mem _ hin, (not_lt.mp hcursor).trans (hresume.trans hle)⟩
        · intro m hm
          obtain ⟨hin, hle⟩ := hmem m hm
          exact ⟨hfirst m.1 hin, hle⟩

/-- A start is visited when no earlier visit reaches past it. -/
theorem exists_visit {starts : List ℕ} (hsorted : starts.Pairwise (· < ·)) {start : ℕ}
    (hstart : start ∈ starts) (cursor : ℕ) (hcursor : cursor ≤ start)
    (h : ∀ m ∈ visits dec data starts cursor, m.1 < start → resume dec data m.1 m.2 ≤ start) :
    ∃ next, (start, next) ∈ visits dec data starts cursor := by
  induction starts generalizing cursor with
  | nil => cases hstart
  | cons x rest ih =>
      obtain ⟨hfirst, hrest⟩ := List.pairwise_cons.mp hsorted
      rw [visits] at h ⊢
      rcases List.mem_cons.mp hstart with rfl | hmem
      · rw [if_neg (not_lt.mpr hcursor)]
        exact ⟨_, List.mem_cons_self⟩
      · split
        · rename_i hskip
          rw [if_pos hskip] at h
          exact ih hrest hmem cursor hcursor h
        · rename_i hskip
          rw [if_neg hskip] at h
          have hresume := h _ List.mem_cons_self (hfirst start hmem)
          obtain ⟨next, hnext⟩ := ih hrest hmem _ hresume
            fun m hm ↦ h m (List.mem_cons_of_mem _ hm)
          exact ⟨next, List.mem_cons_of_mem _ hnext⟩

theorem memberStarts_le {i : ℕ} (h : i ∈ memberStarts data) : i ≤ data.length := by
  have hlt := (mem_memberStarts.mp h).1
  omega

variable (dec data) in
/-- The visits of the whole salvage. -/
def allVisits : List (ℕ × ℕ) := visits dec data (memberStarts data) 0

theorem allVisits_spec :
    (∀ m ∈ allVisits dec data, m.1 ∈ memberStarts data) ∧
      (allVisits dec data).Pairwise (VisitedBefore dec data) := by
  obtain ⟨hmem, hpair⟩ := @visits_spec dec data _ (memberStarts_sorted data)
    (fun _ hi ↦ memberStarts_le hi) 0
  exact ⟨fun m hm ↦ (hmem m hm).1, hpair⟩

/-- No visit reaches past a later one. -/
theorem resume_le_of_visited {m n : ℕ × ℕ} (hm : m ∈ allVisits dec data)
    (hn : n ∈ allVisits dec data) (hlt : m.1 < n.1) : resume dec data m.1 m.2 ≤ n.1 := by
  have hpair := (@allVisits_spec dec data).2
  obtain ⟨i, hi, rfl⟩ := List.getElem_of_mem hm
  obtain ⟨j, hj, rfl⟩ := List.getElem_of_mem hn
  rcases Nat.lt_trichotomy i j with hij | rfl | hij
  · exact (List.pairwise_iff_getElem.mp hpair i j hi hj hij).2
  · exact absurd hlt (lt_irrefl _)
  · have hback := (List.pairwise_iff_getElem.mp hpair j i hj hi hij).1
    omega

end Run

end VeraqisRecover.Gzip
