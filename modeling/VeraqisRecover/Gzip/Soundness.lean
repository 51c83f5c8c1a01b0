import VeraqisRecover.Crc.Rocksoft
import VeraqisRecover.Gzip.Turn

/-!
# What the GZIP salvage proves

Two cursors drive the loop: the magic positions, found beforehand, and the
resume cursor, which jumps by what the decoder reports.  No proven segment ends
behind the resume cursor, so the proven segments follow one another in the
source, whatever the decoder does.
-/

namespace VeraqisRecover.Gzip

open ByteString Tar

/-! ## The tallies -/

/-- The exact segments of a result. -/
def verifiedSegments (res : SalvageResult) : List Segment := res.segments.filter Segment.verified

def unverifiedSegments (res : SalvageResult) : List Segment :=
  res.segments.filter fun s ↦ !s.verified

def byteCount (segs : List Segment) : ℕ := (segs.map fun s ↦ s.bytes.length).sum

/-- The counters say what the segments say. -/
structure Tallied (res : SalvageResult) : Prop where
  membersVerified : res.membersVerified = (verifiedSegments res).length
  verifiedBytes : res.verifiedBytes = byteCount (verifiedSegments res)
  unverifiedBytes : res.unverifiedBytes = byteCount (unverifiedSegments res)

section Push

variable {res : SalvageResult} {seg : Segment}

theorem verifiedSegments_push_verified (h : seg.verified = true) :
    verifiedSegments (res.push seg) = verifiedSegments res ++ [seg] := by
  rw [verifiedSegments, SalvageResult.push_segments, List.filter_append, verifiedSegments]
  simp [h]

theorem verifiedSegments_push_unverified (h : seg.verified = false) :
    verifiedSegments (res.push seg) = verifiedSegments res := by
  rw [verifiedSegments, SalvageResult.push_segments, List.filter_append, verifiedSegments]
  simp [h]

theorem Tallied.push (hres : Tallied res) : Tallied (res.push seg) := by
  obtain ⟨hmembers, hverified, hunverified⟩ := hres
  cases h : seg.verified with
  | true =>
      constructor
      · rw [verifiedSegments_push_verified h, List.length_append, ← hmembers]
        simp [SalvageResult.push, h]
      · rw [verifiedSegments_push_verified h, byteCount, List.map_append, List.sum_append,
          ← byteCount, ← hverified]
        simp [SalvageResult.push, h]
      · rw [unverifiedSegments, SalvageResult.push_segments, List.filter_append,
          ← unverifiedSegments]
        simp [SalvageResult.push, h, hunverified]
  | false =>
      constructor
      · rw [verifiedSegments_push_unverified h, ← hmembers]
        simp [SalvageResult.push, h]
      · rw [verifiedSegments_push_unverified h, ← hverified]
        simp [SalvageResult.push, h]
      · rw [unverifiedSegments, SalvageResult.push_segments, List.filter_append,
          ← unverifiedSegments, byteCount, List.map_append, List.sum_append, ← byteCount,
          ← hunverified]
        simp [SalvageResult.push, h]

end Push

theorem Tallied.warn {res : SalvageResult} (h : Tallied res) (w : String) : Tallied (res.warn w) :=
  ⟨h.membersVerified, h.verifiedBytes, h.unverifiedBytes⟩

theorem Tallied.counted {res : SalvageResult} (h : Tallied res) : Tallied (counted res) :=
  ⟨h.membersVerified, h.verifiedBytes, h.unverifiedBytes⟩

/-- Best-effort segments leave the exact ones alone. -/
theorem salvageUnverified_spec {res : SalvageResult} (hres : Tallied res) (start bodyStart : ℕ)
    (plain body : Bytes) :
    Tallied (salvageUnverified res start bodyStart plain body) ∧
      verifiedSegments (salvageUnverified res start bodyStart plain body) =
        verifiedSegments res := by
  have hblocks : ∀ (blocks : List StoredBlock) (res' : SalvageResult), Tallied res' →
      verifiedSegments res' = verifiedSegments res →
        Tallied (blocks.foldl (fun res b ↦ res.push (blockSegment bodyStart b)) res') ∧
          verifiedSegments (blocks.foldl (fun res b ↦ res.push (blockSegment bodyStart b)) res') =
            verifiedSegments res := by
    intro blocks
    induction blocks with
    | nil =>
        intro res' htallied hsame
        exact ⟨htallied, hsame⟩
    | cons b blocks ih =>
        intro res' htallied hsame
        rw [List.foldl_cons]
        apply ih _ htallied.push
        rw [verifiedSegments_push_unverified rfl, hsame]
  rw [salvageUnverified]
  split
  · exact hblocks _ res hres rfl
  · exact hblocks _ _ hres.push (verifiedSegments_push_unverified rfl)

/-! ## Proven segments -/

/-- The segment starts at a magic, and the last eight bytes of its span are the
CRC-32 and the length of its bytes. -/
structure Proven (dec : GzDecoder) (data : Bytes) (s : Segment) : Prop where
  magic : isMagic data s.sourceOffset = true
  trailer_le : s.sourceOffset + 8 ≤ s.sourceEnd
  end_le : s.sourceEnd ≤ data.length
  crc : u32le data (s.sourceEnd - 8) = some (dec.crc32 s.bytes)
  isize : u32le data (s.sourceEnd - 4) = some (s.bytes.length % 2 ^ 32)

/-- What the loop keeps: the exact segments are proven, in order, and behind the cursor. -/
structure Kept (dec : GzDecoder) (data : Bytes) (cursor : ℕ) (res : SalvageResult) : Prop where
  tallied : Tallied res
  proven : ∀ s ∈ verifiedSegments res, Proven dec data s
  ordered : (verifiedSegments res).Pairwise fun s t ↦ s.sourceEnd ≤ t.sourceOffset
  behind : ∀ s ∈ verifiedSegments res, s.sourceEnd ≤ cursor

variable {dec : GzDecoder} {data : Bytes}

theorem Kept.of_same {cursor cursor' : ℕ} {res res' : SalvageResult} (h : Kept dec data cursor res)
    (htallied : Tallied res') (hsame : verifiedSegments res' = verifiedSegments res)
    (hle : cursor ≤ cursor') : Kept dec data cursor' res' := by
  refine ⟨htallied, ?_, ?_, ?_⟩
  · rw [hsame]
    exact h.proven
  · rw [hsame]
    exact h.ordered
  · rw [hsame]
    intro s hs
    exact (h.behind s hs).trans hle

theorem Kept.push {cursor : ℕ} {res : SalvageResult} {seg : Segment}
    (h : Kept dec data cursor res) (hverified : seg.verified = true)
    (hproven : Proven dec data seg) (hle : cursor ≤ seg.sourceOffset) :
    Kept dec data seg.sourceEnd (res.push seg) := by
  have hspan := hproven.trailer_le
  refine ⟨h.tallied.push, ?_, ?_, ?_⟩
  · rw [verifiedSegments_push_verified hverified]
    intro s hs
    rcases List.mem_append.mp hs with hs | hs
    · exact h.proven s hs
    · rw [List.mem_singleton.mp hs]
      exact hproven
  · rw [verifiedSegments_push_verified hverified, List.pairwise_append]
    refine ⟨h.ordered, List.pairwise_singleton _ _, ?_⟩
    intro s hs t ht
    rw [List.mem_singleton.mp ht]
    exact (h.behind s hs).trans hle
  · rw [verifiedSegments_push_verified hverified]
    intro s hs
    rcases List.mem_append.mp hs with hs | hs
    · have hs' := h.behind s hs
      omega
    · rw [List.mem_singleton.mp hs]

theorem sourceEnd_memberSegment (start : ℕ) (label : String) (plain : Bytes) {trailerEnd : ℕ}
    (h : trailerEnd ≤ data.length) :
    (memberSegment data start trailerEnd label plain).sourceEnd = trailerEnd :=
  min_eq_left h

theorem proven_memberSegment {start bodyStart : ℕ} (label : String) {outcome : InflateOutcome}
    (hmagic : isMagic data start = true) (hbody : start ≤ bodyStart)
    (h : Matches dec data bodyStart outcome) :
    bodyStart + outcome.consumed + 8 ≤ data.length ∧
      Proven dec data (memberSegment data start (bodyStart + outcome.consumed + 8) label
        outcome.plain) := by
  obtain ⟨-, htrailer⟩ := h
  simp only [readTrailer, Option.bind_eq_bind, Option.bind_eq_some_iff, Option.some.injEq,
    Prod.mk.injEq] at htrailer
  obtain ⟨crc, hcrc, isize, hisize, rfl, rfl⟩ := htrailer
  have hle : bodyStart + outcome.consumed + 8 ≤ data.length := le_length_of_u32le hisize
  have hend := sourceEnd_memberSegment start label outcome.plain hle
  refine ⟨hle, hmagic, ?_, ?_, ?_, ?_⟩
  · rw [hend]
    change start + 8 ≤ _
    omega
  · rwa [hend]
  · rw [hend, Nat.add_sub_cancel]
    exact hcrc
  · rw [hend, Nat.add_sub_assoc (by decide)]
    exact hisize

/-! ## The loop -/

theorem memberTurn_kept {start next cursor cursor' : ℕ} {res out : SalvageResult}
    (h : Kept dec data cursor res) (hmagic : isMagic data start = true) (hcursor : cursor ≤ start)
    (hnext : start ≤ next) (hturn : memberTurn dec data start next res = some (out, cursor')) :
    Kept dec data cursor' out := by
  cases hheader : gzHeaderLen data start with
  | none =>
      obtain ⟨w, hmalformed⟩ := memberTurn_of_malformed dec next res hheader
      rw [hmalformed] at hturn
      cases hturn
      exact h.of_same (h.tallied.counted.warn w) rfl (hcursor.trans hnext)
  | some hlen =>
      obtain ⟨label, hjudged⟩ := memberTurn_of_header dec next res hheader
      rw [hjudged] at hturn
      rcases judge_cases dec data start (start + hlen) next label
        (inflated dec data (start + hlen)) (counted res) with
        ⟨-, hjudge⟩ | ⟨hmatch, hjudge⟩ | ⟨-, w, hjudge⟩
      · rw [hjudge] at hturn
        cases hturn
      · rw [hjudge] at hturn
        cases hturn
        obtain ⟨hend, hproven⟩ := proven_memberSegment label hmagic
          (Nat.le_add_right start hlen) hmatch
        have hcounted : Kept dec data cursor (counted res) :=
          h.of_same h.tallied.counted rfl (le_refl _)
        have hpush := hcounted.push rfl hproven hcursor
        rwa [sourceEnd_memberSegment start label _ hend] at hpush
      · rw [hjudge, unproven] at hturn
        obtain ⟨body, -, hbody⟩ := Option.bind_eq_some_iff.mp hturn
        cases hbody
        obtain ⟨htallied, hsame⟩ := salvageUnverified_spec (h.tallied.counted.warn w) start
          (start + hlen) (inflated dec data (start + hlen)).plain body
        exact h.of_same htallied hsame (hcursor.trans hnext)

theorem memberLoop_kept {starts : List ℕ} {cursor : ℕ} {res out : SalvageResult}
    (hsorted : starts.Pairwise (· < ·)) (hstarts : ∀ i ∈ starts, i ∈ memberStarts data)
    (h : Kept dec data cursor res) (hloop : memberLoop dec data starts cursor res = some out) :
    ∃ cursor', Kept dec data cursor' out := by
  induction starts generalizing cursor res with
  | nil =>
      cases hloop
      exact ⟨cursor, h⟩
  | cons start rest ih =>
      obtain ⟨hfirst, hsorted'⟩ := List.pairwise_cons.mp hsorted
      have hrest : ∀ i ∈ rest, i ∈ memberStarts data := fun i hi ↦
        hstarts i (List.mem_cons_of_mem _ hi)
      obtain ⟨hlt, hmagic⟩ := mem_memberStarts.mp (hstarts start List.mem_cons_self)
      have hnext : start ≤ nextStart data rest := by
        cases rest with
        | nil => exact (Nat.le_add_right _ 2).trans hlt.le
        | cons i rest => exact (hfirst i List.mem_cons_self).le
      rw [memberLoop] at hloop
      split at hloop
      · exact ih hsorted' hrest h hloop
      · rename_i hcursor
        obtain ⟨⟨mid, cursor'⟩, hturn, hloop⟩ := Option.bind_eq_some_iff.mp hloop
        exact ih hsorted' hrest
          (memberTurn_kept h hmagic (not_lt.mp hcursor) hnext hturn) hloop

theorem verifiedPayload_eq (res : SalvageResult) :
    res.verifiedPayload = (verifiedSegments res).flatMap Segment.bytes := by
  have hfold : ∀ (segs : List Segment) (out : Bytes),
      segs.foldl (fun out s ↦ if s.verified then out ++ s.bytes else out) out =
        out ++ (segs.filter Segment.verified).flatMap Segment.bytes := by
    intro segs
    induction segs with
    | nil =>
        intro out
        simp
    | cons s segs ih =>
        intro out
        rw [List.foldl_cons, ih]
        cases hs : s.verified with
        | true => simp [hs]
        | false => simp [hs]
  exact hfold res.segments []

/-- The result proves what it says. -/
structure Sound (dec : GzDecoder) (data : Bytes) (res : SalvageResult) : Prop where
  proven : ∀ s ∈ verifiedSegments res, Proven dec data s
  ordered : (verifiedSegments res).Pairwise fun s t ↦ s.sourceEnd ≤ t.sourceOffset
  tallied : Tallied res
  payload : res.verifiedPayload = (verifiedSegments res).flatMap Segment.bytes

/-- Whatever the salvage returns is sound. -/
theorem salvageGzip_sound {res : SalvageResult} (h : salvageGzip dec data = some res) :
    Sound dec data res := by
  have hkept : ∃ cursor, Kept dec data cursor res := by
    have hstart : Kept dec data 0 { format := "gzip" } :=
      ⟨⟨rfl, rfl, rfl⟩, by simp [verifiedSegments], by simp [verifiedSegments],
        by simp [verifiedSegments]⟩
    rw [salvageGzip] at h
    split at h
    · cases h
      exact ⟨0, hstart.of_same (hstart.tallied.warn _) rfl (le_refl _)⟩
    · obtain ⟨out, hloop, hout⟩ := Option.bind_eq_some_iff.mp h
      obtain ⟨cursor, hcursor⟩ := memberLoop_kept (memberStarts_sorted data) (fun _ hi ↦ hi)
        hstart hloop
      refine ⟨cursor, ?_⟩
      cases hout
      split
      · exact hcursor.of_same (hcursor.tallied.warn _) rfl (le_refl _)
      · exact hcursor
  obtain ⟨cursor, hcursor⟩ := hkept
  exact ⟨hcursor.proven, hcursor.ordered, hcursor.tallied, verifiedPayload_eq res⟩

/-- A decoder that knows the one-byte stored block. -/
def storedLetterDecoder : GzDecoder where
  reads body := if body.take 5 = [1, 1, 0, 0xFE, 0xFF] then
    [(.ok ((body.drop 5).take 1), 6), (.ok [], 6)] else [(.err, 0)]
  crc32 d := (Crc.crc32 d).toNat

/-- The member of the one byte 'a', stored. -/
def storedLetter : Bytes :=
  [0x1F, 0x8B, 0x08, 0, 0, 0, 0, 0, 0, 0xFF, 1, 1, 0, 0xFE, 0xFF, 0x61, 0x43, 0xBE, 0xB7, 0xE8,
    1, 0, 0, 0]

theorem salvageGzip_sound_storedLetter : ∃ res, salvageGzip storedLetterDecoder storedLetter =
    some res ∧ res.verifiedPayload = [0x61] ∧ Sound storedLetterDecoder storedLetter res := by
  have hsome : (salvageGzip storedLetterDecoder storedLetter).map (·.verifiedPayload) =
      some [0x61] := by decide
  obtain ⟨res, hres, hpayload⟩ := Option.map_eq_some_iff.mp hsome
  exact ⟨res, hres, hpayload, salvageGzip_sound hres⟩

end VeraqisRecover.Gzip
