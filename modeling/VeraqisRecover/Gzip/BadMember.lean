import VeraqisRecover.Gzip.Visited

/-!
# One damaged member among sound ones

A sound member is verified whenever it is visited, and it is visited unless an
earlier visit reaches past its start.  Only the visits inside of the damaged
member can do that, at magics its bytes show by accident.
-/

namespace VeraqisRecover.Gzip

open ByteString Tar

/-! ## Cursors -/

/-- No visit in front of `o` reaches past it. -/
def Clears (dec : GzDecoder) (data : Bytes) (o : ℕ) : Prop :=
  ∀ m ∈ allVisits dec data, m.1 < o → resume dec data m.1 m.2 ≤ o

/-- A member that proves just this span. -/
structure SoundAt (dec : GzDecoder) (data : Bytes) (span : ℕ × ℕ × Bytes) : Prop where
  start : span.1 ∈ memberStarts data
  proven : provenAt dec data span.1 = some span
  lt_end : span.1 < span.2.1

section Sound

variable {dec : GzDecoder} {data : Bytes} {span : ℕ × ℕ × Bytes}

theorem matches_of_provenAt {start : ℕ} (h : provenAt dec data start = some span) :
    ∃ hlen, gzHeaderLen data start = some hlen ∧
      Matches dec data (start + hlen) (inflated dec data (start + hlen)) ∧
        span.2.1 = start + hlen + (inflated dec data (start + hlen)).consumed + 8 := by
  rw [provenAt] at h
  split at h
  · cases h
  · rename_i hlen hheader
    dsimp only at h
    split at h
    · rename_i hmatch
      cases h
      exact ⟨hlen, hheader, hmatch, rfl⟩
    · cases h

theorem resume_of_provenAt {start next : ℕ} (h : provenAt dec data start = some span) :
    resume dec data start next = span.2.1 := by
  obtain ⟨hlen, hheader, hmatch, hend⟩ := matches_of_provenAt h
  rw [resume_of_matches hheader hmatch, hend]

theorem not_overruns_of_provenAt {start next : ℕ} (h : provenAt dec data start = some span) :
    ¬Overruns dec data start next := by
  obtain ⟨hlen, hheader, hmatch, -⟩ := matches_of_provenAt h
  rintro ⟨hlen', hheader', -, hno⟩
  rw [hheader] at hheader'
  obtain rfl := Option.some.inj hheader'
  exact hno hmatch

theorem SoundAt.visited (h : SoundAt dec data span) (hclear : Clears dec data span.1) :
    ∃ next, (span.1, next) ∈ allVisits dec data :=
  exists_visit (memberStarts_sorted data) h.start 0 (Nat.zero_le _) hclear

/-- The one visit to a sound member is at its start. -/
theorem SoundAt.start_eq (h : SoundAt dec data span) (hclear : Clears dec data span.1)
    {m : ℕ × ℕ} (hm : m ∈ allVisits dec data) (hlow : span.1 ≤ m.1) (hhigh : m.1 < span.2.1) :
    m.1 = span.1 := by
  obtain ⟨next, hvisit⟩ := h.visited hclear
  rcases Nat.lt_or_eq_of_le hlow with hlt | heq
  · have hle := resume_le_of_visited hvisit hm hlt
    rw [resume_of_provenAt h.proven] at hle
    omega
  · exact heq.symm

theorem SoundAt.clears (h : SoundAt dec data span) (hclear : Clears dec data span.1) :
    Clears dec data span.2.1 := by
  intro m hm hlt
  by_cases hbefore : m.1 < span.1
  · exact (hclear m hm hbefore).trans h.lt_end.le
  · have hstart := h.start_eq hclear hm (not_lt.mp hbefore) hlt
    rw [hstart, resume_of_provenAt h.proven]

theorem SoundAt.not_overruns (h : SoundAt dec data span) (hclear : Clears dec data span.1)
    {m : ℕ × ℕ} (hm : m ∈ allVisits dec data) (hlow : span.1 ≤ m.1) (hhigh : m.1 < span.2.1) :
    ¬Overruns dec data m.1 m.2 := by
  rw [h.start_eq hclear hm hlow hhigh]
  exact not_overruns_of_provenAt h.proven

end Sound

/-! ## Sound members one after another -/

/-- Sound members that fill the bytes from `o` to `e`. -/
def SoundChain (dec : GzDecoder) (data : Bytes) : ℕ → List (ℕ × ℕ × Bytes) → ℕ → Prop
  | o, [], e => o = e
  | o, span :: spans, e =>
      span.1 = o ∧ SoundAt dec data span ∧ SoundChain dec data span.2.1 spans e

section Chain

variable {dec : GzDecoder} {data : Bytes}

theorem SoundChain.le {o e : ℕ} {spans : List (ℕ × ℕ × Bytes)}
    (h : SoundChain dec data o spans e) : o ≤ e := by
  induction spans generalizing o with
  | nil => exact Nat.le_of_eq h
  | cons span spans ih =>
      obtain ⟨rfl, hsound, hrest⟩ := h
      exact hsound.lt_end.le.trans (ih hrest)

/-- What a cursor that clears the start of a chain means for the chain. -/
theorem SoundChain.spec {o e : ℕ} {spans : List (ℕ × ℕ × Bytes)}
    (h : SoundChain dec data o spans e) (hclear : Clears dec data o) :
    Clears dec data e ∧ (∀ span ∈ spans, ∃ next, (span.1, next) ∈ allVisits dec data) ∧
      ∀ m ∈ allVisits dec data, o ≤ m.1 → m.1 < e → ¬Overruns dec data m.1 m.2 := by
  induction spans generalizing o with
  | nil =>
      obtain rfl : o = e := h
      exact ⟨hclear, by simp, fun m _ hlow hhigh ↦ absurd hhigh (not_lt.mpr hlow)⟩
  | cons span spans ih =>
      obtain ⟨rfl, hsound, hrest⟩ := h
      obtain ⟨hend, hvisited, hsafe⟩ := ih hrest (hsound.clears hclear)
      refine ⟨hend, ?_, ?_⟩
      · intro t ht
        rcases List.mem_cons.mp ht with rfl | ht
        · exact hsound.visited hclear
        · exact hvisited t ht
      · intro m hm hlow hhigh
        by_cases hfirst : m.1 < span.2.1
        · exact hsound.not_overruns hclear hm hlow hfirst
        · exact hsafe m hm (not_lt.mp hfirst) hhigh

theorem SoundChain.sorted {o e : ℕ} {spans : List (ℕ × ℕ × Bytes)}
    (h : SoundChain dec data o spans e) :
    (∀ span ∈ spans, o ≤ span.1 ∧ span.1 < e ∧ provenAt dec data span.1 = some span) ∧
      spans.Pairwise fun s t ↦ s.1 < t.1 := by
  induction spans generalizing o with
  | nil => exact ⟨by simp, List.Pairwise.nil⟩
  | cons span spans ih =>
      obtain ⟨rfl, hsound, hrest⟩ := h
      obtain ⟨hmem, hpair⟩ := ih hrest
      have hle := hrest.le
      have hlt := hsound.lt_end
      refine ⟨?_, List.pairwise_cons.mpr ⟨?_, hpair⟩⟩
      · intro t ht
        rcases List.mem_cons.mp ht with rfl | ht
        · exact ⟨le_refl _, by omega, hsound.proven⟩
        · obtain ⟨hlow, hhigh, hproven⟩ := hmem t ht
          exact ⟨by omega, hhigh, hproven⟩
      · intro t ht
        have hlow := (hmem t ht).1
        omega

theorem provenSpans_sorted (vs : List (ℕ × ℕ)) (h : vs.Pairwise fun m n ↦ m.1 < n.1) :
    (provenSpans dec data vs).Pairwise fun s t ↦ s.1 < t.1 := by
  rw [provenSpans, List.pairwise_filterMap]
  apply h.imp
  intro m n hlt s hs t ht
  rw [provenAt_start hs, provenAt_start ht]
  exact hlt

theorem mem_provenSpans {vs : List (ℕ × ℕ)} {span : ℕ × ℕ × Bytes} {next : ℕ}
    (hvisit : (span.1, next) ∈ vs) (h : provenAt dec data span.1 = some span) :
    span ∈ provenSpans dec data vs :=
  List.mem_filterMap.mpr ⟨_, hvisit, h⟩

/-- Spans in order that are all among others in order. -/
theorem sublist_of_sorted {l₁ l₂ : List (ℕ × ℕ × Bytes)} (h₁ : l₁.Pairwise fun s t ↦ s.1 < t.1)
    (h₂ : l₂.Pairwise fun s t ↦ s.1 < t.1) (h : ∀ s ∈ l₁, s ∈ l₂) : l₁.Sublist l₂ := by
  have hnodup : l₁.Nodup := h₁.imp fun hlt heq ↦ by
    rw [heq] at hlt
    exact lt_irrefl _ hlt
  have hantisymm : Std.Antisymm fun s t : ℕ × ℕ × Bytes ↦ s.1 < t.1 :=
    ⟨fun s t hst hts ↦ absurd hst (not_lt.mpr hts.le)⟩
  exact List.sublist_of_subperm_of_pairwise (List.subperm_of_subset hnodup h) h₁ h₂

end Chain

/-! ## Members as they are written -/

/-- A member with a ten-byte header, and a body that inflates to its content whatever follows. -/
structure GzMember (dec : GzDecoder) where
  header : Bytes
  plain : Bytes
  body : Bytes
  length_header : header.length = 10
  magic : isMagic header 0 = true
  plainFlags : ∀ flags ∈ header[3]?, flags &&& 0x1E = 0
  inflates : ∀ rest, inflateMember dec (body ++ rest) = ⟨plain, body.length, true⟩

namespace GzMember

variable {dec : GzDecoder}

def bytes (m : GzMember dec) : Bytes := m.header ++ (m.body ++ trailerOf dec m.plain)

/-- The member with other bytes for its body. -/
def bytesWith (m : GzMember dec) (body : Bytes) : Bytes :=
  m.header ++ (body ++ trailerOf dec m.plain)

theorem length_bytes (m : GzMember dec) : m.bytes.length = 10 + m.body.length + 8 := by
  rw [bytes, List.length_append, List.length_append, m.length_header, length_trailerOf,
    Nat.add_assoc]

def spanAt (m : GzMember dec) (o : ℕ) : ℕ × ℕ × Bytes := (o, o + m.bytes.length, m.plain)

end GzMember

def gzipStream {dec : GzDecoder} (ms : List (GzMember dec)) : Bytes := ms.flatMap GzMember.bytes

/-- Where members that stand from `o` on lie, and what they hold. -/
def spansFrom {dec : GzDecoder} : ℕ → List (GzMember dec) → List (ℕ × ℕ × Bytes)
  | _, [] => []
  | o, m :: ms => m.spanAt o :: spansFrom (o + m.bytes.length) ms

section Header

variable {dec : GzDecoder} (m : GzMember dec) (pre rest : Bytes)

theorem isMagic_header : isMagic (pre ++ (m.header ++ rest)) pre.length = true := by
  have hlen := m.length_header
  have hmagic := m.magic
  have hat : At (pre ++ (m.header ++ rest)) pre.length m.header := by
    have hself := At.self_append pre (m.header ++ rest)
    exact (At.append_iff.mp hself).1
  have h₀ := hat.getElem? (k := 0) (by omega)
  have h₁ := hat.getElem? (k := 1) (by omega)
  have h₂ := hat.getElem? (k := 2) (by omega)
  rw [Nat.add_zero] at h₀
  rw [isMagic, h₀, h₁, h₂]
  exact hmagic

theorem and_eq_zero {flags mask : UInt8} (h : flags &&& 0x1E = 0) (hmask : 0x1E &&& mask = mask) :
    (flags &&& mask != 0) = false := by
  have hand : flags &&& mask = (flags &&& 0x1E) &&& mask := by
    rw [UInt8.and_assoc, hmask]
  rw [hand, h, UInt8.zero_and]
  rfl

/-- The header takes its ten bytes and no more. -/
theorem gzHeaderLen_header : gzHeaderLen (pre ++ (m.header ++ rest)) pre.length = some 10 := by
  have hlen := m.length_header
  have hat : At (pre ++ (m.header ++ rest)) pre.length m.header :=
    (At.append_iff.mp (At.self_append pre (m.header ++ rest))).1
  have hne : m.header ≠ [] := by
    intro hnil
    rw [hnil] at hlen
    cases hlen
  have hslice := hat.slice? hne
  rw [hlen] at hslice
  obtain ⟨flags, hflags⟩ : ∃ flags, m.header[3]? = some flags :=
    ⟨_, List.getElem?_eq_getElem (by omega)⟩
  have hplain := m.plainFlags flags hflags
  have hroom : ¬(pre ++ (m.header ++ rest)).length < pre.length + 10 := by
    rw [List.length_append, List.length_append, hlen]
    omega
  have hextra : (flags &&& 0x04 != 0) = false := and_eq_zero hplain (by decide)
  have hname : (flags &&& 0x08 != 0) = false := and_eq_zero hplain (by decide)
  have hcomment : (flags &&& 0x10 != 0) = false := and_eq_zero hplain (by decide)
  have hcrc : (flags &&& 0x02 != 0) = false := and_eq_zero hplain (by decide)
  rw [gzHeaderLen, hslice, Option.bind_eq_bind, Option.bind_some, m.magic, hflags]
  simp only [Option.bind_eq_bind, Option.bind_some, hextra, hname, hcomment, hcrc, skipIf,
    Bool.not_true, Bool.false_eq_true, if_false, if_neg hroom, Nat.add_sub_cancel_left]

theorem soundAt_member (hword : dec.WordSums) :
    SoundAt dec (pre ++ (m.bytes ++ rest)) (m.spanAt pre.length) := by
  have hlen := m.length_bytes
  have hassoc : pre ++ (m.bytes ++ rest) =
      pre ++ (m.header ++ (m.body ++ (trailerOf dec m.plain ++ rest))) := by
    rw [GzMember.bytes, List.append_assoc, List.append_assoc]
  have hdrop : (pre ++ (m.bytes ++ rest)).drop (pre.length + 10) =
      m.body ++ (trailerOf dec m.plain ++ rest) := by
    rw [hassoc, List.drop_length_add_append, ← m.length_header, List.drop_left]
  have houtcome : inflated dec (pre ++ (m.bytes ++ rest)) (pre.length + 10) =
      ⟨m.plain, m.body.length, true⟩ := by
    rw [inflated, hdrop]
    exact m.inflates _
  have hheader : gzHeaderLen (pre ++ (m.bytes ++ rest)) pre.length = some 10 := by
    rw [hassoc]
    exact gzHeaderLen_header m pre _
  have hat : At (pre ++ (m.bytes ++ rest)) (pre.length + 10 + m.body.length)
      (trailerOf dec m.plain) := by
    have hself := At.self_append pre (m.bytes ++ rest)
    rw [GzMember.bytes, List.append_assoc, At.append_iff, m.length_header, List.append_assoc,
      At.append_iff, At.append_iff, ← List.append_assoc m.body, ← List.append_assoc m.header]
      at hself
    exact hself.2.2.1
  have hmatch : Matches dec (pre ++ (m.bytes ++ rest)) (pre.length + 10)
      (inflated dec (pre ++ (m.bytes ++ rest)) (pre.length + 10)) := by
    rw [houtcome]
    exact ⟨rfl, readTrailer_trailerOf hword hat⟩
  refine ⟨?_, ?_, ?_⟩
  · rw [mem_memberStarts]
    refine ⟨?_, ?_⟩
    · change pre.length + 2 < _
      rw [List.length_append, List.length_append]
      omega
    · rw [hassoc]
      exact isMagic_header m pre _
  · refine (provenAt_of_matches hheader hmatch).trans ?_
    rw [houtcome, GzMember.spanAt, hlen]
    dsimp only
    congr 3
    omega
  · change pre.length < pre.length + m.bytes.length
    omega

theorem soundChain_stream (hword : dec.WordSums) (ms : List (GzMember dec)) (pre rest : Bytes) :
    SoundChain dec (pre ++ (gzipStream ms ++ rest)) pre.length (spansFrom pre.length ms)
      (pre.length + (gzipStream ms).length) := by
  induction ms generalizing pre with
  | nil => exact (Nat.add_zero _).symm
  | cons m ms ih =>
      have hstream : gzipStream (m :: ms) = m.bytes ++ gzipStream ms := rfl
      have hrest := ih (pre ++ m.bytes)
      rw [List.append_assoc, List.length_append] at hrest
      rw [hstream, List.append_assoc, List.length_append, ← Nat.add_assoc]
      exact ⟨rfl, soundAt_member m pre _ hword, hrest⟩

end Header

/-! ## The damage -/

/-- The stream in which one member has other bytes for its body. -/
def damagedStream {dec : GzDecoder} (before : List (GzMember dec)) (m : GzMember dec)
    (body : Bytes) (after : List (GzMember dec)) : Bytes :=
  gzipStream before ++ (m.bytesWith body ++ gzipStream after)

/-- Every other member is verified, in order, where it stands and with its content. -/
def OthersVerified {dec : GzDecoder} (before : List (GzMember dec)) (m : GzMember dec)
    (body : Bytes) (after : List (GzMember dec)) : Prop :=
  ∃ res, salvageGzip dec (damagedStream before m body after) = some res ∧
    (spansFrom 0 before ++
      spansFrom ((gzipStream before).length + m.bytes.length) after).Sublist
        ((verifiedSegments res).map spanOf)

/-- No start inside of the damaged member crashes the salvage or takes it past the member. -/
def StaysInside {dec : GzDecoder} (before : List (GzMember dec)) (m : GzMember dec)
    (body : Bytes) (after : List (GzMember dec)) : Prop :=
  ∀ v ∈ allVisits dec (damagedStream before m body after),
    (gzipStream before).length ≤ v.1 → v.1 < (gzipStream before).length + m.bytes.length →
      ¬Overruns dec (damagedStream before m body after) v.1 v.2 ∧
        resume dec (damagedStream before m body after) v.1 v.2 ≤
          (gzipStream before).length + m.bytes.length

section Damage

variable {dec : GzDecoder} {before after : List (GzMember dec)} {m : GzMember dec} {body : Bytes}

theorem length_bytesWith (hbody : body.length = m.body.length) :
    (m.bytesWith body).length = m.bytes.length := by
  rw [GzMember.bytesWith, GzMember.bytes, List.length_append, List.length_append,
    List.length_append, List.length_append, hbody]

/-- The members before the damage. -/
theorem soundChain_before (hword : dec.WordSums) :
    SoundChain dec (damagedStream before m body after) 0 (spansFrom 0 before)
      (gzipStream before).length := by
  have hchain := soundChain_stream hword before [] (m.bytesWith body ++ gzipStream after)
  rwa [List.nil_append, List.length_nil, Nat.zero_add] at hchain

/-- The members after the damage. -/
theorem soundChain_after (hword : dec.WordSums) (hbody : body.length = m.body.length) :
    SoundChain dec (damagedStream before m body after)
      ((gzipStream before).length + m.bytes.length)
      (spansFrom ((gzipStream before).length + m.bytes.length) after)
      (damagedStream before m body after).length := by
  have hchain := soundChain_stream hword after (gzipStream before ++ m.bytesWith body) []
  have hstart : (gzipStream before ++ m.bytesWith body).length =
      (gzipStream before).length + m.bytes.length := by
    rw [List.length_append, length_bytesWith hbody]
  have hlen : (damagedStream before m body after).length =
      (gzipStream before).length + m.bytes.length + (gzipStream after).length := by
    rw [damagedStream, ← List.append_assoc, List.length_append, hstart]
  rw [List.append_nil, List.append_assoc, hstart] at hchain
  rw [hlen]
  exact hchain

theorem next_le_length {data : Bytes} : ∀ v ∈ allVisits dec data, v.2 ≤ data.length := by
  have hall : ∀ (starts : List ℕ) (cursor : ℕ), (∀ i ∈ starts, i < data.length) →
      ∀ v ∈ visits dec data starts cursor, v.2 ≤ data.length := by
    intro starts
    induction starts with
    | nil => simp [visits]
    | cons start rest ih =>
        intro cursor hstarts v hv
        have hrest : ∀ i ∈ rest, i < data.length := fun i hi ↦
          hstarts i (List.mem_cons_of_mem _ hi)
        rw [visits] at hv
        split at hv
        · exact ih cursor hrest v hv
        · rcases List.mem_cons.mp hv with rfl | hv
          · exact nextStart_le hrest
          · exact ih _ hrest v hv
  apply hall
  intro i hi
  have hlt := (mem_memberStarts.mp hi).1
  omega

theorem resume_le_length {data : Bytes} {v : ℕ × ℕ} (hv : v ∈ allVisits dec data) :
    resume dec data v.1 v.2 ≤ data.length := by
  cases hheader : gzHeaderLen data v.1 with
  | none =>
      rw [resume, hheader]
      exact next_le_length v hv
  | some hlen =>
      by_cases h : Matches dec data (v.1 + hlen) (inflated dec data (v.1 + hlen))
      · rw [resume_of_matches hheader h]
        exact h.end_le
      · rw [resume_of_not_matches hheader h]
        exact next_le_length v hv

/-- A member behind the damage that is verified has not been reached past. -/
theorem staysInside_of_verified (hdec : dec.Bounded)
    (hsize : (damagedStream before m body after).length < 2 ^ 63)
    (hbody : body.length = m.body.length) (h : OthersVerified before m body after) :
    StaysInside before m body after := by
  obtain ⟨res, hres, hothers⟩ := h
  have hsafe := (salvageGzip_returns_iff hdec hsize).mp ⟨res, hres⟩
  rw [salvageGzip_verified hres] at hothers
  intro v hv hlow hhigh
  refine ⟨hsafe v hv, ?_⟩
  cases after with
  | nil =>
      have hle := resume_le_length hv
      have hend : (damagedStream before m body []).length =
          (gzipStream before).length + m.bytes.length := by
        rw [damagedStream, gzipStream, gzipStream, List.flatMap_nil, List.append_nil,
          List.length_append, length_bytesWith hbody]
      rwa [hend] at hle
  | cons a after =>
      have hspan : a.spanAt ((gzipStream before).length + m.bytes.length) ∈
          provenSpans dec (damagedStream before m body (a :: after))
            (allVisits dec (damagedStream before m body (a :: after))) :=
        hothers.subset (List.mem_append_right _ List.mem_cons_self)
      obtain ⟨w, hw, hproven⟩ := List.mem_filterMap.mp hspan
      have hstart : (gzipStream before).length + m.bytes.length = w.1 := provenAt_start hproven
      have hle := resume_le_of_visited hv hw (by omega)
      omega

/-- When the damage stays inside, every other member is visited and nothing crashes. -/
theorem verified_of_staysInside (hdec : dec.Bounded) (hword : dec.WordSums)
    (hsize : (damagedStream before m body after).length < 2 ^ 63)
    (hbody : body.length = m.body.length) (h : StaysInside before m body after) :
    OthersVerified before m body after := by
  have hbefore := @soundChain_before dec before after m body hword
  have hafter := @soundChain_after dec before after m body hword hbody
  obtain ⟨hclear, hvisitedBefore, hsafeBefore⟩ := hbefore.spec fun v _ hlt ↦
    absurd hlt (Nat.not_lt_zero _)
  have hpast : Clears dec (damagedStream before m body after)
      ((gzipStream before).length + m.bytes.length) := by
    intro v hv hlt
    by_cases hlow : v.1 < (gzipStream before).length
    · exact (hclear v hv hlow).trans (Nat.le_add_right _ _)
    · exact (h v hv (not_lt.mp hlow) hlt).2
  obtain ⟨-, hvisitedAfter, hsafeAfter⟩ := hafter.spec hpast
  have hsafe : ∀ v ∈ allVisits dec (damagedStream before m body after),
      ¬Overruns dec (damagedStream before m body after) v.1 v.2 := by
    intro v hv
    by_cases hlow : v.1 < (gzipStream before).length
    · exact hsafeBefore v hv (Nat.zero_le _) hlow
    · by_cases hhigh : v.1 < (gzipStream before).length + m.bytes.length
      · exact (h v hv (not_lt.mp hlow) hhigh).1
      · have hin := (mem_memberStarts.mp (allVisits_spec.1 v hv)).1
        exact hsafeAfter v hv (not_lt.mp hhigh) (by omega)
  obtain ⟨res, hres⟩ := (salvageGzip_returns_iff hdec hsize).mpr hsafe
  refine ⟨res, hres, ?_⟩
  rw [salvageGzip_verified hres]
  obtain ⟨hmemBefore, hpairBefore⟩ := hbefore.sorted
  obtain ⟨hmemAfter, hpairAfter⟩ := hafter.sorted
  apply sublist_of_sorted
  · rw [List.pairwise_append]
    refine ⟨hpairBefore, hpairAfter, ?_⟩
    intro s hs t ht
    have hs' := (hmemBefore s hs).2.1
    have ht' := (hmemAfter t ht).1
    omega
  · exact provenSpans_sorted _ (allVisits_spec.2.imp fun hlt ↦ hlt.1)
  · intro s hs
    rcases List.mem_append.mp hs with hs | hs
    · obtain ⟨next, hvisit⟩ := hvisitedBefore s hs
      exact mem_provenSpans hvisit (hmemBefore s hs).2.2
    · obtain ⟨next, hvisit⟩ := hvisitedAfter s hs
      exact mem_provenSpans hvisit (hmemAfter s hs).2.2

/-- One damaged body leaves every other member verified exactly when no start that the salvage
turns to inside of it crashes or reaches past the member's end. -/
theorem othersVerified_iff (hdec : dec.Bounded) (hword : dec.WordSums)
    (before after : List (GzMember dec)) (m : GzMember dec) (body : Bytes)
    (hbody : body.length = m.body.length)
    (hsize : (damagedStream before m body after).length < 2 ^ 63) :
    OthersVerified before m body after ↔ StaysInside before m body after :=
  ⟨staysInside_of_verified hdec hsize hbody, verified_of_staysInside hdec hword hsize hbody⟩

end Damage

/-! ## Two streams -/

theorem letterDecoder_wordSums : letterDecoder.WordSums := by
  intro plain
  rw [letterDecoder]
  exact BitVec.isLt _

/-- The member of the letter 'a'. -/
def letterMember : GzMember letterDecoder where
  header := [0x1F, 0x8B, 0x08, 0, 0, 0, 0, 0, 0, 0xFF]
  plain := [0x61]
  body := [1, 1, 0, 0xFE, 0xFF, 0x61]
  length_header := rfl
  magic := by decide
  plainFlags := by decide +kernel
  inflates := fun _ ↦ rfl

theorem othersVerified_iff_letters :
    OthersVerified [letterMember] letterMember (List.replicate 6 0) [letterMember] ↔
      StaysInside [letterMember] letterMember (List.replicate 6 0) [letterMember] :=
  othersVerified_iff letterDecoder_bounded letterDecoder_wordSums [letterMember] [letterMember]
    letterMember (List.replicate 6 0) rfl (by decide)

/-- The magic with an extra field, a name and a comment, which end in the next member. -/
def fakeMagic : Bytes := [0x1F, 0x8B, 0x08, 0x1C, 0, 0]

/-- The salvage crashes, and the sound member behind is lost. -/
theorem fakeMagic_crashes : ¬OthersVerified [] letterMember fakeMagic [letterMember] := by
  rintro ⟨res, hres, -⟩
  have hnone : salvageGzip letterDecoder (damagedStream [] letterMember fakeMagic
      [letterMember]) = none := by decide
  rw [hnone] at hres
  cases hres

end VeraqisRecover.Gzip
