import VeraqisRecover.Gzip.BadMember
import VeraqisRecover.Recovery.Engine

/-!
# Recomputing the GZIP trailer

`GzTrailerRecompute` of `gz_restore.rs` decodes the body of a file and rewrites
its last eight bytes.  The decoder stops at the end of the first stream, and
the salvage looks for the trailer right behind that.
-/

namespace VeraqisRecover.Recovery

open ByteString VeraqisRecover.Tar VeraqisRecover.Gzip

namespace GzTrailerRecompute

def name : String := "gz-trailer-recompute"

def handles (c : Corruption) : Bool := c.ruleId = "GZ_ICRC_001" || c.ruleId = "GZ_ISIZE_001"

def canApply (result : AnalysisResult) : Bool :=
  result.archiveFormat = some .gzip && result.corruptions.any handles

/-! ## The body -/

def passNulLoop : Bytes → ℕ → ℕ
  | [], pos => pos + 1
  | b :: rest, pos => if b ≠ 0 then passNulLoop rest (pos + 1) else pos + 1

/-- Past the next NUL, or one past the end of the data. -/
def passNul (data : Bytes) (pos : ℕ) : ℕ := passNulLoop (data.drop pos) pos

def passIf (c : Bool) (pass : ℕ → ℕ) (pos : ℕ) : ℕ := if c then pass pos else pos

/-- Where the body starts; the magic and the method are not looked at. -/
def gzBodyStart (data : Bytes) : ℕ :=
  if data.length < 10 then data.length
  else
    let flags := data[3]?.getD 0
    match skipIf (flags &&& 0x04 != 0) (skipExtra data) 10 with
    | none => data.length
    | some pos =>
        let pos := passIf (flags &&& 0x08 != 0) (passNul data) pos
        let pos := passIf (flags &&& 0x10 != 0) (passNul data) pos
        let pos := passIf (flags &&& 0x02 != 0) (· + 2) pos
        min pos data.length

/-- Everything between the header and the last eight bytes. -/
def bodyOf (data : Bytes) : Bytes := (data.take (data.length - 8)).drop (gzBodyStart data)

/-- The reads are gathered until one is empty or fails. -/
def readToEndLoop : List (ReadResult × ℕ) → Bytes → ℕ → InflateOutcome
  | [], plain, consumed => ⟨plain, consumed, true⟩
  | (.err, totalIn) :: _, plain, _ => ⟨plain, totalIn, false⟩
  | (.ok chunk, totalIn) :: rest, plain, _ =>
      if chunk = [] then ⟨plain, totalIn, true⟩ else readToEndLoop rest (plain ++ chunk) totalIn

def readToEnd (dec : GzDecoder) (body : Bytes) : InflateOutcome :=
  readToEndLoop (dec.reads body) [] 0

def decoded (dec : GzDecoder) (source : Bytes) : InflateOutcome := readToEnd dec (bodyOf source)

/-! ## The strategy -/

/-- `{n:08X}` -/
def hex8 (n : ℕ) : String :=
  let digits := (Nat.toDigits 16 n).map Char.toUpper
  String.ofList (List.replicate (8 - digits.length) '0' ++ digits)

/-- The file with the trailer of this content in its last eight bytes. -/
def retrailed (dec : GzDecoder) (source plain : Bytes) : Bytes :=
  source.take (source.length - 8) ++ trailerOf dec plain

/-- `describe` is the text of the decoder's error. -/
def apply (dec : GzDecoder) (describe : Bytes → String) (source : Bytes) :
    Except RecoveryError (Bytes × RecoveryReport) :=
  let report := { RecoveryReport.empty "" with strategiesApplied := [name] }
  if source.length < 18 then
    .ok ([], { report with
      success := false
      warnings := ["file too short for GZIP"] })
  else if source.length - 8 ≤ gzBodyStart source then
    .ok ([], { report with
      success := false
      warnings := ["GZIP body is empty or missing"] })
  else
    let outcome := decoded dec source
    if outcome.ok then
      .ok (retrailed dec source outcome.plain, { report with
        bytesRecovered := source.length
        success := true
        warnings := [s!"recomputed GZIP trailer: CRC32=0x{hex8 (dec.crc32 outcome.plain)} " ++
          s!"ISIZE={outcome.plain.length % 2 ^ 32}"] })
    else
      .ok ([], { report with
        success := false
        warnings := [s!"stream does not reach end-of-stream ({outcome.plain.length} B decoded): " ++
          s!"{describe (bodyOf source)}; " ++
          "refusing to rewrite the trailer of an incomplete stream"] })

end GzTrailerRecompute

/-- Recompute the trailer of a GZIP file from what its body decodes to. -/
def gzTrailerRecompute (dec : GzDecoder) (describe : Bytes → String) : RecoveryStrategy where
  name := GzTrailerRecompute.name
  technique := "GzTrailerRecompute"
  risk := .inferred
  priority := 82
  handles := GzTrailerRecompute.handles
  canApply := GzTrailerRecompute.canApply
  predictedOutcome := fun _ ↦
    "decompress the stream, recompute CRC32 and ISIZE, rewrite the 8-byte trailer"
  apply := GzTrailerRecompute.apply dec describe

theorem gzTrailerRecompute_reportsItself (dec : GzDecoder) (describe : Bytes → String) :
    (gzTrailerRecompute dec describe).ReportsItself := by
  intro source staged report hrun
  simp only [gzTrailerRecompute, GzTrailerRecompute.apply] at hrun
  split at hrun
  · obtain ⟨-, rfl⟩ := Prod.mk.inj (Except.ok.inj hrun)
    exact ⟨rfl, rfl⟩
  · split at hrun
    · obtain ⟨-, rfl⟩ := Prod.mk.inj (Except.ok.inj hrun)
      exact ⟨rfl, rfl⟩
    · split at hrun
      · obtain ⟨-, rfl⟩ := Prod.mk.inj (Except.ok.inj hrun)
        exact ⟨rfl, rfl⟩
      · obtain ⟨-, rfl⟩ := Prod.mk.inj (Except.ok.inj hrun)
        exact ⟨rfl, rfl⟩

namespace GzTrailerRecompute

/-- A file on which the strategy writes. -/
structure Rewrites (dec : GzDecoder) (source : Bytes) : Prop where
  long : 18 ≤ source.length
  body : gzBodyStart source < source.length - 8
  ended : (decoded dec source).ok = true

theorem rewrites_of_apply {dec : GzDecoder} {describe : Bytes → String} {source output : Bytes}
    {report : RecoveryReport} (h : apply dec describe source = .ok (output, report))
    (hwrote : output ≠ []) :
    Rewrites dec source ∧ output = retrailed dec source (decoded dec source).plain := by
  rw [apply] at h
  split at h
  · obtain ⟨rfl, -⟩ := Prod.mk.inj (Except.ok.inj h)
    exact absurd rfl hwrote
  · rename_i hlong
    split at h
    · obtain ⟨rfl, -⟩ := Prod.mk.inj (Except.ok.inj h)
      exact absurd rfl hwrote
    · rename_i hbody
      dsimp only at h
      split at h
      · rename_i hended
        obtain ⟨rfl, -⟩ := Prod.mk.inj (Except.ok.inj h)
        exact ⟨⟨not_lt.mp hlong, not_le.mp hbody, hended⟩, rfl⟩
      · obtain ⟨rfl, -⟩ := Prod.mk.inj (Except.ok.inj h)
        exact absurd rfl hwrote

theorem apply_of_rewrites {dec : GzDecoder} {source : Bytes} (h : Rewrites dec source)
    (describe : Bytes → String) : ∃ report, apply dec describe source =
      .ok (retrailed dec source (decoded dec source).plain, report) := by
  have hended := h.ended
  rw [apply, if_neg (not_lt.mpr h.long), if_neg (not_le.mpr h.body)]
  dsimp only
  rw [if_pos hended]
  exact ⟨_, rfl⟩

/-! ## The header of what is written -/

theorem lt_passNulLoop (bs : Bytes) (pos : ℕ) : pos < passNulLoop bs pos := by
  induction bs generalizing pos with
  | nil => exact Nat.lt_succ_self pos
  | cons b rest ih =>
      rw [passNulLoop]
      split
      · exact (Nat.lt_succ_self pos).trans (ih (pos + 1))
      · exact Nat.lt_succ_self pos

/-- A NUL among the first `n` bytes is found whatever follows them. -/
theorem skipZstringLoop_of_pass (t : Bytes) {bs : Bytes} {n pos : ℕ} (hn : n ≤ bs.length)
    (h : passNulLoop bs pos ≤ pos + n) :
    skipZstringLoop (bs.take n ++ t) pos = some (passNulLoop bs pos) := by
  induction bs generalizing n pos with
  | nil =>
      obtain rfl := Nat.le_zero.mp hn
      exact absurd h (not_le.mpr (lt_passNulLoop [] pos))
  | cons b rest ih =>
      cases n with
      | zero => exact absurd h (not_le.mpr (lt_passNulLoop (b :: rest) pos))
      | succ n =>
          rw [passNulLoop] at h ⊢
          rw [List.take_succ_cons, List.cons_append, skipZstringLoop]
          split
          · rename_i hb
            rw [if_pos hb] at h
            apply ih (Nat.le_of_succ_le_succ hn)
            omega
          · rfl

section Header

variable {source output : Bytes} {n : ℕ}

theorem lt_passNul (pos : ℕ) : pos < passNul source pos := lt_passNulLoop _ pos

theorem skipZstring_of_passNul (hsame : SamePrefix n source output) {pos : ℕ}
    (h : passNul source pos ≤ n) : skipZstring output pos = some (passNul source pos) := by
  have hpos : pos < n := (lt_passNul pos).trans_le h
  have hsplit : output = source.take n ++ output.drop n := by
    rw [hsame.take_eq, List.take_append_drop]
  have hdrop : output.drop pos = (source.drop pos).take (n - pos) ++ output.drop n := by
    have htake : pos ≤ (source.take n).length := by
      rw [List.length_take, min_eq_left hsame.left]
      exact hpos.le
    rw [← List.drop_take, ← List.drop_append_of_le_length htake, ← hsplit]
  rw [skipZstring, hdrop]
  apply skipZstringLoop_of_pass
  · rw [List.length_drop]
    exact Nat.sub_le_sub_right hsame.left pos
  · rw [Nat.add_sub_cancel' hpos.le]
    exact h

theorem le_passIf {c : Bool} {pass : ℕ → ℕ} {pos : ℕ} (h : pos ≤ pass pos) :
    pos ≤ passIf c pass pos := by
  cases c with
  | false => exact le_refl pos
  | true => exact h

theorem skipIf_of_passIf {c : Bool} {skip : ℕ → Option ℕ} {pass : ℕ → ℕ} {pos : ℕ}
    (hskip : pass pos ≤ n → skip pos = some (pass pos)) (h : passIf c pass pos ≤ n) :
    skipIf c skip pos = some (passIf c pass pos) := by
  cases c with
  | false => rfl
  | true => exact hskip h

theorem skipIf_skipExtra (hsame : SamePrefix n source output) {c : Bool} {pos : ℕ}
    (h : skipIf c (skipExtra source) 10 = some pos) (hpos : pos ≤ n) :
    skipIf c (skipExtra output) 10 = some pos := by
  cases c with
  | false => exact h
  | true =>
      obtain ⟨len, hlen, rfl⟩ := Option.map_eq_some_iff.mp h
      have hread : u16le output 10 = some len := by
        rw [← hsame.u16le_eq (by omega), hlen]
      exact Option.map_eq_some_iff.mpr ⟨len, hread, rfl⟩

/-- The salvage sees the body of the rewritten file where the strategy saw it. -/
theorem gzHeaderLen_of_samePrefix (hsame : SamePrefix n source output)
    (hmagic : isMagic source 0 = true) (hten : 10 ≤ n) (hn : n < source.length)
    (hbody : gzBodyStart source ≤ n) : gzHeaderLen output 0 = some (gzBodyStart source) := by
  obtain ⟨h, hslice⟩ : ∃ h, slice? output 0 10 = some h :=
    ⟨_, slice?_eq_some.mpr ⟨⟨by omega, hten.trans hsame.right⟩, rfl⟩⟩
  have hbyte : ∀ k < 10, h[k]? = source[k]? := by
    intro k hk
    obtain ⟨-, rfl⟩ := slice?_eq_some.mp hslice
    rw [List.drop_zero, List.getElem?_take_of_lt hk, hsame.getElem?_eq (hk.trans_le hten)]
  have hhead : isMagic h 0 = true := by
    rw [← hmagic, isMagic, isMagic, hbyte 0 (by omega), hbyte (0 + 1) (by omega),
      hbyte (0 + 2) (by omega)]
  obtain ⟨flags, hflags⟩ : ∃ flags, source[3]? = some flags :=
    ⟨_, List.getElem?_eq_getElem (by omega)⟩
  rw [gzBodyStart, if_neg (by omega), hflags] at hbody ⊢
  dsimp only [Option.getD_some] at hbody ⊢
  cases hextra : skipIf (flags &&& 0x04 != 0) (skipExtra source) 10 with
  | none =>
      rw [hextra] at hbody
      exact absurd hbody (not_le.mpr hn)
  | some p =>
      rw [hextra] at hbody
      dsimp only at hbody ⊢
      set q := passIf (flags &&& 0x08 != 0) (passNul source) p with hq
      set r := passIf (flags &&& 0x10 != 0) (passNul source) q with hr
      set t := passIf (flags &&& 0x02 != 0) (· + 2) r with ht
      have hpq : p ≤ q := le_passIf (lt_passNul p).le
      have hqr : q ≤ r := le_passIf (lt_passNul q).le
      have hrt : r ≤ t := le_passIf (Nat.le_add_right r 2)
      have htn : t ≤ n := by omega
      have hname : skipIf (flags &&& 0x08 != 0) (skipZstring output) p = some q :=
        skipIf_of_passIf (skipZstring_of_passNul hsame) (by omega)
      have hcomment : skipIf (flags &&& 0x10 != 0) (skipZstring output) q = some r :=
        skipIf_of_passIf (skipZstring_of_passNul hsame) (by omega)
      have hcrc : skipIf (flags &&& 0x02 != 0) (fun pos ↦ some (pos + 2)) r = some t :=
        skipIf_of_passIf (fun _ ↦ rfl) htn
      have hroom : ¬output.length < t := not_lt.mpr (htn.trans hsame.right)
      rw [min_eq_left (htn.trans hn.le), gzHeaderLen, Nat.zero_add, hslice]
      simp only [Option.bind_eq_bind, Option.bind_some, hhead, hbyte 3 (by omega), hflags,
        skipIf_skipExtra hsame hextra (by omega), hname, hcomment, hcrc, if_neg hroom,
        Bool.not_true, Bool.false_eq_true, if_false, Nat.sub_zero]

end Header

/-! ## The content of what is written -/

theorem length_le_readToEndLoop (reads : List (ReadResult × ℕ)) (plain : Bytes) (consumed : ℕ) :
    plain.length ≤ (readToEndLoop reads plain consumed).plain.length := by
  induction reads generalizing plain consumed with
  | nil => exact le_refl _
  | cons x rest ih =>
      obtain ⟨result, totalIn⟩ := x
      cases result with
      | err => exact le_refl _
      | ok chunk =>
          rw [readToEndLoop]
          split
          · exact le_refl _
          · have hle := ih (plain ++ chunk) totalIn
            rw [List.length_append] at hle
            omega

/-- Up to the cap the salvage inflates what reading to the end gives; beyond it gives up. -/
theorem inflateLoop_of_readToEnd {reads : List (ReadResult × ℕ)} {plain : Bytes} {consumed : ℕ}
    (hplain : plain.length ≤ maxMemberBytes)
    (h : (readToEndLoop reads plain consumed).ok = true) :
    ((readToEndLoop reads plain consumed).plain.length ≤ maxMemberBytes ∧
        inflateLoop reads plain consumed = readToEndLoop reads plain consumed) ∨
      (maxMemberBytes < (readToEndLoop reads plain consumed).plain.length ∧
        (inflateLoop reads plain consumed).ok = false) := by
  induction reads generalizing plain consumed with
  | nil => exact .inl ⟨hplain, rfl⟩
  | cons x rest ih =>
      obtain ⟨result, totalIn⟩ := x
      cases result with
      | err => cases h
      | ok chunk =>
          rw [readToEndLoop] at h ⊢
          rw [inflateLoop]
          by_cases hchunk : chunk = []
          · rw [if_pos hchunk, if_pos hchunk]
            exact .inl ⟨hplain, rfl⟩
          · rw [if_neg hchunk] at h ⊢
            rw [if_neg hchunk]
            by_cases hcap : maxMemberBytes < (plain ++ chunk).length
            · rw [if_pos hcap]
              exact .inr ⟨hcap.trans_le (length_le_readToEndLoop _ _ _), rfl⟩
            · rw [if_neg hcap]
              exact ih (not_lt.mp hcap) h

/-- The decoder stops at the end of its stream, whatever follows. -/
def StopsAtEnd (dec : GzDecoder) : Prop :=
  ∀ body rest, (readToEnd dec body).ok = true → readToEnd dec (body ++ rest) = readToEnd dec body

/-- Of the source only the last eight bytes change, and the salvage verifies a member at the
front that holds the decoded body. -/
structure YieldsVerifiable (dec : GzDecoder) (source output : Bytes) : Prop where
  length : output.length = source.length
  kept : ∀ x < source.length - 8, output[x]? = source[x]?
  verified : ∃ res, salvageGzip dec output = some res ∧ ∃ s ∈ verifiedSegments res,
    s.sourceOffset = 0 ∧ s.bytes = (decoded dec source).plain

/-- Where the DEFLATE stream ends. -/
def streamEnd (dec : GzDecoder) (source : Bytes) : ℕ :=
  gzBodyStart source + (decoded dec source).consumed

/-- The bytes behind the stream are its trailer, and nothing behind them crashes the salvage. -/
structure FoundEarly (dec : GzDecoder) (source : Bytes) (file : Bytes) : Prop where
  trailer : readTrailer file (streamEnd dec source) =
    some (dec.crc32 (decoded dec source).plain, (decoded dec source).plain.length % 2 ^ 32)
  safe : ∀ m ∈ allVisits dec file, ¬Overruns dec file m.1 m.2

/-- The salvage knows the method, inflates the whole stream, and finds the trailer behind it. -/
structure Locates (dec : GzDecoder) (source : Bytes) : Prop where
  method : source[2]? = some 0x08
  capped : (decoded dec source).plain.length ≤ maxMemberBytes
  trailer : streamEnd dec source = source.length - 8 ∨
    FoundEarly dec source (retrailed dec source (decoded dec source).plain)

section Written

variable {dec : GzDecoder} {source : Bytes}

theorem samePrefix_retrailed (plain : Bytes) :
    SamePrefix (source.length - 8) source (retrailed dec source plain) :=
  SamePrefix.take_append (Nat.sub_le _ _) _

theorem length_retrailed (h : Rewrites dec source) (plain : Bytes) :
    (retrailed dec source plain).length = source.length := by
  have hlong := h.long
  rw [retrailed, List.length_append, length_trailerOf, List.length_take]
  omega

/-- In what is written the salvage inflates the body and the trailer behind it. -/
theorem inflated_retrailed (hstops : StopsAtEnd dec) (h : Rewrites dec source) (plain : Bytes) :
    ((decoded dec source).plain.length ≤ maxMemberBytes ∧
        inflated dec (retrailed dec source plain) (gzBodyStart source) = decoded dec source) ∨
      (maxMemberBytes < (decoded dec source).plain.length ∧
        (inflated dec (retrailed dec source plain) (gzBodyStart source)).ok = false) := by
  have hbody := h.body
  have hdrop : (retrailed dec source plain).drop (gzBodyStart source) =
      bodyOf source ++ trailerOf dec plain := by
    apply List.drop_append_of_le_length
    rw [List.length_take]
    omega
  have hsame : readToEnd dec (bodyOf source ++ trailerOf dec plain) = decoded dec source :=
    hstops (bodyOf source) (trailerOf dec plain) h.ended
  have hended : (readToEnd dec (bodyOf source ++ trailerOf dec plain)).ok = true := by
    rw [hsame]
    exact h.ended
  rw [inflated, hdrop, inflateMember, ← hsame]
  exact inflateLoop_of_readToEnd (Nat.zero_le _) hended

theorem isMagic_of_method (h₀ : source[0]? = some 0x1F) (h₁ : source[1]? = some 0x8B) :
    isMagic source 0 = true ↔ source[2]? = some 0x08 := by
  simp [isMagic, h₀, h₁]

theorem isMagic_retrailed (h : Rewrites dec source) (plain : Bytes) :
    isMagic (retrailed dec source plain) 0 = isMagic source 0 := by
  have hlong := h.long
  have hsame := @samePrefix_retrailed dec source plain
  rw [isMagic, isMagic, hsame.getElem?_eq (i := 0) (by omega),
    hsame.getElem?_eq (i := 0 + 1) (by omega), hsame.getElem?_eq (i := 0 + 2) (by omega)]

theorem gzHeaderLen_retrailed (hmagic : isMagic source 0 = true) (h : Rewrites dec source)
    (plain : Bytes) : gzHeaderLen (retrailed dec source plain) 0 = some (gzBodyStart source) := by
  have hlong := h.long
  apply gzHeaderLen_of_samePrefix (samePrefix_retrailed plain) hmagic _ _ h.body.le
  · omega
  · omega

/-- A verified member at the front has been found behind the stream of the body. -/
theorem locates_of_yieldsVerifiable (hdec : dec.Bounded) (hstops : StopsAtEnd dec)
    (h₀ : source[0]? = some 0x1F) (h₁ : source[1]? = some 0x8B) (hsize : source.length < 2 ^ 63)
    (h : Rewrites dec source)
    (hyields : YieldsVerifiable dec source (retrailed dec source (decoded dec source).plain)) :
    Locates dec source := by
  obtain ⟨res, hres, s, hs, hoffset, -⟩ := hyields.verified
  have hspan := List.mem_map_of_mem (f := spanOf) hs
  rw [salvageGzip_verified hres] at hspan
  obtain ⟨m, hm, hproven⟩ := List.mem_filterMap.mp hspan
  have hstart : m.1 = 0 := (provenAt_start hproven).symm.trans hoffset
  have hmagic := (mem_memberStarts.mp (allVisits_spec.1 m hm)).2
  rw [hstart, isMagic_retrailed h] at hmagic
  obtain ⟨hlen, hheader, hmatch, -⟩ := matches_of_provenAt hproven
  rw [hstart, gzHeaderLen_retrailed hmagic h] at hheader
  obtain rfl := Option.some.inj hheader
  rw [hstart, Nat.zero_add] at hmatch
  rcases inflated_retrailed hstops h (decoded dec source).plain with
    ⟨hcapped, hinflated⟩ | ⟨-, hgaveUp⟩
  · rw [hinflated] at hmatch
    have hlength := length_retrailed h (decoded dec source).plain
    refine ⟨(isMagic_of_method h₀ h₁).mp hmagic, hcapped, .inr ⟨hmatch.2, ?_⟩⟩
    exact (salvageGzip_returns_iff hdec (by rwa [hlength])).mp ⟨res, hres⟩
  · have hended := hmatch.1
    rw [hgaveUp] at hended
    cases hended

/-- The trailer stands behind the stream when that ends where the last eight bytes begin. -/
theorem readTrailer_of_streamEnd (hword : dec.WordSums) (h : Rewrites dec source)
    (hend : streamEnd dec source = source.length - 8) (plain : Bytes) :
    readTrailer (retrailed dec source plain) (streamEnd dec source) =
      some (dec.crc32 plain, plain.length % 2 ^ 32) := by
  have hlong := h.long
  have hlen : (source.take (source.length - 8)).length = streamEnd dec source := by
    rw [List.length_take, hend]
    omega
  apply readTrailer_trailerOf hword
  rw [← hlen]
  exact At.self_append _ _

/-- The first member of what is written is proven, and ends with its trailer. -/
theorem provenAt_retrailed (hword : dec.WordSums) (hstops : StopsAtEnd dec)
    (hmagic : isMagic source 0 = true) (h : Rewrites dec source) (hlocates : Locates dec source) :
    provenAt dec (retrailed dec source (decoded dec source).plain) 0 =
      some (0, streamEnd dec source + 8, (decoded dec source).plain) := by
  have hheader := gzHeaderLen_retrailed hmagic h (decoded dec source).plain
  set output := retrailed dec source (decoded dec source).plain
  have hinflated : inflated dec output (0 + gzBodyStart source) = decoded dec source := by
    rw [Nat.zero_add]
    rcases inflated_retrailed hstops h (decoded dec source).plain with
      ⟨-, hinflated⟩ | ⟨hover, -⟩
    · exact hinflated
    · exact absurd hlocates.capped (not_le.mpr hover)
  have hmatch : Matches dec output (0 + gzBodyStart source)
      (inflated dec output (0 + gzBodyStart source)) := by
    rw [hinflated, Nat.zero_add]
    refine ⟨h.ended, ?_⟩
    rcases hlocates.trailer with hend | hearly
    · exact readTrailer_of_streamEnd hword h hend _
    · exact hearly.trailer
  rw [provenAt_of_matches hheader hmatch, hinflated, Nat.zero_add, streamEnd]

theorem yieldsVerifiable_of_locates (hdec : dec.Bounded) (hword : dec.WordSums)
    (hstops : StopsAtEnd dec) (h₀ : source[0]? = some 0x1F) (h₁ : source[1]? = some 0x8B)
    (hsize : source.length < 2 ^ 63) (h : Rewrites dec source) (hlocates : Locates dec source) :
    YieldsVerifiable dec source (retrailed dec source (decoded dec source).plain) := by
  have hlong := h.long
  have hlength := length_retrailed h (decoded dec source).plain
  have hmagic := (isMagic_of_method h₀ h₁).mpr hlocates.method
  have hproven := provenAt_retrailed hword hstops hmagic h hlocates
  set output := retrailed dec source (decoded dec source).plain with houtput
  have hzero : 0 ∈ memberStarts output := by
    rw [mem_memberStarts]
    refine ⟨by omega, ?_⟩
    rw [houtput, isMagic_retrailed h]
    exact hmagic
  obtain ⟨next, hvisit⟩ := exists_visit (memberStarts_sorted output) hzero 0 (le_refl 0)
    fun m _ hlt ↦ absurd hlt (Nat.not_lt_zero m.1)
  have hsafe : ∀ m ∈ allVisits dec output, ¬Overruns dec output m.1 m.2 := by
    rcases hlocates.trailer with hend | hearly
    · intro m hm
      rcases Nat.eq_zero_or_pos m.1 with hfirst | hlater
      · rw [hfirst]
        exact not_overruns_of_provenAt hproven
      · -- the first member takes the cursor to the end of the file
        have hpast := resume_le_of_visited hvisit hm hlater
        have hin := (mem_memberStarts.mp (allVisits_spec.1 m hm)).1
        rw [resume_of_provenAt hproven] at hpast
        dsimp only at hpast
        omega
    · exact hearly.safe
  obtain ⟨res, hres⟩ := (salvageGzip_returns_iff hdec (by rwa [hlength])).mpr hsafe
  have hspan : (0, streamEnd dec source + 8, (decoded dec source).plain) ∈
      provenSpans dec output (allVisits dec output) :=
    mem_provenSpans hvisit hproven
  rw [allVisits, ← salvageGzip_verified hres] at hspan
  obtain ⟨s, hs, hspanOf⟩ := List.mem_map.mp hspan
  refine ⟨hlength, ?_, res, hres, s, hs, congrArg Prod.fst hspanOf, ?_⟩
  · intro x hx
    exact ((samePrefix_retrailed _).getElem?_eq hx).symm
  · exact congrArg (fun span ↦ span.2.2) hspanOf

/-- A rewritten file has a verifiable first member exactly when the salvage knows its method, the
content is within the cap, and the stream ends where the last eight bytes begin or, ending
earlier, has its trailer behind it and nothing that crashes the salvage. -/
theorem apply_yieldsVerifiable_iff (describe : Bytes → String) (hdec : dec.Bounded)
    (hword : dec.WordSums) (hstops : StopsAtEnd dec) (h₀ : source[0]? = some 0x1F)
    (h₁ : source[1]? = some 0x8B) (hsize : source.length < 2 ^ 63) (output : Bytes)
    (report : RecoveryReport) (happly : apply dec describe source = .ok (output, report))
    (hwrote : output ≠ []) : YieldsVerifiable dec source output ↔ Locates dec source := by
  obtain ⟨h, rfl⟩ := rewrites_of_apply happly hwrote
  exact ⟨locates_of_yieldsVerifiable hdec hstops h₀ h₁ hsize h,
    yieldsVerifiable_of_locates hdec hword hstops h₀ h₁ hsize h⟩

end Written

/-! ## Two files -/

theorem letterDecoder_stopsAtEnd : StopsAtEnd letterDecoder := by
  intro body rest h
  rw [readToEnd, letterDecoder] at h
  dsimp only at h
  split at h
  · rename_i htake
    have hlen := congrArg List.length htake
    rw [List.length_take] at hlen
    change min 6 body.length = 6 at hlen
    have hsame : (body ++ rest).take 6 = body.take 6 :=
      List.take_append_of_le_length (by omega)
    rw [readToEnd, readToEnd, letterDecoder]
    dsimp only
    rw [hsame]
  · cases h

/-- The member of the letter 'a' without its trailer. -/
def unsealedLetter : Bytes :=
  letterMember.header ++ (letterMember.body ++ List.replicate 8 0)

theorem apply_yieldsVerifiable_iff_letter :
    YieldsVerifiable letterDecoder unsealedLetter letterMember.bytes ↔
      Locates letterDecoder unsealedLetter := by
  have hrewrites : Rewrites letterDecoder unsealedLetter :=
    ⟨by decide, by decide, by decide⟩
  obtain ⟨report, happly⟩ := apply_of_rewrites hrewrites fun _ ↦ "corrupt deflate stream"
  have hwritten : retrailed letterDecoder unsealedLetter
      (decoded letterDecoder unsealedLetter).plain = letterMember.bytes := by
    decide
  rw [hwritten] at happly
  exact apply_yieldsVerifiable_iff (fun _ ↦ "corrupt deflate stream") letterDecoder_bounded
    letterDecoder_wordSums letterDecoder_stopsAtEnd rfl rfl (by decide)
    letterMember.bytes report happly (by decide)

/-- The same member with another one behind it. -/
def unsealedPair : Bytes := unsealedLetter ++ letterMember.bytes

/-- The trailer is written behind the second member, and the first stays unproven. -/
theorem unsealedPair_not_verifiable : ∃ output report,
    apply letterDecoder (fun _ ↦ "corrupt deflate stream") unsealedPair = .ok (output, report) ∧
      output ≠ [] ∧ ¬YieldsVerifiable letterDecoder unsealedPair output := by
  have hrewrites : Rewrites letterDecoder unsealedPair :=
    ⟨by decide, by decide, by decide⟩
  obtain ⟨report, happly⟩ := apply_of_rewrites hrewrites fun _ ↦ "corrupt deflate stream"
  have hwritten : retrailed letterDecoder unsealedPair
      (decoded letterDecoder unsealedPair).plain = unsealedPair := by
    decide
  rw [hwritten] at happly
  refine ⟨unsealedPair, report, happly, by decide, ?_⟩
  intro hyields
  obtain ⟨res, hres, s, hs, hoffset, -⟩ := hyields.verified
  have hoffsets : (salvageGzip letterDecoder unsealedPair).map
      (fun res ↦ (verifiedSegments res).map Segment.sourceOffset) = some [24] := by
    decide +kernel
  rw [hres] at hoffsets
  have honly : (verifiedSegments res).map Segment.sourceOffset = [24] := Option.some.inj hoffsets
  have hmem := List.mem_map_of_mem (f := Segment.sourceOffset) hs
  rw [honly, List.mem_singleton, hoffset] at hmem
  cases hmem

end GzTrailerRecompute

end VeraqisRecover.Recovery
