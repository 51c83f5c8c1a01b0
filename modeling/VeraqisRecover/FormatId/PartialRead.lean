import VeraqisRecover.Analyze.Source
import VeraqisRecover.FormatId.Table

/-!
# Identification from part of a file

Of a file the first and the last bytes may be all that is read.  A rule whose window was not
supplied stays silent, and a later rule may then be the first to fire.
-/

namespace VeraqisRecover.FormatId

open ByteString Analyze

/-- The first `h` and the last `t` bytes of a file, with its true length. -/
def supply (file : DataSource) (h t : ℕ) : FileBytes :=
  ⟨file.bytes.take h, file.bytes.rtake t, file.len⟩

namespace Signature

/-- The rule matches the whole file. -/
def Fits (s : Signature) (file : DataSource) : Prop := s.fires (.whole file.bytes) = true

instance (s : Signature) (file : DataSource) : Decidable (s.Fits file) :=
  inferInstanceAs (Decidable (s.fires (.whole file.bytes) = true))

/-- The window of the rule lies in the first `h` or the last `t` bytes. -/
def Supplied (s : Signature) (h t : ℕ) : Prop :=
  match s.anchor with
  | .start offset => offset + s.magic.length ≤ h
  | .fromEnd back => back ≤ t

instance (s : Signature) (h t : ℕ) : Decidable (s.Supplied h t) := by
  unfold Supplied
  split <;> exact Nat.decLe _ _

end Signature

/-! ## Windows -/

theorem slice?_eq_magic {d m : Bytes} {o : ℕ} :
    slice? d o (o + m.length) = some m ↔ m <+: d.drop o ∧ o + m.length ≤ d.length := by
  unfold slice?
  rw [Option.ite_none_right_eq_some, Nat.add_sub_cancel_left, Option.some.injEq,
    List.prefix_iff_eq_take, eq_comm (a := m)]
  constructor
  · rintro ⟨⟨-, hle⟩, htake⟩
    exact ⟨htake, hle⟩
  · rintro ⟨htake, hle⟩
    exact ⟨⟨Nat.le_add_right o _, hle⟩, htake⟩

theorem window_start {b : FileBytes} {o : ℕ} {m : Bytes} (ho : o + m.length ≤ wordMax) :
    b.window (.start o) m.length = some m ↔
      m <+: b.head.drop o ∧ o + m.length ≤ b.head.length := by
  rw [← slice?_eq_magic]
  simp [FileBytes.window, checkedAdd_of_le ho]

theorem window_fromEnd {b : FileBytes} {back : ℕ} {m : Bytes}
    (hlen : b.tail.length + m.length ≤ wordMax) :
    b.window (.fromEnd back) m.length = some m ↔
      back ≤ b.totalLen ∧ back ≤ b.tail.length ∧
        m <+: b.tail.drop (b.tail.length - back) ∧
          b.tail.length - back + m.length ≤ b.tail.length := by
  unfold FileBytes.window
  rw [Option.ite_none_left_eq_some, not_or, not_lt, not_lt, and_assoc]
  refine and_congr_right fun _ ↦ and_congr_right fun hback ↦ ?_
  rw [← slice?_eq_magic]
  simp [checkedSub_of_le hback,
    checkedAdd_of_le (show b.tail.length - back + m.length ≤ wordMax by omega)]

theorem drop_rtake {l : Bytes} {t back : ℕ} (ht : back ≤ t) (hl : back ≤ l.length) :
    (l.rtake t).drop ((l.rtake t).length - back) = l.drop (l.length - back) := by
  have hlen : (l.rtake t).length = min t l.length := by
    rw [List.rtake, List.length_drop]
    omega
  rw [hlen, List.rtake, List.drop_drop]
  congr 1
  omega

/-- Anchors and magics are small. -/
def Signature.Small (s : Signature) : Prop :=
  s.magic.length ≤ 16 ∧ match s.anchor with
    | .start offset => offset ≤ 32769
    | .fromEnd _ => True

instance (s : Signature) : Decidable s.Small := by
  unfold Signature.Small
  cases s.anchor <;> infer_instance

theorem small_of_mem : ∀ s ∈ SIGNATURES, s.Small := by decide

/-- A rule fires on part of a file if it fits the file and its window was supplied. -/
theorem fires_supply {s : Signature} (hs : s ∈ SIGNATURES) (file : DataSource) (h t : ℕ) :
    s.fires (supply file h t) = true ↔ s.Fits file ∧ s.Supplied h t := by
  obtain ⟨hmagic, hanchor⟩ := small_of_mem s hs
  have hfile := file.addressable
  have hword : (2 : ℕ) ^ 63 + 32785 ≤ wordMax := by decide
  have hrtake : (file.bytes.rtake t).length = min t file.bytes.length := by
    rw [List.rtake, List.length_drop]
    omega
  unfold Signature.Fits Signature.fires Signature.Supplied
  simp only [Bool.and_eq_true, decide_eq_true_eq]
  rw [and_assoc]
  refine and_congr_right fun _ ↦ ?_
  cases ha : s.anchor with
  | start o =>
      rw [ha] at hanchor
      dsimp only at hanchor ⊢
      rw [window_start (by omega), window_start (by omega)]
      simp only [supply, FileBytes.whole, List.drop_take, List.prefix_take_iff, List.length_take]
      constructor
      · rintro ⟨⟨hpre, hle⟩, hfit⟩
        exact ⟨⟨hpre, by omega⟩, by omega⟩
      · rintro ⟨⟨hpre, hle⟩, hfit⟩
        exact ⟨⟨hpre, by omega⟩, by omega⟩
  | fromEnd back =>
      dsimp only
      rw [window_fromEnd (by simp only [supply]; omega),
        window_fromEnd (by simp only [FileBytes.whole]; omega)]
      simp only [supply, FileBytes.whole, DataSource.len]
      constructor
      · rintro ⟨hback, htail, hpre, hle⟩
        rw [drop_rtake (by omega) hback] at hpre
        exact ⟨⟨hback, hback, hpre, by omega⟩, by omega⟩
      · rintro ⟨⟨hback, -, hpre, hle⟩, ht⟩
        rw [drop_rtake ht hback]
        exact ⟨hback, by omega, hpre, by omega⟩

/-! ## Openings -/

theorem start_of_opening : ∀ s ∈ openings, s.anchor = .start 0 := by decide

set_option maxRecDepth 2000 in
/-- No opening magic begins with another one. -/
theorem openings_apart : ∀ s ∈ openings, ∀ s' ∈ openings, s.magic <+: s'.magic → s = s' := by
  decide

theorem opening_mem {s : Signature} (hs : s ∈ openings) : s ∈ SIGNATURES :=
  List.mem_append_left _ hs

theorem opening_supplied {s : Signature} (hs : s ∈ openings) {h t : ℕ} :
    s.Supplied h t ↔ s.magic.length ≤ h := by
  unfold Signature.Supplied
  rw [start_of_opening s hs]
  simp

theorem opening_begins {s : Signature} (hs : s ∈ openings) {file : DataSource}
    (hfits : s.Fits file) : s.magic <+: file.bytes := by
  obtain ⟨hmagic, -⟩ := small_of_mem s (opening_mem hs)
  obtain ⟨-, hwindow⟩ := Bool.and_eq_true_iff.mp hfits
  have hword : 16 ≤ wordMax := by decide
  rw [decide_eq_true_eq, start_of_opening s hs, window_start (by omega)] at hwindow
  exact hwindow.1

/-- A file opens with one signature at most. -/
theorem opening_unique {s s' : Signature} (hs : s ∈ openings) (hs' : s' ∈ openings)
    {file : DataSource} (hfits : s.Fits file) (hfits' : s'.Fits file) : s = s' := by
  rcases List.prefix_or_prefix_of_prefix (opening_begins hs hfits) (opening_begins hs' hfits')
    with hpre | hpre
  · exact openings_apart s hs s' hs' hpre
  · exact (openings_apart s' hs' s hs hpre).symm

/-- The format of the first rule behind the openings, by what each of these rules says. -/
def laterFormat (vhd dmg macrium ustar cd001 : Bool) : Option Format :=
  if vhd then some .vhd else if dmg then some .dmg else if macrium then some .macriumX
  else if ustar then some .tar else if cd001 then some .iso9660 else none

theorem find?_later (fires : Signature → Bool) :
    ([vhdFooter, dmgTrailer, macriumFooter, ustarStamp, cd001Stamp].find? fires).map
      Signature.format = laterFormat (fires vhdFooter) (fires dmgTrailer) (fires macriumFooter)
        (fires ustarStamp) (fires cd001Stamp) := by
  unfold laterFormat
  repeat' rw [List.find?_cons]
  cases fires vhdFooter <;> cases fires dmgTrailer <;> cases fires macriumFooter <;>
    cases fires ustarStamp <;> cases fires cd001Stamp <;> rfl

/-- Without an opening the rules behind decide. -/
theorem identify_of_no_opening {b : FileBytes} (h : ∀ s ∈ openings, s.fires b = false) :
    identify b = laterFormat (vhdFooter.fires b) (dmgTrailer.fires b) (macriumFooter.fires b)
      (ustarStamp.fires b) (cd001Stamp.fires b) := by
  have hnone : openings.find? (·.fires b) = none := by
    rw [List.find?_eq_none]
    exact fun s hs ↦ by simp [h s hs]
  rw [identify_eq, SIGNATURES, List.find?_append, hnone, Option.none_or, find?_later]

/-- The one opening that fires decides. -/
theorem identify_of_opening {b : FileBytes} {s : Signature} (hs : s ∈ openings)
    (hfires : s.fires b = true) (hone : ∀ s' ∈ openings, s'.fires b = true → s' = s) :
    identify b = some s.format := by
  obtain ⟨s', hfind⟩ := Option.isSome_iff_exists.mp
    (List.find?_isSome.mpr ⟨s, hs, hfires⟩ : (openings.find? (·.fires b)).isSome)
  have hfires' : s'.fires b = true := by simpa using List.find?_some hfind
  obtain rfl := hone s' (List.mem_of_find?_eq_some hfind) hfires'
  rw [identify_eq, SIGNATURES, List.find?_append, hfind]
  rfl

/-! ## What a partial read can be misled by -/

/-- A stamp inside the file stands in the bytes read at its front. -/
def StampSeen (file : DataSource) (h : ℕ) : Prop :=
  262 ≤ h ∧ ustarStamp.Fits file ∨ 32774 ≤ h ∧ cd001Stamp.Fits file

/-- The front that was read is too short for the signature the file opens with, and the tail
holds a footer of another format. -/
def OpeningUnread (file : DataSource) (h t : ℕ) : Prop :=
  ∃ s ∈ openings, s.Fits file ∧ h < s.magic.length ∧
    (512 ≤ t ∧ vhdFooter.Fits file ∧ s.format ≠ .vhd ∨
      ¬(512 ≤ t ∧ vhdFooter.Fits file) ∧
        (512 ≤ t ∧ dmgTrailer.Fits file ∨ 12 ≤ t ∧ macriumFooter.Fits file))

/-- The tail that was read is too short for the footer that decides, and what was read holds the
magic of a later rule. -/
def FooterUnread (file : DataSource) (h t : ℕ) : Prop :=
  (∀ s ∈ openings, ¬s.Fits file) ∧
    ((vhdFooter.Fits file ∨ dmgTrailer.Fits file) ∧ t < 512 ∧
        (12 ≤ t ∧ macriumFooter.Fits file ∨ StampSeen file h) ∨
      ¬vhdFooter.Fits file ∧ ¬dmgTrailer.Fits file ∧ macriumFooter.Fits file ∧ t < 12 ∧
        StampSeen file h)

/-- What the later rules say of a part of the file, by what they say of all of it. -/
theorem laterFormat_supply : ∀ vhd dmg macrium ustar cd001 t₁ t₂ h₁ h₂ : Bool,
    (t₁ = true → t₂ = true) → (h₂ = true → h₁ = true) →
    ((laterFormat (vhd && t₁) (dmg && t₁) (macrium && t₂) (ustar && h₁) (cd001 && h₂) = none ∨
      laterFormat (vhd && t₁) (dmg && t₁) (macrium && t₂) (ustar && h₁) (cd001 && h₂) =
        laterFormat vhd dmg macrium ustar cd001) ↔
      ¬((vhd || dmg) && !t₁ && (t₂ && macrium || (h₁ && ustar || h₂ && cd001)) ||
        !vhd && !dmg && macrium && !t₂ && (h₁ && ustar || h₂ && cd001)) = true) := by
  decide

theorem fires_supply_eq {s : Signature} (hs : s ∈ SIGNATURES) (file : DataSource) (h t : ℕ) :
    s.fires (supply file h t) = (decide (s.Fits file) && decide (s.Supplied h t)) := by
  rw [Bool.eq_iff_iff, fires_supply hs, Bool.and_eq_true, decide_eq_true_eq, decide_eq_true_eq]

theorem fires_whole_eq (s : Signature) (file : DataSource) :
    s.fires (.whole file.bytes) = decide (s.Fits file) := by
  rw [Bool.eq_iff_iff, decide_eq_true_eq]
  rfl

/-- The later rules on a part of the file. -/
theorem identify_supply_of_no_opening {file : DataSource} {h t : ℕ}
    (hnone : ∀ s ∈ openings, ¬(s.Fits file ∧ s.Supplied h t)) :
    identify (supply file h t) = laterFormat
      (decide (vhdFooter.Fits file) && decide (512 ≤ t))
      (decide (dmgTrailer.Fits file) && decide (512 ≤ t))
      (decide (macriumFooter.Fits file) && decide (12 ≤ t))
      (decide (ustarStamp.Fits file) && decide (262 ≤ h))
      (decide (cd001Stamp.Fits file) && decide (32774 ≤ h)) := by
  rw [identify_of_no_opening, fires_supply_eq (by decide), fires_supply_eq (by decide),
    fires_supply_eq (by decide), fires_supply_eq (by decide), fires_supply_eq (by decide)]
  · rfl
  · intro s hs
    rw [← Bool.not_eq_true, fires_supply (opening_mem hs)]
    exact hnone s hs

theorem identify_whole_of_no_opening {file : DataSource} (hnone : ∀ s ∈ openings, ¬s.Fits file) :
    identify (.whole file.bytes) = laterFormat (decide (vhdFooter.Fits file))
      (decide (dmgTrailer.Fits file)) (decide (macriumFooter.Fits file))
      (decide (ustarStamp.Fits file)) (decide (cd001Stamp.Fits file)) := by
  rw [identify_of_no_opening fun s hs ↦ Bool.eq_false_iff.mpr (hnone s hs)]
  simp only [fires_whole_eq]

theorem opening_format : ∀ s ∈ openings, s.format ≠ .dmg ∧ s.format ≠ .macriumX := by decide

/-- A partial read abstains unless it misses what decides and still holds a later magic. -/
theorem identify_supply_abstains_iff (file : DataSource) (h t : ℕ) :
    (identify (supply file h t) = none ∨
      identify (supply file h t) = identify (.whole file.bytes)) ↔
      ¬(OpeningUnread file h t ∨ FooterUnread file h t) := by
  by_cases hopen : ∃ s ∈ openings, s.Fits file
  · obtain ⟨s, hs, hfits⟩ := hopen
    have hwhole : identify (.whole file.bytes) = some s.format :=
      identify_of_opening hs hfits fun s' hs' hfits' ↦ opening_unique hs' hs hfits' hfits
    have hfooter : ¬FooterUnread file h t := fun hunread ↦ hunread.1 s hs hfits
    by_cases hread : s.magic.length ≤ h
    · have hpart : identify (supply file h t) = some s.format := by
        refine identify_of_opening hs
          ((fires_supply (opening_mem hs) file h t).mpr ⟨hfits, (opening_supplied hs).mpr hread⟩) ?_
        intro s' hs' hfires
        exact opening_unique hs' hs ((fires_supply (opening_mem hs') file h t).mp hfires).1 hfits
      refine iff_of_true (.inr (hpart.trans hwhole.symm)) ?_
      rintro (⟨s', hs', hfits', hshort, -⟩ | hunread)
      · rw [opening_unique hs' hs hfits' hfits] at hshort
        exact hshort.not_ge hread
      · exact hfooter hunread
    · have hunread : OpeningUnread file h t ↔
          512 ≤ t ∧ vhdFooter.Fits file ∧ s.format ≠ .vhd ∨
            ¬(512 ≤ t ∧ vhdFooter.Fits file) ∧
              (512 ≤ t ∧ dmgTrailer.Fits file ∨ 12 ≤ t ∧ macriumFooter.Fits file) := by
        constructor
        · rintro ⟨s', hs', hfits', -, hheld⟩
          rwa [opening_unique hs' hs hfits' hfits] at hheld
        · exact fun hheld ↦ ⟨s, hs, hfits, not_le.mp hread, hheld⟩
      have hmagic := (small_of_mem s (opening_mem hs)).1
      obtain ⟨hdmg, hmacrium⟩ := opening_format s hs
      have hstamp : decide (262 ≤ h) = false := decide_eq_false (by omega)
      have hstamp' : decide (32774 ≤ h) = false := decide_eq_false (by omega)
      rw [hwhole, identify_supply_of_no_opening, hstamp, hstamp', or_iff_left hfooter, hunread]
      · by_cases hvhd : vhdFooter.Fits file <;> by_cases hdmgFits : dmgTrailer.Fits file <;>
          by_cases hmac : macriumFooter.Fits file <;> by_cases ht : 512 ≤ t <;>
          by_cases ht' : 12 ≤ t <;>
          simp [laterFormat, hvhd, hdmgFits, hmac, ht, ht', hdmg.symm, hmacrium.symm, eq_comm]
      · rintro s' hs' ⟨hfits', hsupplied⟩
        rw [opening_unique hs' hs hfits' hfits, opening_supplied hs] at hsupplied
        exact hread hsupplied
  · have hnone : ∀ s ∈ openings, ¬s.Fits file := fun s hs hfits ↦ hopen ⟨s, hs, hfits⟩
    have hunread : ¬OpeningUnread file h t := fun ⟨s, hs, hfits, _⟩ ↦ hopen ⟨s, hs, hfits⟩
    rw [identify_whole_of_no_opening hnone,
      identify_supply_of_no_opening fun s hs hheld ↦ hnone s hs hheld.1,
      laterFormat_supply _ _ _ _ _ _ _ _ _ (by simp; omega) (by simp; omega), or_iff_right hunread]
    rw [FooterUnread, and_iff_right hnone]
    simp only [StampSeen, Bool.or_eq_true, Bool.and_eq_true, Bool.not_eq_true',
      decide_eq_true_eq, decide_eq_false_iff_not, not_le, and_assoc]

/-- A gzip member that ends in the letters of a Macrium footer. -/
def gzipFootnote : DataSource :=
  ⟨[0x1F, 0x8B] ++ List.replicate 8 0 ++ ascii "MACRIUM_FILE", by decide⟩

/-- Read from its end alone, the gzip member is a Macrium image. -/
theorem gzipFootnote_misread : ¬ (identify (supply gzipFootnote 0 12) = none ∨
    identify (supply gzipFootnote 0 12) = identify (.whole gzipFootnote.bytes)) := by
  decide

end VeraqisRecover.FormatId
