import VeraqisRecover.Support.ByteString

/-!
# UTF-8 text, strictly and lossily

Text is a list of Unicode scalar values.  `decodeStep` reads one scalar value
from the front of a byte string, or reports how many bytes the maximal invalid
prefix spans; the strict and the lossy decoder differ only in what they do
with that report.
-/

abbrev Text := List Char

instance : LawfulBEq Text := inferInstance

namespace LossyUtf8

open ByteString

/-- The UTF-8 bytes of a text. -/
def asBytes (t : Text) : Bytes := t.flatMap String.utf8EncodeChar

def isContinuation (v : ℕ) : Bool := 0x80 ≤ v && v ≤ 0xBF

/-- The bytes admissible after a three-byte lead: no overlong form, no surrogate. -/
def secondOfThree (lead v : ℕ) : Bool :=
  if lead = 0xE0 then 0xA0 ≤ v && v ≤ 0xBF
  else if lead = 0xED then 0x80 ≤ v && v ≤ 0x9F
  else isContinuation v

/-- The bytes admissible after a four-byte lead: no overlong form, nothing past U+10FFFF. -/
def secondOfFour (lead v : ℕ) : Bool :=
  if lead = 0xF0 then 0x90 ≤ v && v ≤ 0xBF
  else if lead = 0xF4 then 0x80 ≤ v && v ≤ 0x8F
  else isContinuation v

def byteAt (d : Bytes) (i : ℕ) : ℕ := (d.getD i 0).toNat

/-- One scalar value with its width, or the width of the invalid sequence at the front. -/
def decodeStep (d : Bytes) : Option Char × ℕ :=
  let b₀ := byteAt d 0
  let b₁ := byteAt d 1
  let b₂ := byteAt d 2
  let b₃ := byteAt d 3
  if b₀ < 0x80 then (some (Char.ofNat b₀), 1)
  else if 0xC2 ≤ b₀ ∧ b₀ ≤ 0xDF then
    if isContinuation b₁ then (some (Char.ofNat (b₀ % 32 * 64 + b₁ % 64)), 2) else (none, 1)
  else if 0xE0 ≤ b₀ ∧ b₀ ≤ 0xEF then
    if ¬ secondOfThree b₀ b₁ then (none, 1)
    else if isContinuation b₂ then
      (some (Char.ofNat (b₀ % 16 * 4096 + b₁ % 64 * 64 + b₂ % 64)), 3)
    else (none, 2)
  else if 0xF0 ≤ b₀ ∧ b₀ ≤ 0xF4 then
    if ¬ secondOfFour b₀ b₁ then (none, 1)
    else if ¬ isContinuation b₂ then (none, 2)
    else if isContinuation b₃ then
      (some (Char.ofNat (b₀ % 8 * 262144 + b₁ % 64 * 4096 + b₂ % 64 * 64 + b₃ % 64)), 4)
    else (none, 3)
  else (none, 1)

/-- Decode, putting U+FFFD for each maximal invalid sequence. -/
def fromUtf8Lossy : Bytes → Text
  | [] => []
  | b :: rest =>
      let step := decodeStep (b :: rest)
      step.1.getD (Char.ofNat 0xFFFD) :: fromUtf8Lossy (rest.drop (step.2 - 1))
termination_by d => d.length
decreasing_by simp only [List.length_cons, List.length_drop]; omega

/-- Whether every sequence decodes. -/
def isUtf8 : Bytes → Bool
  | [] => true
  | b :: rest =>
      let step := decodeStep (b :: rest)
      step.1.isSome && isUtf8 (rest.drop (step.2 - 1))
termination_by d => d.length
decreasing_by simp only [List.length_cons, List.length_drop]; omega

theorem byteAt_cons_zero (b : UInt8) (d : Bytes) : byteAt (b :: d) 0 = b.toNat := rfl

theorem byteAt_cons_one (a b : UInt8) (d : Bytes) : byteAt (a :: b :: d) 1 = b.toNat := rfl

theorem byteAt_cons_two (a b c : UInt8) (d : Bytes) :
    byteAt (a :: b :: c :: d) 2 = c.toNat := rfl

theorem byteAt_cons_three (a b c e : UInt8) (d : Bytes) :
    byteAt (a :: b :: c :: e :: d) 3 = e.toNat := rfl

/-- Encoding a scalar value and decoding one step gives it back, whatever follows. -/
theorem decodeStep_utf8EncodeChar (c : Char) (r : Bytes) :
    decodeStep (String.utf8EncodeChar c ++ r) =
      (some c, (String.utf8EncodeChar c).length) := by
  have hc : Char.ofNat c.val.toNat = c := Char.ofNat_toNat c
  have hn : c.val.toNat < 0xD800 ∨ 0xDFFF < c.val.toNat ∧ c.val.toNat < 0x110000 := c.valid
  unfold String.utf8EncodeChar
  generalize c.val.toNat = v at hc hn
  subst hc
  dsimp only
  split_ifs with h₁ h₂ h₃
  · have e₀ : v % 256 = v := by omega
    simp [decodeStep, byteAt_cons_zero, e₀, show v < 128 by omega]
  · have e₀ : (v / 64 % 32 + 192) % 256 = v / 64 + 192 := by omega
    have e₁ : (v % 64 + 128) % 256 = v % 64 + 128 := by omega
    have hv : (v / 64 + 192) % 32 * 64 + (v % 64 + 128) % 64 = v := by omega
    simp only [decodeStep, List.cons_append, List.nil_append, byteAt_cons_zero, byteAt_cons_one,
      UInt8.toNat_ofNat', Nat.reducePow, e₀, e₁]
    rw [if_neg (by omega), if_pos (by omega), if_pos (by simp [isContinuation]; omega), hv]
    rfl
  · have e₀ : (v / 4096 % 16 + 224) % 256 = v / 4096 + 224 := by omega
    have e₁ : (v / 64 % 64 + 128) % 256 = v / 64 % 64 + 128 := by omega
    have e₂ : (v % 64 + 128) % 256 = v % 64 + 128 := by omega
    have hv : (v / 4096 + 224) % 16 * 4096 + (v / 64 % 64 + 128) % 64 * 64 +
        (v % 64 + 128) % 64 = v := by omega
    have hs : secondOfThree (v / 4096 + 224) (v / 64 % 64 + 128) = true := by
      unfold secondOfThree isContinuation
      split_ifs <;> simp <;> omega
    simp only [decodeStep, List.cons_append, List.nil_append, byteAt_cons_zero, byteAt_cons_one,
      byteAt_cons_two, UInt8.toNat_ofNat', Nat.reducePow, e₀, e₁, e₂]
    rw [if_neg (by omega), if_neg (by omega), if_pos (by omega), if_neg (by simp [hs]),
      if_pos (by simp [isContinuation]; omega), hv]
    rfl
  · have e₀ : (v / 262144 % 8 + 240) % 256 = v / 262144 + 240 := by omega
    have e₁ : (v / 4096 % 64 + 128) % 256 = v / 4096 % 64 + 128 := by omega
    have e₂ : (v / 64 % 64 + 128) % 256 = v / 64 % 64 + 128 := by omega
    have e₃ : (v % 64 + 128) % 256 = v % 64 + 128 := by omega
    have hv : (v / 262144 + 240) % 8 * 262144 + (v / 4096 % 64 + 128) % 64 * 4096 +
        (v / 64 % 64 + 128) % 64 * 64 + (v % 64 + 128) % 64 = v := by omega
    have hs : secondOfFour (v / 262144 + 240) (v / 4096 % 64 + 128) = true := by
      unfold secondOfFour isContinuation
      split_ifs <;> simp <;> omega
    simp only [decodeStep, List.cons_append, List.nil_append, byteAt_cons_zero, byteAt_cons_one,
      byteAt_cons_two, byteAt_cons_three, UInt8.toNat_ofNat', Nat.reducePow, e₀, e₁, e₂, e₃]
    rw [if_neg (by omega), if_neg (by omega), if_neg (by omega), if_pos (by omega),
      if_neg (by simp [hs]), if_neg (by simp [isContinuation]; omega),
      if_pos (by simp [isContinuation]; omega), hv]
    rfl

theorem drop_length_pred {α : Type*} {a : α} {rest s r : List α} (h : a :: rest = s ++ r)
    (hs : s ≠ []) : rest.drop (s.length - 1) = r := by
  obtain ⟨b, s', rfl⟩ := List.exists_cons_of_ne_nil hs
  simp only [List.cons_append, List.cons.injEq] at h
  simp [h.2]

/-- The decoder takes the first scalar value off a text and goes on with the rest. -/
theorem decodeStep_asBytes_cons (c : Char) (t : Text) :
    ∃ b rest width, asBytes (c :: t) = b :: rest ∧ decodeStep (b :: rest) = (some c, width) ∧
      rest.drop (width - 1) = asBytes t := by
  have hne : String.utf8EncodeChar c ≠ [] := String.utf8EncodeChar_ne_nil
  have hsplit : asBytes (c :: t) = String.utf8EncodeChar c ++ asBytes t := by simp [asBytes]
  obtain ⟨b, rest, hb⟩ := List.exists_cons_of_ne_nil
    (show asBytes (c :: t) ≠ [] by simp [hsplit, hne])
  have hbs := hb.symm.trans hsplit
  refine ⟨b, rest, _, hb, ?_, drop_length_pred hbs hne⟩
  rw [hbs, decodeStep_utf8EncodeChar]

theorem fromUtf8Lossy_asBytes (t : Text) : fromUtf8Lossy (asBytes t) = t := by
  induction t with
  | nil => simp [asBytes, fromUtf8Lossy]
  | cons c t ih =>
      obtain ⟨b, rest, width, hb, hstep, hrest⟩ := decodeStep_asBytes_cons c t
      rw [hb, fromUtf8Lossy, hstep]
      simp only [Option.getD_some]
      rw [hrest, ih]

theorem isUtf8_asBytes (t : Text) : isUtf8 (asBytes t) = true := by
  induction t with
  | nil => simp [asBytes, isUtf8]
  | cons c t ih =>
      obtain ⟨b, rest, width, hb, hstep, hrest⟩ := decodeStep_asBytes_cons c t
      rw [hb, isUtf8, hstep]
      simp only [Option.isSome_some, Bool.true_and]
      rw [hrest, ih]

theorem isUtf8_of_ascii {d : Bytes} (h : ∀ b ∈ d, b.toNat < 0x80) : isUtf8 d = true := by
  induction d with
  | nil => rw [isUtf8]
  | cons b d ih =>
      have hstep : decodeStep (b :: d) = (some (Char.ofNat b.toNat), 1) := by
        unfold decodeStep
        dsimp only
        rw [byteAt_cons_zero, if_pos (h b List.mem_cons_self)]
      rw [isUtf8, hstep]
      simpa using ih fun c hc ↦ h c (List.mem_cons_of_mem b hc)

theorem toNat_ofNat {v : ℕ} (hv : v < 0xD800 ∨ 0xDFFF < v ∧ v < 0x110000) :
    (Char.ofNat v).val.toNat = v := by
  have hvalid : v.isValidChar := hv
  simp [Char.ofNat, hvalid, Char.ofNatAux]

theorem lt_length_of_byteAt {d : Bytes} {i : ℕ} (h : byteAt d i ≠ 0) : i < d.length := by
  by_contra hlt
  exact h (by rw [byteAt, List.getD_eq_default _ _ (by omega)]; rfl)

theorem utf8EncodeChar_one {b₀ : UInt8} (h : b₀.toNat < 0x80) :
    String.utf8EncodeChar (Char.ofNat b₀.toNat) = [b₀] := by
  unfold String.utf8EncodeChar
  rw [toNat_ofNat (by omega)]
  dsimp only
  rw [if_pos (by omega), UInt8.ofNat_toNat]

theorem ofNat_eq {v : ℕ} {b : UInt8} (h : v = b.toNat) : UInt8.ofNat v = b := by
  rw [h, UInt8.ofNat_toNat]

theorem utf8EncodeChar_two {b₀ b₁ : UInt8} (h₀ : 0xC2 ≤ b₀.toNat ∧ b₀.toNat ≤ 0xDF)
    (h₁ : isContinuation b₁.toNat = true) :
    String.utf8EncodeChar (Char.ofNat (b₀.toNat % 32 * 64 + b₁.toNat % 64)) = [b₀, b₁] := by
  simp only [isContinuation, Bool.and_eq_true, decide_eq_true_eq] at h₁
  unfold String.utf8EncodeChar
  rw [toNat_ofNat (by omega)]
  dsimp only
  rw [if_neg (by omega), if_pos (by omega), ofNat_eq (b := b₀) (by omega),
    ofNat_eq (b := b₁) (by omega)]

theorem utf8EncodeChar_three {b₀ b₁ b₂ : UInt8} (h₀ : 0xE0 ≤ b₀.toNat ∧ b₀.toNat ≤ 0xEF)
    (h₁ : secondOfThree b₀.toNat b₁.toNat = true) (h₂ : isContinuation b₂.toNat = true) :
    String.utf8EncodeChar
      (Char.ofNat (b₀.toNat % 16 * 4096 + b₁.toNat % 64 * 64 + b₂.toNat % 64)) =
        [b₀, b₁, b₂] := by
  have hb : (0x80 ≤ b₁.toNat ∧ b₁.toNat ≤ 0xBF) ∧ (b₀.toNat = 0xE0 → 0xA0 ≤ b₁.toNat) ∧
      (b₀.toNat = 0xED → b₁.toNat ≤ 0x9F) := by
    unfold secondOfThree isContinuation at h₁
    split_ifs at h₁ <;> simp only [Bool.and_eq_true, decide_eq_true_eq] at h₁ <;> omega
  simp only [isContinuation, Bool.and_eq_true, decide_eq_true_eq] at h₂
  unfold String.utf8EncodeChar
  rw [toNat_ofNat (by omega)]
  dsimp only
  rw [if_neg (by omega), if_neg (by omega), if_pos (by omega), ofNat_eq (b := b₀) (by omega),
    ofNat_eq (b := b₁) (by omega), ofNat_eq (b := b₂) (by omega)]

theorem utf8EncodeChar_four {b₀ b₁ b₂ b₃ : UInt8} (h₀ : 0xF0 ≤ b₀.toNat ∧ b₀.toNat ≤ 0xF4)
    (h₁ : secondOfFour b₀.toNat b₁.toNat = true) (h₂ : isContinuation b₂.toNat = true)
    (h₃ : isContinuation b₃.toNat = true) :
    String.utf8EncodeChar (Char.ofNat (b₀.toNat % 8 * 262144 + b₁.toNat % 64 * 4096 +
      b₂.toNat % 64 * 64 + b₃.toNat % 64)) = [b₀, b₁, b₂, b₃] := by
  have hb : (0x80 ≤ b₁.toNat ∧ b₁.toNat ≤ 0xBF) ∧ (b₀.toNat = 0xF0 → 0x90 ≤ b₁.toNat) ∧
      (b₀.toNat = 0xF4 → b₁.toNat ≤ 0x8F) := by
    unfold secondOfFour isContinuation at h₁
    split_ifs at h₁ <;> simp only [Bool.and_eq_true, decide_eq_true_eq] at h₁ <;> omega
  simp only [isContinuation, Bool.and_eq_true, decide_eq_true_eq] at h₂ h₃
  unfold String.utf8EncodeChar
  rw [toNat_ofNat (by omega)]
  dsimp only
  rw [if_neg (by omega), if_neg (by omega), if_neg (by omega), ofNat_eq (b := b₀) (by omega),
    ofNat_eq (b := b₁) (by omega), ofNat_eq (b := b₂) (by omega), ofNat_eq (b := b₃) (by omega)]

/-- A sequence that decodes is the encoding of the scalar value read. -/
theorem utf8EncodeChar_decodeStep {d : Bytes} {c : Char} {w : ℕ} (hd : d ≠ [])
    (h : decodeStep d = (some c, w)) :
    0 < w ∧ String.utf8EncodeChar c ++ d.drop w = d := by
  unfold decodeStep at h
  dsimp only at h
  split_ifs at h with h₀ h₁ h₂ h₃ h₄ h₅ h₆ h₇ h₈ h₉ <;>
    simp only [Prod.mk.injEq, reduceCtorEq, Option.some.injEq, false_and] at h <;>
    obtain ⟨rfl, rfl⟩ := h
  · obtain ⟨b₀, r, rfl⟩ := List.exists_cons_of_ne_nil hd
    have he : String.utf8EncodeChar _ = [b₀] := utf8EncodeChar_one h₀
    exact ⟨by omega, congrArg (· ++ r) he⟩
  · have hlen : 1 < d.length := lt_length_of_byteAt fun hz ↦ by simp [hz, isContinuation] at h₂
    match d, hlen with
    | b₀ :: b₁ :: r, _ =>
        have he : String.utf8EncodeChar _ = [b₀, b₁] := utf8EncodeChar_two h₁ h₂
        exact ⟨by omega, congrArg (· ++ r) he⟩
  · have hlen : 2 < d.length := lt_length_of_byteAt fun hz ↦ by simp [hz, isContinuation] at h₅
    match d, hlen with
    | b₀ :: b₁ :: b₂ :: r, _ =>
        have he : String.utf8EncodeChar _ = [b₀, b₁, b₂] := utf8EncodeChar_three h₃ h₄ h₅
        exact ⟨by omega, congrArg (· ++ r) he⟩
  · have hlen : 3 < d.length := lt_length_of_byteAt fun hz ↦ by simp [hz, isContinuation] at h₉
    match d, hlen with
    | b₀ :: b₁ :: b₂ :: b₃ :: r, _ =>
        have he : String.utf8EncodeChar _ = [b₀, b₁, b₂, b₃] :=
          utf8EncodeChar_four h₆ h₇ h₈ h₉
        exact ⟨by omega, congrArg (· ++ r) he⟩

theorem asBytes_fromUtf8Lossy {d : Bytes} (h : isUtf8 d = true) :
    asBytes (fromUtf8Lossy d) = d := by
  fun_induction fromUtf8Lossy d with
  | case1 => rfl
  | case2 b rest step ih =>
      rw [isUtf8, Bool.and_eq_true] at h
      obtain ⟨c, hc⟩ := Option.isSome_iff_exists.mp h.1
      obtain ⟨hw, hsplit⟩ := utf8EncodeChar_decodeStep (List.cons_ne_nil b rest) (Prod.ext hc rfl)
      have hdrop : rest.drop (step.2 - 1) = (b :: rest).drop step.2 := by
        obtain ⟨n, hn⟩ := Nat.exists_eq_add_one_of_ne_zero hw.ne'
        have hn' : step.2 = n + 1 := hn
        rw [hn']
        rfl
      have hsome : step.1 = some c := hc
      rw [asBytes, List.flatMap_cons, ← asBytes, ih h.2, hdrop, hsome]
      exact hsplit

/-- The lossy decoding of a byte string is its own text just when it is UTF-8. -/
theorem asBytes_fromUtf8Lossy_iff {d : Bytes} :
    asBytes (fromUtf8Lossy d) = d ↔ isUtf8 d = true := by
  refine ⟨fun h ↦ ?_, asBytes_fromUtf8Lossy⟩
  rw [← h]
  exact isUtf8_asBytes _

theorem asBytes_injective : Function.Injective asBytes :=
  Function.LeftInverse.injective fromUtf8Lossy_asBytes

/-! ## ASCII bytes -/

theorem toNat_of_mem_utf8EncodeChar {c : Char} {b : UInt8} (hb : b.toNat < 0x80)
    (h : b ∈ String.utf8EncodeChar c) : c.toNat = b.toNat := by
  change c.val.toNat = b.toNat
  unfold String.utf8EncodeChar at h
  generalize c.val.toNat = v at h ⊢
  dsimp only at h
  split_ifs at h
  all_goals
    simp only [List.mem_cons, List.not_mem_nil, or_false] at h
    simp only [← UInt8.toNat_inj, UInt8.toNat_ofNat'] at h
    simp at h
    omega

/-- An ASCII byte of a text stands for a character of its own. -/
theorem mem_of_mem_asBytes {t : Text} {b : UInt8} (hb : b.toNat < 0x80) (h : b ∈ asBytes t) :
    Char.ofNat b.toNat ∈ t := by
  obtain ⟨c, hc, hbyte⟩ := List.mem_flatMap.mp h
  rw [← toNat_of_mem_utf8EncodeChar hb hbyte, Char.ofNat_toNat]
  exact hc

theorem asBytes_cons (c : Char) (t : Text) :
    asBytes (c :: t) = String.utf8EncodeChar c ++ asBytes t := List.flatMap_cons

@[simp] theorem asBytes_append (s t : Text) : asBytes (s ++ t) = asBytes s ++ asBytes t :=
  List.flatMap_append

theorem asBytes_ne_nil {t : Text} (ht : t ≠ []) : asBytes t ≠ [] := by
  obtain ⟨c, t, rfl⟩ := List.exists_cons_of_ne_nil ht
  exact List.append_ne_nil_of_left_ne_nil (@String.utf8EncodeChar_ne_nil c) _

theorem utf8EncodeChar_ascii {c : Char} (h : c.toNat < 0x80) :
    String.utf8EncodeChar c = [UInt8.ofNat c.toNat] := by
  have hval : c.val.toNat ≤ 0x7F := by
    change c.toNat ≤ 0x7F
    omega
  rw [String.utf8EncodeChar, if_pos hval]
  rfl

/-- ASCII bytes are the codes of the characters. -/
theorem eq_map_of_ascii {t : Text} (h : ∀ b ∈ asBytes t, b.toNat < 0x80) :
    t = (asBytes t).map fun b ↦ Char.ofNat b.toNat := by
  induction t with
  | nil => rfl
  | cons c t ih =>
      rw [asBytes_cons] at h ⊢
      have hcode : c.toNat < 0x80 := by
        obtain ⟨b, hb⟩ := List.exists_mem_of_ne_nil _ (@String.utf8EncodeChar_ne_nil c)
        have hascii := h b (List.mem_append_left _ hb)
        rwa [toNat_of_mem_utf8EncodeChar hascii hb]
      have hchar : Char.ofNat (UInt8.ofNat c.toNat).toNat = c := by
        rw [UInt8.toNat_ofNat', Nat.mod_eq_of_lt (by omega), Char.ofNat_toNat]
      rw [utf8EncodeChar_ascii hcode, List.singleton_append, List.map_cons, hchar]
      exact congrArg (c :: ·) (ih fun b hb ↦ h b (List.mem_append_right _ hb))

example : fromUtf8Lossy [0x61, 0xE2, 0x82, 0x62] = ['a', Char.ofNat 0xFFFD, 'b'] := by
  decide +kernel

end LossyUtf8
