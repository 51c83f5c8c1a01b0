import VeraqisRecover.Support.Checked
import VeraqisRecover.Support.Radix

/-!
# The signed manifest

`verify` of `manifest.rs` and the codec for its two hexadecimal fields.  The
decoder slices its string by byte positions and hands each pair to the parser of
numbers, so characters of several bytes and plus signs get as far as that.
-/

namespace VeraqisRecover.Recovery.Manifest

open ByteString Checked LossyUtf8

/-- `str::is_char_boundary` -/
def isCharBoundary (d : Bytes) (i : ℕ) : Bool :=
  i = 0 || i = d.length || (d[i]?.any fun b ↦ !isContinuation b.toNat)

/-- `&s[a..b]` of a string -/
def strSlice (s : Text) (a b : ℕ) : Checked Bytes :=
  let d := asBytes s
  if a ≤ b ∧ isCharBoundary d a ∧ isCharBoundary d b then .ok ((d.drop a).take (b - a))
  else .error .outOfRange

def hex (bytes : Bytes) : Text := Radix.hex bytes

/-- The pairs at these positions, up to the first that is no number. -/
def collectPairs (s : Text) : List ℕ → Checked (Option Bytes)
  | [] => .ok (some [])
  | i :: is => do
      let pair ← strSlice s i (i + 2)
      match Radix.fromStrRadix 16 255 pair with
      | none => return none
      | some v => do
          let rest ← collectPairs s is
          return rest.map (UInt8.ofNat v :: ·)

def unhex (s : Text) : Checked (Option Bytes) :=
  let len := (asBytes s).length
  if len % 2 ≠ 0 then return none
  -- `(0..s.len()).step_by(2)`
  else collectPairs s (List.range' 0 ((len + 1) / 2) 2)

/-- The fields `verify` reads, over the signable body. -/
structure RepairManifest (β : Type) where
  body : β
  publicKey : Text
  signature : Text

section Verify

variable {β κ : Type} (signingBytes : β → Bytes) (verifyingKey : Bytes → Option κ)
  (verifies : κ → Bytes → Bytes → Bool)

/-- Both fields are decoded before either is looked at. -/
def RepairManifest.verify (m : RepairManifest β) : Checked Bool := do
  let pk ← unhex m.publicKey
  let sig ← unhex m.signature
  match pk.filter (·.length = 32), sig.filter (·.length = 64) with
  | some pk, some sig =>
      match verifyingKey pk with
      | none => return false
      | some vk => return verifies vk (signingBytes m.body) sig
  | _, _ => return false

end Verify

/-! ## Where the decoder stops -/

/-- The pair with this number is a number. -/
def PairParses (d : Bytes) (k : ℕ) : Prop :=
  (Radix.fromStrRadix 16 255 ((d.drop (2 * k)).take 2)).isSome

/-- A character lies across the end of a pair that the decoder comes to. -/
def Straddled (s : Text) : Prop :=
  (asBytes s).length % 2 = 0 ∧ ∃ k, 2 * k + 2 ≤ (asBytes s).length ∧
    (∀ j < k, PairParses (asBytes s) j) ∧ ¬isCharBoundary (asBytes s) (2 * k + 2)

section Returns

variable {s : Text} {k n : ℕ}

theorem strSlice_eq (hstart : isCharBoundary (asBytes s) (2 * k))
    (hstop : isCharBoundary (asBytes s) (2 * k + 2)) :
    strSlice s (2 * k) (2 * k + 2) = .ok (((asBytes s).drop (2 * k)).take 2) := by
  have hwidth : 2 * k + 2 - 2 * k = 2 := by omega
  rw [strSlice, if_pos ⟨Nat.le_add_right _ _, hstart, hstop⟩, hwidth]

theorem strSlice_error (hstop : ¬isCharBoundary (asBytes s) (2 * k + 2)) :
    strSlice s (2 * k) (2 * k + 2) = .error .outOfRange :=
  if_neg fun h ↦ hstop h.2.2

theorem range'_pairs : List.range' (2 * k) (n + 1) 2 = 2 * k :: List.range' (2 * (k + 1)) n 2 :=
  List.range'_succ

/-- The pairs before the first that is no number all end between characters. -/
def Clear (s : Text) (k n : ℕ) : Prop :=
  ∀ m < n, (∀ j < m, PairParses (asBytes s) (k + j)) →
    isCharBoundary (asBytes s) (2 * (k + m) + 2)

theorem clear_succ_of_parses (hpair : PairParses (asBytes s) k) :
    Clear s k (n + 1) ↔ isCharBoundary (asBytes s) (2 * k + 2) ∧ Clear s (k + 1) n := by
  constructor
  · intro h
    refine ⟨h 0 (Nat.succ_pos n) nofun, fun m hm hparses ↦ ?_⟩
    have hnext := h (m + 1) (Nat.succ_lt_succ hm) fun j hj ↦ ?_
    · rwa [show k + (m + 1) = k + 1 + m by omega] at hnext
    · cases j with
      | zero => exact hpair
      | succ j =>
          rw [show k + (j + 1) = k + 1 + j by omega]
          exact hparses j (Nat.lt_of_succ_lt_succ hj)
  · rintro ⟨hfirst, hrest⟩ m hm hparses
    cases m with
    | zero => exact hfirst
    | succ m =>
        rw [show k + (m + 1) = k + 1 + m by omega]
        refine hrest m (Nat.lt_of_succ_lt_succ hm) fun j hj ↦ ?_
        rw [show k + 1 + j = k + (j + 1) by omega]
        exact hparses (j + 1) (Nat.succ_lt_succ hj)

theorem clear_succ_of_not_parses (hpair : ¬PairParses (asBytes s) k) :
    Clear s k (n + 1) ↔ isCharBoundary (asBytes s) (2 * k + 2) := by
  constructor
  · exact fun h ↦ h 0 (Nat.succ_pos n) nofun
  · intro hfirst m _ hparses
    cases m with
    | zero => exact hfirst
    | succ m => exact absurd (hparses 0 (Nat.succ_pos m)) hpair

theorem collectPairs_returns_iff (hstart : isCharBoundary (asBytes s) (2 * k)) :
    (∃ r, collectPairs s (List.range' (2 * k) n 2) = .ok r) ↔ Clear s k n := by
  induction n generalizing k with
  | zero => exact iff_of_true ⟨_, rfl⟩ nofun
  | succ n ih =>
      rw [range'_pairs, collectPairs]
      by_cases hstop : isCharBoundary (asBytes s) (2 * k + 2)
      · rw [strSlice_eq hstart hstop]
        change (∃ r, (match Radix.fromStrRadix 16 255 (((asBytes s).drop (2 * k)).take 2) with
          | none => _
          | some v => _) = Except.ok r) ↔ _
        cases hpair : Radix.fromStrRadix 16 255 (((asBytes s).drop (2 * k)).take 2) with
        | none =>
            have hnot : ¬PairParses (asBytes s) k := by rw [PairParses, hpair]; nofun
            exact iff_of_true ⟨_, rfl⟩ ((clear_succ_of_not_parses hnot).mpr hstop)
        | some v =>
            have hparses : PairParses (asBytes s) k := by rw [PairParses, hpair]; rfl
            rw [clear_succ_of_parses hparses, and_iff_right hstop, ← ih hstop]
            constructor
            · rintro ⟨r, hr⟩
              obtain ⟨rest, hrest, -⟩ := bind_eq_ok.mp hr
              exact ⟨rest, hrest⟩
            · rintro ⟨rest, hrest⟩
              exact ⟨_, bind_eq_ok.mpr ⟨rest, hrest, rfl⟩⟩
      · rw [strSlice_error hstop]
        exact iff_of_false nofun fun h ↦ hstop (h 0 (Nat.succ_pos n) nofun)

theorem unhex_returns_iff (s : Text) : (∃ r, unhex s = .ok r) ↔ ¬Straddled s := by
  rw [unhex, Straddled]
  split
  · exact iff_of_true ⟨_, rfl⟩ fun h ↦ absurd h.1 ‹_›
  · have heven := not_not.mp ‹¬(asBytes s).length % 2 ≠ 0›
    have hzero : isCharBoundary (asBytes s) (2 * 0) := rfl
    rw [collectPairs_returns_iff hzero]
    constructor
    · rintro hclear ⟨-, k, hk, hparses, hinside⟩
      have hboundary := hclear k (by omega) fun j hj ↦ by rw [Nat.zero_add]; exact hparses j hj
      rw [Nat.zero_add] at hboundary
      exact hinside hboundary
    · intro hnone m hm hparses
      simp only [Nat.zero_add] at hparses ⊢
      by_contra hinside
      exact hnone ⟨heven, m, by omega, hparses, hinside⟩

theorem verify_returns_iff {β κ : Type} (signingBytes : β → Bytes)
    (verifyingKey : Bytes → Option κ) (verifies : κ → Bytes → Bytes → Bool)
    (m : RepairManifest β) : (∃ b, m.verify signingBytes verifyingKey verifies = .ok b) ↔
      ¬Straddled m.publicKey ∧ ¬Straddled m.signature := by
  rw [← unhex_returns_iff, ← unhex_returns_iff, RepairManifest.verify]
  constructor
  · rintro ⟨b, hb⟩
    obtain ⟨pk, hpk, hb⟩ := bind_eq_ok.mp hb
    obtain ⟨sig, hsig, -⟩ := bind_eq_ok.mp hb
    exact ⟨⟨pk, hpk⟩, sig, hsig⟩
  · rintro ⟨⟨pk, hpk⟩, sig, hsig⟩
    rw [hpk, hsig]
    change ∃ b, (match pk.filter (·.length = 32), sig.filter (·.length = 64) with
      | some pk, some sig => _
      | _, _ => _) = Except.ok b
    split
    · split
      · exact ⟨_, rfl⟩
      · exact ⟨_, rfl⟩
    · exact ⟨_, rfl⟩

end Returns

/-! ## What the decoder accepts -/

/-- The value of the string, two bytes at a time. -/
def decodePairs : Bytes → Option Bytes
  | [] => some []
  | [_] => none
  | a :: b :: rest => do
      let v ← Radix.fromStrRadix 16 255 [a, b]
      let rest ← decodePairs rest
      return UInt8.ofNat v :: rest


section Accepts

variable {s : Text} {d bs : Bytes} {k n : ℕ}

theorem decodePairs_eq_some {a b : UInt8} {rest : Bytes} :
    decodePairs (a :: b :: rest) = some bs ↔ ∃ v, Radix.fromStrRadix 16 255 [a, b] = some v ∧
      ∃ vs, decodePairs rest = some vs ∧ bs = UInt8.ofNat v :: vs := by
  rw [decodePairs, Option.bind_eq_bind, Option.bind_eq_some_iff]
  refine exists_congr fun v ↦ and_congr_right fun _ ↦ ?_
  rw [Option.bind_eq_bind, Option.bind_eq_some_iff]
  refine exists_congr fun vs ↦ and_congr_right fun _ ↦ ?_
  rw [Option.pure_def, Option.some.injEq, eq_comm]

theorem even_of_decodePairs (h : decodePairs d = some bs) : d.length % 2 = 0 := by
  induction d using decodePairs.induct generalizing bs with
  | case1 => rfl
  | case2 => cases h
  | case3 a b rest ih =>
      obtain ⟨v, -, vs, hrest, -⟩ := decodePairs_eq_some.mp h
      have heven := ih hrest
      rw [List.length_cons, List.length_cons]
      omega

theorem toNat_lt_of_pair {a b : UInt8} {v : ℕ} (h : Radix.fromStrRadix 16 255 [a, b] = some v) :
    a.toNat < 0x80 ∧ b.toNat < 0x80 := by
  rcases Radix.fromStrRadix_pair_eq_some.mp h with ⟨rfl, hb⟩ | ⟨x, y, ha, hb, -⟩
  · exact ⟨by decide, (Radix.toDigit_ascii hb).2⟩
  · exact ⟨(Radix.toDigit_ascii ha).2, (Radix.toDigit_ascii hb).2⟩

theorem ascii_of_decodePairs (h : decodePairs d = some bs) : ∀ b ∈ d, b.toNat < 0x80 := by
  induction d using decodePairs.induct generalizing bs with
  | case1 => exact List.forall_mem_nil _
  | case2 => cases h
  | case3 a b rest ih =>
      obtain ⟨v, hpair, vs, hrest, -⟩ := decodePairs_eq_some.mp h
      obtain ⟨ha, hb⟩ := toNat_lt_of_pair hpair
      exact List.forall_mem_cons.mpr ⟨ha, List.forall_mem_cons.mpr ⟨hb, ih hrest⟩⟩

theorem isCharBoundary_of_ascii (h : ∀ b ∈ d, b.toNat < 0x80) {i : ℕ} (hi : i ≤ d.length) :
    isCharBoundary d i := by
  rcases Nat.lt_or_eq_of_le hi with hlt | rfl
  · have hbyte := h d[i] (List.getElem_mem hlt)
    have hplain : isContinuation d[i].toNat = false := by
      rw [isContinuation, Bool.and_eq_false_iff]
      exact Or.inl (decide_eq_false (by omega))
    rw [isCharBoundary, List.getElem?_eq_getElem hlt, Option.any_some, hplain]
    simp
  · simp [isCharBoundary]

theorem strSlice_eq_ok {a b : ℕ} {pair : Bytes} (h : strSlice s a b = .ok pair) :
    pair = ((asBytes s).drop a).take (b - a) := by
  rw [strSlice] at h
  split at h
  · exact (Except.ok.inj h).symm
  · cases h

theorem drop_pair (h : 2 * k + 2 ≤ d.length) :
    ∃ a b, d.drop (2 * k) = a :: b :: d.drop (2 * k + 2) := by
  refine ⟨d[2 * k], d[2 * k + 1], ?_⟩
  rw [List.drop_eq_getElem_cons (by omega), List.drop_eq_getElem_cons (by omega)]

/-- If the run over the positions returns, it returns the value of the string. -/
theorem collectPairs_eq_ok {r : Option Bytes} (hlen : 2 * k + 2 * n = (asBytes s).length)
    (h : collectPairs s (List.range' (2 * k) n 2) = .ok r) :
    r = decodePairs ((asBytes s).drop (2 * k)) := by
  induction n generalizing k r with
  | zero =>
      rw [List.drop_eq_nil_of_le (by omega)]
      exact (Except.ok.inj h).symm
  | succ n ih =>
      obtain ⟨a, b, hdrop⟩ := drop_pair (d := asBytes s) (k := k) (by omega)
      rw [range'_pairs, collectPairs] at h
      obtain ⟨pair, hslice, h⟩ := bind_eq_ok.mp h
      have hpair : pair = [a, b] := by
        rw [strSlice_eq_ok hslice, hdrop, show 2 * k + 2 - 2 * k = 2 by omega]
        rfl
      rw [hpair] at h
      rw [hdrop, decodePairs]
      cases hv : Radix.fromStrRadix 16 255 [a, b] with
      | none =>
          rw [hv] at h
          exact (Except.ok.inj h).symm
      | some v =>
          rw [hv] at h
          obtain ⟨rest, hrest, h⟩ := bind_eq_ok.mp h
          have hnext := ih (by omega) hrest
          rw [show 2 * (k + 1) = 2 * k + 2 by omega] at hnext
          rw [← Except.ok.inj h, hnext]
          cases decodePairs ((asBytes s).drop (2 * k + 2)) with
          | none => rfl
          | some vs => rfl

theorem unhex_eq_some_iff : unhex s = .ok (some bs) ↔ decodePairs (asBytes s) = some bs := by
  constructor
  · intro h
    rw [unhex] at h
    split at h
    · cases h
    · exact (collectPairs_eq_ok (k := 0) (by omega) h).symm
  · intro h
    have heven := even_of_decodePairs h
    have hascii := ascii_of_decodePairs h
    have hclear : ¬Straddled s := by
      rintro ⟨-, k, hk, -, hinside⟩
      exact hinside (isCharBoundary_of_ascii hascii hk)
    obtain ⟨r, hr⟩ := (unhex_returns_iff s).mpr hclear
    have hrun := hr
    rw [unhex, if_neg (not_not.mpr heven)] at hrun
    rw [hr, collectPairs_eq_ok (k := 0) (by omega) hrun, ← h]
    rfl

/-! ## Canonical strings -/

theorem decodePairs_pairOf (bs : Bytes) :
    decodePairs (bs.flatMap (Radix.pairOf Radix.lowerDigits)) = some bs := by
  induction bs with
  | nil => rfl
  | cons b bs ih =>
      have htable := Radix.digitTable_lower
      have hpair : Radix.fromStrRadix 16 255 (Radix.pairOf Radix.lowerDigits b) = some b.toNat :=
        Radix.fromStrRadix_pair_eq_some.mpr (Or.inr ⟨_, _,
          Radix.toDigit_digitByte htable (Radix.shiftRight_lt b),
          Radix.toDigit_digitByte htable (Radix.and_lt b), (Radix.halves_eq b).symm⟩)
      rw [List.flatMap_cons]
      exact decodePairs_eq_some.mpr ⟨b.toNat, hpair, bs, ih, by rw [UInt8.ofNat_toNat]⟩

/-- Every byte string comes back from its encoding. -/
theorem unhex_hex (bs : Bytes) : unhex (hex bs) = .ok (some bs) := by
  rw [unhex_eq_some_iff, hex, Radix.hex, Radix.asBytes_hexWith Radix.digitTable_lower]
  exact decodePairs_pairOf bs

/-- If the decoder accepts the string, it is the encoding of what it returns, up to case. -/
def Canonical (s : Text) : Prop :=
  ∀ bs, unhex s = .ok (some bs) → s.map Char.toLower = hex bs

/-- Pairs that all parse, one of them a plus sign with one digit. -/
def Signed (s : Text) : Prop :=
  (asBytes s).length % 2 = 0 ∧
    (∀ k, 2 * k + 2 ≤ (asBytes s).length → PairParses (asBytes s) k) ∧
    ∃ k, (asBytes s)[2 * k]? = some 0x2B

theorem exists_decodePairs_iff : (∃ bs, decodePairs d = some bs) ↔
    d.length % 2 = 0 ∧ ∀ k, 2 * k + 2 ≤ d.length → PairParses d k := by
  induction d using decodePairs.induct with
  | case1 => exact iff_of_true ⟨[], rfl⟩ ⟨rfl, fun k hk ↦ absurd hk (by simp)⟩
  | case2 a => exact iff_of_false nofun fun h ↦ absurd h.1 (by simp)
  | case3 a b rest ih =>
      have hlen : (a :: b :: rest).length = rest.length + 2 := rfl
      constructor
      · rintro ⟨bs, h⟩
        obtain ⟨v, hpair, vs, hrest, -⟩ := decodePairs_eq_some.mp h
        obtain ⟨heven, hparses⟩ := ih.mp ⟨vs, hrest⟩
        refine ⟨by omega, fun k hk ↦ ?_⟩
        cases k with
        | zero => exact Option.isSome_iff_exists.mpr ⟨v, hpair⟩
        | succ k => exact hparses k (by omega)
      · rintro ⟨heven, hparses⟩
        obtain ⟨v, hpair⟩ := Option.isSome_iff_exists.mp (hparses 0 (by omega))
        obtain ⟨vs, hrest⟩ := ih.mpr ⟨by omega, fun k hk ↦ hparses (k + 1) (by omega)⟩
        exact ⟨_, decodePairs_eq_some.mpr ⟨v, hpair, vs, hrest, rfl⟩⟩

theorem hex_cons (b : UInt8) (bs : Bytes) : hex (b :: bs) =
    Radix.lowerDigits.getD (b.toNat >>> 4) '0' ::
      Radix.lowerDigits.getD (b.toNat &&& 0x0F) '0' :: hex bs := rfl

theorem halves_of_digits {x y : ℕ} (hx : x < 16) (hy : y < 16) :
    (UInt8.ofNat (x * 16 + y)).toNat >>> 4 = x ∧ (UInt8.ofNat (x * 16 + y)).toNat &&& 0x0F = y := by
  rw [UInt8.toNat_ofNat', Nat.mod_eq_of_lt (by omega), Nat.shiftRight_eq_div_pow,
    show 0x0F = 2 ^ 4 - 1 from rfl, Nat.and_two_pow_sub_one_eq_mod]
  omega

theorem getD_lowerDigits_ne_plus {v : ℕ} (hv : v < 16) :
    Radix.lowerDigits.getD v '0' ≠ (Char.ofNat (0x2B : UInt8).toNat).toLower := by
  have hall : ∀ v < 16, Radix.lowerDigits.getD v '0' ≠
      (Char.ofNat (0x2B : UInt8).toNat).toLower := by decide
  exact hall v hv

theorem map_toLower_eq_hex_iff (h : decodePairs d = some bs) :
    (d.map fun b ↦ (Char.ofNat b.toNat).toLower) = hex bs ↔ ∀ k, d[2 * k]? ≠ some 0x2B := by
  induction d using decodePairs.induct generalizing bs with
  | case1 =>
      rw [← Option.some.inj h]
      exact iff_of_true rfl nofun
  | case2 => cases h
  | case3 a b rest ih =>
      obtain ⟨v, hpair, vs, hrest, rfl⟩ := decodePairs_eq_some.mp h
      have hhalf := Radix.shiftRight_lt (UInt8.ofNat v)
      rw [hex_cons, List.map_cons, List.map_cons, List.cons.injEq, List.cons.injEq, ih hrest]
      rcases Radix.fromStrRadix_pair_eq_some.mp hpair with ⟨rfl, -⟩ | ⟨x, y, ha, hb, rfl⟩
      · refine iff_of_false (fun heq ↦ ?_) fun hnone ↦ hnone 0 rfl
        exact getD_lowerDigits_ne_plus hhalf heq.1.symm
      · obtain ⟨hx, hy⟩ := halves_of_digits (Radix.toDigit_lt ha) (Radix.toDigit_lt hb)
        rw [hx, hy, Radix.toLower_of_toDigit ha, Radix.toLower_of_toDigit hb]
        simp only [true_and]
        constructor
        · intro hrest k
          cases k with
          | zero =>
              intro hplus
              rw [Option.some.inj hplus, Radix.toDigit_plus] at ha
              cases ha
          | succ k => exact hrest k
        · exact fun hall k ↦ hall (k + 1)

theorem canonical_iff (s : Text) : Canonical s ↔ ¬Signed s := by
  have heq : ∀ bs, decodePairs (asBytes s) = some bs →
      (s.map Char.toLower = hex bs ↔ ∀ k, (asBytes s)[2 * k]? ≠ some 0x2B) := by
    intro bs hbs
    have htext := eq_map_of_ascii (ascii_of_decodePairs hbs)
    rw [← map_toLower_eq_hex_iff hbs]
    conv_lhs => rw [htext, List.map_map]
    rfl
  rw [Canonical, Signed, ← and_assoc, ← exists_decodePairs_iff]
  simp only [unhex_eq_some_iff]
  constructor
  · rintro hcanonical ⟨⟨bs, hbs⟩, k, hplus⟩
    exact (heq bs hbs).mp (hcanonical bs hbs) k hplus
  · intro hnot bs hbs
    exact (heq bs hbs).mpr fun k hplus ↦ hnot ⟨⟨bs, hbs⟩, k, hplus⟩

end Accepts

/-- The check returns, and the decoder accepts canonical strings only, just where no character
lies across a pair and no pair has a sign; the encoding is decoded always. -/
theorem verify_and_codec {β κ : Type} (signingBytes : β → Bytes)
    (verifyingKey : Bytes → Option κ) (verifies : κ → Bytes → Bytes → Bool)
    (m : RepairManifest β) (bs : Bytes) (s : Text) :
    ((∃ b, m.verify signingBytes verifyingKey verifies = .ok b) ↔
        ¬Straddled m.publicKey ∧ ¬Straddled m.signature) ∧
      unhex (hex bs) = .ok (some bs) ∧
      (Canonical s ↔ ¬Signed s) :=
  ⟨verify_returns_iff signingBytes verifyingKey verifies m, unhex_hex bs, canonical_iff s⟩

/-- A three-byte character in front, and a sign within a pair. -/
theorem euroKey_stops :
    RepairManifest.verify (fun _ ↦ []) (fun _ ↦ some ()) (fun _ _ _ ↦ true)
        ⟨(), ['€', 'a'], []⟩ = .error .outOfRange ∧
      unhex ['+', 'f'] = .ok (some [0x0F]) ∧ ['+', 'f'].map Char.toLower ≠ hex [0x0F] := by
  decide

end VeraqisRecover.Recovery.Manifest
