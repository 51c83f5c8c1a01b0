import VeraqisRecover.Support.FirstOfRun
import VeraqisRecover.Zip.Ownership

/-!
# Which offsets the ownership map covers

Detection records every archive that validates below the horizon, up to its
cap, and then keeps one for each base: the one that ends first.  What a wider
archive of the same base contains beyond that end is owned only when some
other kept archive reaches it.
-/

namespace VeraqisRecover.Zip

open ByteString

/-- The archive an EOCD candidate at `p` proves. -/
def embeddedAt (data : Bytes) (policy : ZipRecoveryPolicy) (p : ℕ) : Option EmbeddedArchive :=
  if u32le data p = some eocdSig then validateEmbedded data p policy else none

/-- The archives proven at positions from `p` on, below `q`. -/
def embeddedFrom (data : Bytes) (policy : ZipRecoveryPolicy) (p q : ℕ) : List EmbeddedArchive :=
  (List.range' p (q - p)).filterMap (embeddedAt data policy)

/-- The EOCD at `p` lies below the scan horizon and proves `a` before the cap is reached. -/
structure Validated (data : Bytes) (policy : ZipRecoveryPolicy) (p : ℕ) (a : EmbeddedArchive) :
    Prop where
  below : p + eocdLen ≤ min data.length policy.maxScanBytes
  archive : embeddedAt data policy p = some a
  uncapped : (embeddedFrom data policy 0 p).length < maxEmbeddedArchives

theorem embeddedFrom_self (data : Bytes) (policy : ZipRecoveryPolicy) (p : ℕ) :
    embeddedFrom data policy p p = [] := by
  simp [embeddedFrom]

theorem embeddedFrom_step (data : Bytes) (policy : ZipRecoveryPolicy) {p q : ℕ} (h : p < q) :
    embeddedFrom data policy p q =
      (embeddedAt data policy p).toList ++ embeddedFrom data policy (p + 1) q := by
  obtain ⟨n, rfl⟩ : ∃ n, q = p + (n + 1) := ⟨q - p - 1, by omega⟩
  unfold embeddedFrom
  rw [show p + (n + 1) - p = n + 1 by omega, show p + (n + 1) - (p + 1) = n by omega,
    List.range'_succ, List.filterMap_cons]
  cases embeddedAt data policy p with
  | none => rfl
  | some a => rfl

/-- Some position from `p` on proves `a` while fewer than the cap are recorded, `n` of them
before `p`. -/
def Finds (data : Bytes) (policy : ZipRecoveryPolicy) (horizon p n : ℕ) (a : EmbeddedArchive) :
    Prop :=
  ∃ q, p ≤ q ∧ q + eocdLen ≤ horizon ∧ embeddedAt data policy q = some a ∧
    n + (embeddedFrom data policy p q).length < maxEmbeddedArchives

theorem finds_iff {data : Bytes} {policy : ZipRecoveryPolicy} {horizon p n : ℕ}
    {a : EmbeddedArchive} (hp : p + eocdLen ≤ horizon)
    (hcap : n < maxEmbeddedArchives ∨ embeddedAt data policy p = none) :
    Finds data policy horizon p n a ↔ embeddedAt data policy p = some a ∨
      Finds data policy horizon (p + 1) (n + (embeddedAt data policy p).toList.length) a := by
  constructor
  · rintro ⟨q, hpq, hq, hqa, hlen⟩
    rcases eq_or_lt_of_le hpq with rfl | hlt
    · exact .inl hqa
    · refine .inr ⟨q, hlt, hq, hqa, ?_⟩
      rw [embeddedFrom_step data policy hlt, List.length_append] at hlen
      omega
  · rintro (hpa | ⟨q, hpq, hq, hqa, hlen⟩)
    · refine ⟨p, le_rfl, hp, hpa, ?_⟩
      rw [embeddedFrom_self]
      rcases hcap with hcap | hnone
      · simpa using hcap
      · simp [hnone] at hpa
    · refine ⟨q, by omega, hq, hqa, ?_⟩
      rw [embeddedFrom_step data policy (by omega), List.length_append]
      omega

/-- The walk from `p` records what it was given and what validates before the cap. -/
theorem mem_detectFrom_iff {data : Bytes} {policy : ZipRecoveryPolicy} {horizon p : ℕ}
    {archives : List EmbeddedArchive} {a : EmbeddedArchive} :
    a ∈ detectFrom data policy horizon p archives ↔
      a ∈ archives ∨ Finds data policy horizon p archives.length a := by
  fun_induction detectFrom data policy horizon p archives with
  | case1 p archives hp hsig ih =>
      have hnone : embeddedAt data policy p = none := if_neg hsig
      refine ih.trans ?_
      rw [finds_iff hp (.inr hnone)]
      simp [hnone]
  | case2 p archives hp hsig hcap =>
      constructor
      · exact .inl
      · rintro (ha | ⟨q, -, -, -, hlen⟩)
        · exact ha
        · omega
  | case3 p archives hp hsig hcap b hb ih =>
      have hsome : embeddedAt data policy p = some b := (if_pos (not_not.mp hsig)).trans hb
      refine ih.trans ?_
      rw [finds_iff hp (.inl (not_le.mp hcap)), List.mem_append, List.mem_singleton, hsome]
      simp [or_assoc, eq_comm]
  | case4 p archives hp hsig hcap hb ih =>
      have hnone : embeddedAt data policy p = none := (if_pos (not_not.mp hsig)).trans hb
      refine ih.trans ?_
      rw [finds_iff hp (.inr hnone)]
      simp [hnone]
  | case5 p archives hp =>
      constructor
      · exact .inl
      · rintro (ha | ⟨q, hpq, hq, -⟩)
        · exact ha
        · omega

/-- The archives `detect` sorts. -/
def recordedArchives (data : Bytes) (policy : ZipRecoveryPolicy) : List EmbeddedArchive :=
  detectFrom data policy (min data.length policy.maxScanBytes) 0 []

theorem mem_recordedArchives_iff {data : Bytes} {policy : ZipRecoveryPolicy}
    {a : EmbeddedArchive} :
    a ∈ recordedArchives data policy ↔ ∃ p, Validated data policy p a := by
  rw [recordedArchives, mem_detectFrom_iff]
  constructor
  · rintro (ha | ⟨q, -, hq, hqa, hlen⟩)
    · simp at ha
    · exact ⟨q, hq, hqa, by simpa using hlen⟩
  · rintro ⟨q, hq, hqa, hlen⟩
    exact .inr ⟨q, Nat.zero_le q, hq, hqa, by simpa using hlen⟩

/-- No validated archive of the same base ends before `a`. -/
def NarrowestForBase (data : Bytes) (policy : ZipRecoveryPolicy) (a : EmbeddedArchive) : Prop :=
  ∀ q b, Validated data policy q b → b.base = a.base → a.stop ≤ b.stop

theorem detect_archives (data : Bytes) (policy : ZipRecoveryPolicy)
    (h : eocdLen ≤ data.length) :
    (ContainerOwnershipMap.detect data policy).archives =
      ((recordedArchives data policy).insertionSort EmbeddedArchive.Before).destutter
        (·.base ≠ ·.base) := by
  unfold ContainerOwnershipMap.detect
  rw [if_neg (by omega)]
  rfl

theorem recordedArchives_pairwise (data : Bytes) (policy : ZipRecoveryPolicy) :
    ((recordedArchives data policy).insertionSort EmbeddedArchive.Before).Pairwise
      (FirstOfRun.Before EmbeddedArchive.base EmbeddedArchive.stop) := by
  have htotal : Std.Total EmbeddedArchive.Before :=
    ⟨fun a b ↦ by unfold EmbeddedArchive.Before; omega⟩
  have htrans : IsTrans EmbeddedArchive EmbeddedArchive.Before :=
    ⟨fun a b c ↦ by unfold EmbeddedArchive.Before; omega⟩
  exact List.pairwise_insertionSort EmbeddedArchive.Before _

/-- What the map keeps was validated, and is the narrowest of its base. -/
theorem validated_of_mem_detect {data : Bytes} {policy : ZipRecoveryPolicy} {c : EmbeddedArchive}
    (h : c ∈ (ContainerOwnershipMap.detect data policy).archives) :
    (∃ q, Validated data policy q c) ∧ NarrowestForBase data policy c := by
  by_cases hlen : eocdLen ≤ data.length
  · rw [detect_archives data policy hlen] at h
    have hsub := (List.destutter_sublist _ _).subset h
    refine ⟨mem_recordedArchives_iff.mp ((List.mem_insertionSort _).mp hsub), fun q b hb hbase ↦ ?_⟩
    have hmem := mem_recordedArchives_iff.mpr ⟨q, hb⟩
    exact FirstOfRun.val_le_of_mem_destutter (recordedArchives_pairwise data policy) h
      ((List.mem_insertionSort _).mpr hmem) hbase
  · unfold ContainerOwnershipMap.detect at h
    rw [if_pos (by omega)] at h
    simp at h

/-- Every validated archive leaves one of its base in the map. -/
theorem exists_mem_detect {data : Bytes} {policy : ZipRecoveryPolicy} {p : ℕ} {a : EmbeddedArchive}
    (h : Validated data policy p a) :
    ∃ c ∈ (ContainerOwnershipMap.detect data policy).archives, c.base = a.base := by
  have hbelow := h.below
  rw [detect_archives data policy (by omega)]
  exact FirstOfRun.exists_mem_destutter
    ((List.mem_insertionSort _).mpr (mem_recordedArchives_iff.mpr ⟨p, h⟩))

/-! ## The innermost owner -/

/-- The best of `seen` is the archive of largest base that contains the offset. -/
structure Innermost (offset : ℕ) (seen : List EmbeddedArchive) (best : Option EmbeddedArchive) :
    Prop where
  contains : ∀ x ∈ best, x.contains offset = true
  le : ∀ c ∈ seen, c.contains offset = true → ∃ x ∈ best, c.base ≤ x.base

theorem Innermost.step {offset : ℕ} {seen : List EmbeddedArchive} {best : Option EmbeddedArchive}
    (h : Innermost offset seen best) (a : EmbeddedArchive) :
    Innermost offset (seen ++ [a])
      (if a.contains offset && best.all (fun b ↦ b.base < a.base) then some a else best) := by
  split
  · rename_i hnew
    simp only [Bool.and_eq_true, Option.all_eq_true, decide_eq_true_eq] at hnew
    refine ⟨by simpa using hnew.1, fun c hc hcontains ↦ ⟨a, rfl, ?_⟩⟩
    rcases List.mem_append.mp hc with hc | hc
    · obtain ⟨x, hx, hle⟩ := h.le c hc hcontains
      exact hle.trans (hnew.2 x hx).le
    · rw [List.mem_singleton.mp hc]
  · rename_i hold
    refine ⟨h.contains, fun c hc hcontains ↦ ?_⟩
    rcases List.mem_append.mp hc with hc | hc
    · exact h.le c hc hcontains
    · rw [List.mem_singleton.mp hc] at hcontains ⊢
      cases best with
      | none => simp [hcontains] at hold
      | some x => exact ⟨x, rfl, by simpa [hcontains] using hold⟩

theorem Innermost.foldl {offset : ℕ} {seen : List EmbeddedArchive} {best : Option EmbeddedArchive}
    (h : Innermost offset seen best) (l : List EmbeddedArchive) :
    Innermost offset (seen ++ l) (l.foldl (fun best a ↦
      if a.contains offset && best.all (fun b ↦ b.base < a.base) then some a else best) best) := by
  induction l generalizing seen best with
  | nil => simpa using h
  | cons a l ih =>
      have hnext := ih (h.step a)
      rwa [List.append_assoc, List.singleton_append] at hnext

/-- The owner contains the offset, and no archive that contains it begins later. -/
theorem ownerOf_innermost {m : ContainerOwnershipMap} (hm : m.Sorted) {offset : ℕ}
    {b : EmbeddedArchive} (h : m.ownerOf offset = some b) :
    b.contains offset = true ∧
      ∀ c ∈ m.archives, c.contains offset = true → c.base ≤ b.base := by
  have hnone : Innermost offset [] none := ⟨by simp, by simp⟩
  have hrun := hnone.foldl (m.archives.takeWhile fun a ↦ a.base ≤ offset).reverse
  rw [ContainerOwnershipMap.ownerOf] at h
  rw [h] at hrun
  refine ⟨hrun.contains b rfl, fun c hc hcontains ↦ ?_⟩
  have hbase : c.base ≤ offset := by
    simp only [EmbeddedArchive.contains, Bool.and_eq_true, decide_eq_true_eq] at hcontains
    exact hcontains.1
  have hmem := ContainerOwnershipMap.mem_takeWhile_base hm hc hbase
  obtain ⟨x, hx, hle⟩ := hrun.le c (by simpa using hmem) hcontains
  rwa [Option.mem_some_iff.mp hx]

/-! ## Coverage -/

/-- Every offset of every validated archive is owned, and the owner is the innermost archive of
the map. -/
structure Covers (data : Bytes) (policy : ZipRecoveryPolicy) : Prop where
  owned : ∀ p a, Validated data policy p a → ∀ offset, a.contains offset = true →
    ((ContainerOwnershipMap.detect data policy).ownerOf offset).isSome = true
  innermost : ∀ offset b, (ContainerOwnershipMap.detect data policy).ownerOf offset = some b →
    b.contains offset = true ∧ ∀ c ∈ (ContainerOwnershipMap.detect data policy).archives,
      c.contains offset = true → c.base ≤ b.base

/-- An offset is owned exactly when an archive that is the narrowest of its base contains it. -/
theorem owned_iff (data : Bytes) (policy : ZipRecoveryPolicy) (offset : ℕ) :
    ((ContainerOwnershipMap.detect data policy).ownerOf offset).isSome = true ↔
      ∃ q c, Validated data policy q c ∧ NarrowestForBase data policy c ∧
        c.contains offset = true := by
  rw [ContainerOwnershipMap.ownerOf_isSome_iff (ContainerOwnershipMap.detect_sorted data policy)]
  constructor
  · rintro ⟨c, hc, hcontains⟩
    obtain ⟨⟨q, hq⟩, hnarrow⟩ := validated_of_mem_detect hc
    exact ⟨q, c, hq, hnarrow, hcontains⟩
  · rintro ⟨q, c, hq, hnarrow, hcontains⟩
    obtain ⟨d, hd, hbase⟩ := exists_mem_detect hq
    obtain ⟨⟨p, hp⟩, -⟩ := validated_of_mem_detect hd
    have hstop := hnarrow p d hp hbase
    refine ⟨d, hd, ?_⟩
    simp only [EmbeddedArchive.contains, Bool.and_eq_true, decide_eq_true_eq] at hcontains ⊢
    omega

/-- Coverage holds exactly when the validated archives that are the narrowest of their base reach
every offset the others do. -/
theorem covers_iff (data : Bytes) (policy : ZipRecoveryPolicy) :
    Covers data policy ↔
      ∀ p a, Validated data policy p a → ∀ offset, a.contains offset = true →
        ∃ q c, Validated data policy q c ∧ NarrowestForBase data policy c ∧
          c.contains offset = true := by
  constructor
  · intro h p a ha offset hcontains
    exact (owned_iff data policy offset).mp (h.owned p a ha offset hcontains)
  · intro h
    refine ⟨fun p a ha offset hcontains ↦ ?_, fun offset b hb ↦ ?_⟩
    · exact (owned_iff data policy offset).mpr (h p a ha offset hcontains)
    · exact ownerOf_innermost (ContainerOwnershipMap.detect_sorted data policy) hb

/-- One byte, then an archive of `x` that was extended in place by `y`: the old directory and EOCD
stand between the two members, and more of the host follows. -/
def extendedInPlace : Bytes :=
  let fl := storedFlate
  let x : Part := ⟨['x'], [0x01]⟩
  let y : Part := ⟨['y'], [0x02]⟩
  let oldCd := centralRecord fl x 0
  let old := localRecord fl x ++ oldCd ++ endRecord 1 oldCd.length (localRecord fl x).length
  let body := old ++ localRecord fl y
  let cd := oldCd ++ centralRecord fl y old.length
  [0x00] ++ body ++ cd ++ endRecord 2 cd.length body.length ++ [0x00]

theorem extendedInPlace_not_covered : ¬ Covers extendedInPlace .default := by
  have hwide : embeddedAt extendedInPlace .default 228 = some ⟨1, 250, 134, 228, 2, 2⟩ := by
    decide +kernel
  have hcap : (embeddedFrom extendedInPlace .default 0 228).length < maxEmbeddedArchives := by
    refine (List.length_filterMap_le _ _).trans_lt ?_
    rw [List.length_range']
    decide
  have hout : ((ContainerOwnershipMap.detect extendedInPlace .default).ownerOf 102).isSome =
      false := by decide +kernel
  intro h
  have howned := h.owned 228 _ ⟨by decide +kernel, hwide, hcap⟩ 102 (by decide)
  simp [hout] at howned

end VeraqisRecover.Zip
