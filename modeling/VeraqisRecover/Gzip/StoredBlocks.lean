import VeraqisRecover.Gzip.Salvage
import VeraqisRecover.Support.SkippingScan

/-!
# Stored blocks

The scan of `resync/deflate.rs` takes a stored block wherever one starts and goes on
behind it.  What it leaves out lies in a block that it took.
-/

namespace VeraqisRecover.Gzip

open ByteString

/-- A length of at least eight with its complement at `i`, and as many bytes behind them. -/
structure StoredAt (data : Bytes) (i len : ℕ) : Prop where
  length : u16le data i = some len
  complement : ∃ nlen, u16le data (i + 2) = some nlen ∧ len ^^^ nlen = 0xFFFF
  trusted : 8 ≤ len
  inside : i + 4 + len ≤ data.length

/-- Behind the last byte of a block. -/
def StoredBlock.stop (b : StoredBlock) : ℕ := b.headerOffset + 4 + b.len

/-- Blocks one behind the other, each of them a stored block with its payload, and with them every
stored block that is inside none of them. -/
structure BlocksOf (data : Bytes) (blocks : List StoredBlock) : Prop where
  apart : blocks.Pairwise fun a b ↦ a.stop ≤ b.headerOffset
  stored : ∀ b ∈ blocks, StoredAt data b.headerOffset b.len ∧
    b.payload = (data.drop (b.headerOffset + 4)).take b.len
  complete : ∀ i len, StoredAt data i len →
    (∀ b ∈ blocks, ¬ (b.headerOffset < i ∧ i < b.stop)) → ∃ b ∈ blocks, b.headerOffset = i

/-- The payload bytes recoverable from stored blocks. -/
def storedBlockBytes (data : Bytes) : ℕ := ((scanStoredBlocks data).map StoredBlock.len).sum

variable {data : Bytes} {i : ℕ} {b : StoredBlock}

theorem headerOffset_of_stored (h : storedBlockAt data i = some b) : b.headerOffset = i := by
  simp only [storedBlockAt, Option.bind_eq_bind, Option.bind_eq_some_iff] at h
  obtain ⟨len, -, nlen, -, h⟩ := h
  split at h
  · obtain ⟨payload, -, hb⟩ := Option.bind_eq_some_iff.mp h
    rw [← Option.some.inj hb]
  · cases h

/-- What the scan takes for a block; no slice is long enough for its end to saturate. -/
theorem storedBlockAt_eq_some (hd : data.length < wordMax) {len : ℕ} {payload : Bytes} :
    storedBlockAt data i = some ⟨i, len, payload⟩ ↔
      StoredAt data i len ∧ payload = (data.drop (i + 4)).take len := by
  simp only [storedBlockAt, Option.bind_eq_bind, Option.bind_eq_some_iff]
  constructor
  · rintro ⟨len', hlen, nlen, hnlen, h⟩
    split at h
    · rename_i htest
      obtain ⟨payload', hslice, hb⟩ := Option.bind_eq_some_iff.mp h
      obtain ⟨-, rfl, rfl⟩ := StoredBlock.mk.inj (Option.some.inj hb)
      obtain ⟨⟨-, hinside⟩, htake⟩ := slice?_eq_some.mp hslice
      have hstop : saturatingAdd (i + 4) len' = i + 4 + len' := by
        unfold saturatingAdd at hinside ⊢
        omega
      rw [hstop] at hinside htake
      rw [Nat.add_sub_cancel_left] at htake
      exact ⟨⟨hlen, ⟨nlen, hnlen, htest.1⟩, htest.2, hinside⟩, htake.symm⟩
    · cases h
  · rintro ⟨h, rfl⟩
    obtain ⟨nlen, hnlen, hxor⟩ := h.complement
    have hinside := h.inside
    refine ⟨len, h.length, nlen, hnlen, ?_⟩
    rw [if_pos ⟨hxor, h.trusted⟩, saturatingAdd_of_le (by omega)]
    have hslice : slice? data (i + 4) (i + 4 + len) = some ((data.drop (i + 4)).take len) := by
      rw [slice?_eq_some, Nat.add_sub_cancel_left]
      exact ⟨⟨by omega, hinside⟩, rfl⟩
    rw [hslice, Option.bind_some]

/-! ## The scan -/

/-- The scan, by where the blocks end. -/
def storedScan (data : Bytes) : SkippingScan where
  stop i := (storedBlockAt data i).map StoredBlock.stop
  lt := by
    intro p q h
    obtain ⟨b, hb, rfl⟩ := Option.map_eq_some_iff.mp h
    rw [StoredBlock.stop, headerOffset_of_stored hb]
    omega

theorem scanFrom_eq (data : Bytes) (i : ℕ) :
    scanFrom data i =
      ((storedScan data).run (data.length - 3) i).filterMap (storedBlockAt data) := by
  fun_induction scanFrom data i with
  | case1 i hi b hb ih =>
      have hstop : (storedScan data).stop i = some (i + 4 + b.len) := by
        simp only [storedScan, hb, Option.map_some, StoredBlock.stop, headerOffset_of_stored hb]
      rw [SkippingScan.run_of_stop (by omega) hstop, List.filterMap_cons_some hb, ih]
  | case2 i hi hnone ih =>
      have hstop : (storedScan data).stop i = none := by
        simp only [storedScan, hnone, Option.map_none]
      rw [SkippingScan.run_of_none (by omega) hstop, ih]
  | case3 i hi => rw [SkippingScan.run_of_le (by omega), List.filterMap_nil]

/-- The early return only spares a scan that finds nothing. -/
theorem scanStoredBlocks_eq (hd : data.length < wordMax) :
    scanStoredBlocks data = scanFrom data 0 := by
  unfold scanStoredBlocks
  split
  · rename_i hshort
    rw [scanFrom_eq, eq_comm, List.filterMap_eq_nil_iff]
    intro i _
    rw [Option.eq_none_iff_forall_ne_some]
    rintro ⟨o, len, payload⟩ hb
    obtain rfl : o = i := headerOffset_of_stored hb
    obtain ⟨h, -⟩ := (storedBlockAt_eq_some hd).mp hb
    have htrusted := h.trusted
    have hinside := h.inside
    unfold minStoredLen at hshort
    omega
  · rfl

theorem mem_scanStoredBlocks (hd : data.length < wordMax) :
    b ∈ scanStoredBlocks data ↔
      ∃ i ∈ (storedScan data).run (data.length - 3) 0, storedBlockAt data i = some b := by
  rw [scanStoredBlocks_eq hd, scanFrom_eq, List.mem_filterMap]

theorem scanStoredBlocks_apart (hd : data.length < wordMax) :
    (scanStoredBlocks data).Pairwise fun a b ↦ a.stop ≤ b.headerOffset := by
  rw [scanStoredBlocks_eq hd, scanFrom_eq, List.pairwise_filterMap]
  refine (SkippingScan.run_apart _ _).imp fun {x y} hxy a ha b hb ↦ ?_
  rw [headerOffset_of_stored hb]
  exact hxy _ (Option.map_eq_some_iff.mpr ⟨a, ha, rfl⟩)

theorem stored_of_mem (hd : data.length < wordMax) (hb : b ∈ scanStoredBlocks data) :
    StoredAt data b.headerOffset b.len ∧
      b.payload = (data.drop (b.headerOffset + 4)).take b.len := by
  obtain ⟨i, -, hat⟩ := (mem_scanStoredBlocks hd).mp hb
  obtain rfl := headerOffset_of_stored hat
  exact (storedBlockAt_eq_some hd).mp hat

/-- A block that is not taken lies in one that is. -/
theorem taken_or_inside (hd : data.length < wordMax) {len : ℕ} (h : StoredAt data i len) :
    (∃ b ∈ scanStoredBlocks data, b.headerOffset = i) ∨
      ∃ b ∈ scanStoredBlocks data, b.headerOffset < i ∧ i < b.stop := by
  have hb := (storedBlockAt_eq_some hd).mpr ⟨h, rfl⟩
  have hsome : ((storedScan data).stop i).isSome = true := by
    simp only [storedScan, hb, Option.map_some, Option.isSome_some]
  have hin : i < data.length - 3 := by
    have hinside := h.inside
    have htrusted := h.trusted
    omega
  rcases SkippingScan.mem_run_or_covered hin hsome with hrun | ⟨y, hy, r, hr, hyi, hir⟩
  · exact Or.inl ⟨_, (mem_scanStoredBlocks hd).mpr ⟨i, hrun, hb⟩, rfl⟩
  · obtain ⟨a, ha, rfl⟩ := Option.map_eq_some_iff.mp hr
    refine Or.inr ⟨a, (mem_scanStoredBlocks hd).mpr ⟨y, hy, ha⟩, ?_, hir⟩
    rwa [headerOffset_of_stored ha]

theorem scanStoredBlocks_blocksOf (hd : data.length < wordMax) :
    BlocksOf data (scanStoredBlocks data) where
  apart := scanStoredBlocks_apart hd
  stored _ hb := stored_of_mem hd hb
  complete i len h hout := by
    rcases taken_or_inside hd h with htaken | ⟨b, hb, hinside⟩
    · exact htaken
    · exact absurd hinside (hout b hb)

/-- A block whose payload begins with the header of another. -/
def nested : Bytes := [0, 12, 0, 0xF3, 0xFF, 8, 0, 0xF7, 0xFF, 1, 2, 3, 4, 5, 6, 7, 8]

theorem scanStoredBlocks_blocksOf_nested :
    BlocksOf nested (scanStoredBlocks nested) ∧ storedBlockAt nested 5 ≠ none :=
  ⟨scanStoredBlocks_blocksOf (by decide), by decide⟩

theorem sum_len_le {blocks : List StoredBlock} {lo hi : ℕ} (hle : lo ≤ hi)
    (hapart : blocks.Pairwise fun a b ↦ a.stop ≤ b.headerOffset)
    (hlo : ∀ b ∈ blocks, lo ≤ b.headerOffset) (hhi : ∀ b ∈ blocks, b.stop ≤ hi) :
    lo + (blocks.map StoredBlock.len).sum ≤ hi := by
  induction blocks generalizing lo with
  | nil => simpa using hle
  | cons a rest ih =>
      obtain ⟨hfirst, hrest⟩ := List.pairwise_cons.mp hapart
      have hstart := hlo a List.mem_cons_self
      have hsum := ih (hhi a List.mem_cons_self) hrest hfirst
        fun b hb ↦ hhi b (List.mem_cons_of_mem a hb)
      rw [StoredBlock.stop] at hsum
      rw [List.map_cons, List.sum_cons]
      omega

/-- No more is recoverable than there is. -/
theorem storedBlockBytes_le (hd : data.length < wordMax) : storedBlockBytes data ≤ data.length := by
  have hsum := sum_len_le (Nat.zero_le data.length) (scanStoredBlocks_apart hd)
    (fun _ _ ↦ Nat.zero_le _) fun b hb ↦ (stored_of_mem hd hb).1.inside
  rwa [Nat.zero_add] at hsum

end VeraqisRecover.Gzip
