import VeraqisRecover.Analyze.Hasher

/-!
# Blocks partition the stream

However the reader splits the stream, the records are those of its consecutive
blocks, up to the cap.
-/

namespace VeraqisRecover.Analyze

open ByteString Checked LossyUtf8

variable {σ ε : Type} {H : StreamingHash σ} {size maxBlocks k : ℕ} {seen more : Bytes}
  {st : StreamState σ}

/-! ## Full blocks -/

variable (H size) in
/-- The record of the block with this index. -/
def fullBlock (bytes : Bytes) (i : ℕ) : BlockVerification :=
  makeBlock i (i * size) size (toHex (H.digest ((bytes.drop (i * size)).take size)))

variable (H size) in
def fullBlocks (k : ℕ) (bytes : Bytes) : List BlockVerification :=
  (List.range k).map (fullBlock H size bytes)

theorem length_fullBlocks (k : ℕ) (bytes : Bytes) : (fullBlocks H size k bytes).length = k := by
  rw [fullBlocks, List.length_map, List.length_range]

theorem fullBlocks_succ (k : ℕ) (bytes : Bytes) :
    fullBlocks H size (k + 1) bytes = fullBlocks H size k bytes ++ [fullBlock H size bytes k] := by
  rw [fullBlocks, List.range_succ, List.map_append]
  rfl

/-- What comes later does not change the blocks already there. -/
theorem fullBlocks_append (h : k * size ≤ seen.length) :
    fullBlocks H size k (seen ++ more) = fullBlocks H size k seen := by
  refine List.map_congr_left fun i hi ↦ ?_
  have hik : i + 1 ≤ k := List.mem_range.mp hi
  have hend : (i + 1) * size ≤ seen.length := (Nat.mul_le_mul_right size hik).trans h
  rw [Nat.succ_mul] at hend
  rw [fullBlock, fullBlock, List.drop_append_of_le_length (by omega),
    List.take_append_of_le_length (by rw [List.length_drop]; omega)]

/-! ## One chunk -/

/-- Where the loop stands after `seen`: the open block holds what the full ones left over. -/
structure Filling (H : StreamingHash σ) (size cap : ℕ) (seen : Bytes) (st : StreamState σ) :
    Prop where
  notCapped : st.blocksCapped = false
  blocks : st.blocks = fullBlocks H size st.blockIndex seen
  below : st.blockIndex < cap
  offset : st.blockOffset = st.blockIndex * size
  filled_lt : st.blockFilled < size
  length : seen.length = st.blockIndex * size + st.blockFilled
  hasher : st.blockHasher.getD H.new = H.update H.new (seen.drop (st.blockIndex * size))
  started : 0 < st.blockFilled → st.blockHasher.isSome

/-- The loop has stopped after so many full blocks. -/
structure Capped (H : StreamingHash σ) (size cap : ℕ) (seen : Bytes) (st : StreamState σ) :
    Prop where
  capped : st.blocksCapped = true
  blocks : st.blocks = fullBlocks H size cap seen
  length : cap * size ≤ seen.length

theorem Capped.append (h : Capped H size k seen st) (more : Bytes) :
    Capped H size k (seen ++ more) st where
  capped := h.capped
  blocks := h.blocks.trans (fullBlocks_append h.length).symm
  length := by
    rw [List.length_append]
    exact h.length.trans (Nat.le_add_right _ _)

theorem hasher_absorb (h : Filling H size k seen st) (piece : Bytes) :
    (st.absorb H piece).blockHasher.getD H.new =
      H.update H.new ((seen ++ piece).drop (st.blockIndex * size)) := by
  have hlen := h.length
  change H.update (st.blockHasher.getD H.new) piece = _
  rw [List.drop_append_of_le_length (by omega), H.update_append, h.hasher]

/-- A piece that does not fill the block. -/
theorem Filling.absorb (h : Filling H size k seen st) {piece : Bytes}
    (hroom : st.blockFilled + piece.length < size) :
    Filling H size k (seen ++ piece) (st.absorb H piece) where
  notCapped := h.notCapped
  blocks := h.blocks.trans (fullBlocks_append (h.length ▸ Nat.le_add_right _ _)).symm
  below := h.below
  offset := h.offset
  filled_lt := hroom
  length := by
    rw [List.length_append, h.length, Nat.add_assoc]
    rfl
  hasher := hasher_absorb h piece
  started _ := rfl

/-- A piece that fills the block. -/
theorem blocks_finishBlock (h : Filling H size k seen st) {piece : Bytes}
    (hfull : st.blockFilled + piece.length = size) :
    ((st.absorb H piece).finishBlock H size).blocks =
      fullBlocks H size (st.blockIndex + 1) (seen ++ piece) := by
  have hlen := h.length
  have hlast : (seen ++ piece).drop (st.blockIndex * size) =
      ((seen ++ piece).drop (st.blockIndex * size)).take size := by
    rw [List.take_of_length_le]
    rw [List.length_drop, List.length_append]
    omega
  have hblock : makeBlock st.blockIndex st.blockOffset size
      (toHex (H.finalize ((st.absorb H piece).blockHasher.getD H.new))) =
      fullBlock H size (seen ++ piece) st.blockIndex := by
    rw [hasher_absorb h, hlast, h.offset]
    rfl
  rw [fullBlocks_succ, ← hblock, fullBlocks_append (hlen ▸ Nat.le_add_right _ _), ← h.blocks]
  rfl

theorem length_append_full (h : Filling H size k seen st) {piece : Bytes}
    (hfull : st.blockFilled + piece.length = size) :
    (seen ++ piece).length = (st.blockIndex + 1) * size := by
  rw [List.length_append, h.length, Nat.succ_mul]
  omega

theorem Filling.finishBlock (h : Filling H size k seen st) {piece : Bytes}
    (hfull : st.blockFilled + piece.length = size) (hbelow : st.blockIndex + 1 < k) :
    Filling H size k (seen ++ piece) ((st.absorb H piece).finishBlock H size) where
  notCapped := h.notCapped
  blocks := blocks_finishBlock h hfull
  below := hbelow
  offset := (congrArg (· + size) h.offset).trans (Nat.succ_mul _ _).symm
  filled_lt := (Nat.zero_le _).trans_lt h.filled_lt
  length := length_append_full h hfull
  hasher := by
    have hend := length_append_full h hfull
    change H.new = H.update H.new ((seen ++ piece).drop ((st.blockIndex + 1) * size))
    rw [← hend, List.drop_length, H.update_nil]
  started hpos := absurd hpos (Nat.lt_irrefl 0)

theorem Filling.cap (h : Filling H size k seen st) {piece : Bytes}
    (hfull : st.blockFilled + piece.length = size) (hcap : k ≤ st.blockIndex + 1) :
    Capped H size k (seen ++ piece)
      { (st.absorb H piece).finishBlock H size with blocksCapped := true } where
  capped := rfl
  blocks := by
    rw [show k = st.blockIndex + 1 by have := h.below; omega]
    exact blocks_finishBlock h hfull
  length := (Nat.mul_le_mul_right size (show k ≤ st.blockIndex + 1 from hcap)).trans_eq
    (length_append_full h hfull).symm

/-- The cap is looked at behind a push, so it takes effect as if it were at least one. -/
def effectiveCap (maxBlocks : ℕ) : ℕ := max maxBlocks 1

/-- Where the loop stands, open or stopped. -/
def Stands (H : StreamingHash σ) (size cap : ℕ) (seen : Bytes) (st : StreamState σ) : Prop :=
  Filling H size cap seen st ∨ Capped H size cap seen st

theorem fillBlocks_eq {rest : Bytes} (hrest : rest ≠ []) (hfilled : st.blockFilled ≤ size)
    {take : ℕ} (htake : take = min (size - st.blockFilled) rest.length) :
    fillBlocks H size maxBlocks st rest =
      if (st.absorb H (rest.take take)).blockFilled = size then
        if maxBlocks ≤ ((st.absorb H (rest.take take)).finishBlock H size).blocks.length then
          .ok { (st.absorb H (rest.take take)).finishBlock H size with blocksCapped := true }
        else fillBlocks H size maxBlocks ((st.absorb H (rest.take take)).finishBlock H size)
          (rest.drop take)
      else fillBlocks H size maxBlocks (st.absorb H (rest.take take)) (rest.drop take) := by
  subst htake
  rw [fillBlocks, if_neg hrest, if_neg hfilled.not_gt]

theorem le_length_finishBlock (h : Filling H size (effectiveCap k) seen st) (piece : Bytes) :
    k ≤ ((st.absorb H piece).finishBlock H size).blocks.length ↔
      effectiveCap k ≤ st.blockIndex + 1 := by
  have hlen : ((st.absorb H piece).finishBlock H size).blocks.length = st.blockIndex + 1 := by
    change (st.blocks ++ [_]).length = _
    rw [List.length_append, h.blocks, length_fullBlocks]
    rfl
  rw [hlen, effectiveCap]
  omega

theorem fillBlocks_returns {rest : Bytes} (h : Filling H size (effectiveCap maxBlocks) seen st) :
    Returns (fillBlocks H size maxBlocks st rest) fun st' ↦
      st'.global = st.global ∧ Stands H size (effectiveCap maxBlocks) (seen ++ rest) st' := by
  induction st, rest using fillBlocks.induct H size maxBlocks generalizing seen with
  | case1 st =>
      rw [fillBlocks, if_pos rfl]
      exact returns_ok ⟨rfl, Or.inl (by rwa [List.append_nil])⟩
  | case2 st rest hrest hover => exact absurd h.filled_lt hover.not_gt
  | case3 st rest hrest hover take =>
      rename_i st' hfull full hcap
      have hwhole : seen ++ rest.take take ++ rest.drop take = seen ++ rest := by
        rw [List.append_assoc, List.take_append_drop]
      rw [fillBlocks_eq hrest (not_lt.mp hover) rfl, if_pos hfull, if_pos hcap, ← hwhole]
      exact returns_ok ⟨rfl, Or.inr ((h.cap hfull ((le_length_finishBlock h _).mp hcap)).append _)⟩
  | case4 st rest hrest hover take st' =>
      rename_i hfull full hcap ih
      have hwhole : seen ++ rest.take take ++ rest.drop take = seen ++ rest := by
        rw [List.append_assoc, List.take_append_drop]
      have hbelow := not_le.mp (mt (le_length_finishBlock h _).mpr hcap)
      rw [fillBlocks_eq hrest (not_lt.mp hover) rfl, if_pos hfull, if_neg hcap, ← hwhole]
      exact ih (h.finishBlock hfull hbelow)
  | case5 st rest hrest hover take st' =>
      rename_i hopen ih
      have hwhole : seen ++ rest.take take ++ rest.drop take = seen ++ rest := by
        rw [List.append_assoc, List.take_append_drop]
      have hroom : st.blockFilled + (rest.take take).length < size := by
        refine lt_of_le_of_ne ?_ hopen
        rw [List.length_take]
        omega
      rw [fillBlocks_eq hrest (not_lt.mp hover) rfl, if_neg hopen, ← hwhole]
      exact ih (h.absorb hroom)

/-! ## A block size of zero -/

/-- With blocks of no bytes the loop stays where it is until the cap stops it. -/
theorem fillBlocks_zero_returns {rest : Bytes} (hrest : rest ≠ []) (hfilled : st.blockFilled = 0) :
    Returns (fillBlocks H 0 maxBlocks st rest) fun st' ↦
      st'.global = st.global ∧ st'.blocksCapped = true ∧ ∃ b ∈ st'.blocks, b.lengthBytes = 0 := by
  induction st, rest using fillBlocks.induct H 0 maxBlocks with
  | case1 st => exact absurd rfl hrest
  | case2 st rest _ hover => exact absurd hfilled hover.ne'
  | case3 st rest _ hover take =>
      rename_i st' hfull full hcap
      rw [fillBlocks_eq hrest hfilled.le rfl, if_pos hfull, if_pos hcap]
      exact returns_ok ⟨rfl, rfl, _, List.mem_append_right _ (List.mem_singleton_self _), rfl⟩
  | case4 st rest _ hover take st' =>
      rename_i hfull full hcap ih
      have hdrop : rest.drop take = rest := by
        rw [show take = 0 by omega, List.drop_zero]
      rw [fillBlocks_eq hrest hfilled.le rfl, if_pos hfull, if_neg hcap]
      exact ih (hdrop.symm ▸ hrest) rfl
  | case5 st rest _ hover take st' =>
      rename_i hopen ih
      have hlen : st'.blockFilled = st.blockFilled + (rest.take take).length := rfl
      rw [List.length_take] at hlen
      omega

/-! ## All reads -/

/-- What every chunk keeps is kept by the loop over the reads. -/
theorem readLoop_returns {blockSize : Option ℕ} {P : Bytes → StreamState σ → Prop}
    (hstep : ∀ seen st chunk, chunk ≠ [] → P seen st →
      Returns (feedChunk H maxBlocks blockSize st chunk) (P (seen ++ chunk)))
    {chunks : List Bytes} (hchunks : ∀ c ∈ chunks, c ≠ []) (hst : P seen st) :
    Returns (readLoop H maxBlocks blockSize st (chunks.map (Except.ok (ε := ε))))
      fun r ↦ ∃ st', r = .ok st' ∧ P (seen ++ chunks.flatten) st' := by
  induction chunks generalizing seen st with
  | nil => exact returns_ok ⟨st, rfl, by rwa [List.flatten_nil, List.append_nil]⟩
  | cons chunk chunks ih =>
      obtain ⟨hchunk, hrest⟩ := List.forall_mem_cons.mp hchunks
      rw [List.map_cons, readLoop, List.flatten_cons, ← List.append_assoc]
      · exact (hstep seen st chunk hchunk hst).bind fun st' hst' ↦ ih hrest hst'
      · exact hchunk

/-- The run of a block size that is not zero. -/
def Run (H : StreamingHash σ) (size cap : ℕ) (seen : Bytes) (st : StreamState σ) : Prop :=
  st.global = H.update H.new seen ∧ Stands H size cap seen st

theorem Filling.withGlobal (h : Filling H size k seen st) (g : σ) :
    Filling H size k seen { st with global := g } := ⟨h.1, h.2, h.3, h.4, h.5, h.6, h.7, h.8⟩

theorem feedChunk_of_open (h : st.blocksCapped = false) (chunk : Bytes) :
    feedChunk H maxBlocks (some size) st chunk =
      fillBlocks H size maxBlocks { st with global := H.update st.global chunk } chunk :=
  if_neg (ne_true_of_eq_false h)

theorem feedChunk_of_capped (h : st.blocksCapped = true) (chunk : Bytes) :
    feedChunk H maxBlocks (some size) st chunk =
      .ok { st with global := H.update st.global chunk } :=
  if_pos h

theorem feedChunk_returns {chunk : Bytes} (h : Run H size (effectiveCap maxBlocks) seen st) :
    Returns (feedChunk H maxBlocks (some size) st chunk)
      (Run H size (effectiveCap maxBlocks) (seen ++ chunk)) := by
  obtain ⟨hglobal, hstands⟩ := h
  have hglobal' : H.update st.global chunk = H.update H.new (seen ++ chunk) := by
    rw [hglobal, H.update_append]
  rcases hstands with hfilling | hcapped
  · rw [feedChunk_of_open hfilling.notCapped]
    exact (fillBlocks_returns (hfilling.withGlobal _)).mono fun st' hst' ↦
      ⟨hst'.1.trans hglobal', hst'.2⟩
  · rw [feedChunk_of_capped hcapped.capped]
    have hcapped' := hcapped.append chunk
    exact returns_ok ⟨hglobal', Or.inr ⟨hcapped'.capped, hcapped'.blocks, hcapped'.length⟩⟩

theorem run_initial (hsize : 0 < size) (cap : ℕ) (hcap : 0 < cap) :
    Run H size cap [] (initial H (some size)) := by
  refine ⟨(H.update_nil _).symm, Or.inl ⟨rfl, rfl, hcap, (Nat.zero_mul _).symm, hsize, ?_, ?_, ?_⟩⟩
  · exact (Nat.zero_mul _).symm
  · rw [List.drop_nil, H.update_nil]
    rfl
  · exact fun _ ↦ rfl

/-- The run of a block size of zero: nothing read yet, or stopped behind an empty block. -/
def ZeroRun (H : StreamingHash σ) (seen : Bytes) (st : StreamState σ) : Prop :=
  st.global = H.update H.new seen ∧
    (seen = [] ∧ st = initial H (some 0) ∨
      seen ≠ [] ∧ st.blocksCapped = true ∧ ∃ b ∈ st.blocks, b.lengthBytes = 0)

theorem feedChunk_zero_returns {chunk : Bytes} (hchunk : chunk ≠ []) (h : ZeroRun H seen st) :
    Returns (feedChunk H maxBlocks (some 0) st chunk) (ZeroRun H (seen ++ chunk)) := by
  obtain ⟨hglobal, hstands⟩ := h
  have hglobal' : H.update st.global chunk = H.update H.new (seen ++ chunk) := by
    rw [hglobal, H.update_append]
  have hne : seen ++ chunk ≠ [] := List.append_ne_nil_of_right_ne_nil seen hchunk
  rcases hstands with ⟨-, rfl⟩ | ⟨-, hcapped, hempty⟩
  · exact (fillBlocks_zero_returns hchunk rfl).mono fun st' hst' ↦
      ⟨hst'.1.trans hglobal', Or.inr ⟨hne, hst'.2⟩⟩
  · rw [feedChunk_of_capped hcapped]
    exact returns_ok ⟨hglobal', Or.inr ⟨hne, hcapped, hempty⟩⟩

/-! ## The partition -/

/-- The records of a partition of the stream into blocks, up to the cap. -/
structure Partitions (hash : Bytes → Text) (bytes : Bytes) (size maxBlocks : ℕ)
    (blocks : List BlockVerification) : Prop where
  index : ∀ (i : ℕ) (b : BlockVerification), blocks[i]? = some b → b.blockIndex = i
  contiguous : ∀ (i : ℕ) (b : BlockVerification), blocks[i]? = some b →
    b.offsetBytes = ((blocks.take i).map (·.lengthBytes)).sum
  full : ∀ (i : ℕ) (b : BlockVerification), blocks[i]? = some b → i + 1 < blocks.length →
    b.lengthBytes = size
  nonempty : ∀ b ∈ blocks, 0 < b.lengthBytes
  le_size : ∀ b ∈ blocks, b.lengthBytes ≤ size
  inside : ∀ b ∈ blocks, b.offsetBytes + b.lengthBytes ≤ bytes.length
  digest : ∀ b ∈ blocks, b.actualHash = hash ((bytes.drop b.offsetBytes).take b.lengthBytes) ∧
    b.expectedHash = b.actualHash ∧ b.isMatch = true
  covers : blocks.length ≤ maxBlocks ∧ (blocks.map (·.lengthBytes)).sum = bytes.length ∨
    blocks.length = maxBlocks ∧ ∀ b ∈ blocks, b.lengthBytes = size

theorem getElem?_fullBlocks {bytes : Bytes} {i : ℕ} {b : BlockVerification}
    (h : (fullBlocks H size k bytes)[i]? = some b) : i < k ∧ b = fullBlock H size bytes i := by
  obtain ⟨hi, hget⟩ := List.getElem?_eq_some_iff.mp h
  rw [length_fullBlocks] at hi
  exact ⟨hi, hget ▸ by simp [fullBlocks]⟩

theorem mem_fullBlocks {bytes : Bytes} {b : BlockVerification}
    (h : b ∈ fullBlocks H size k bytes) : ∃ i < k, b = fullBlock H size bytes i := by
  obtain ⟨i, hi, rfl⟩ := List.mem_map.mp h
  exact ⟨i, List.mem_range.mp hi, rfl⟩

theorem sum_fullBlocks (k : ℕ) (bytes : Bytes) :
    ((fullBlocks H size k bytes).map (·.lengthBytes)).sum = k * size := by
  rw [fullBlocks, List.map_map, show (fun b ↦ b.lengthBytes) ∘ fullBlock H size bytes =
    fun _ ↦ size from rfl, List.map_const', List.sum_replicate, List.length_range, smul_eq_mul]

theorem take_fullBlocks {i : ℕ} (hi : i ≤ k) (bytes : Bytes) :
    (fullBlocks H size k bytes).take i = fullBlocks H size i bytes := by
  rw [fullBlocks, ← List.map_take, List.take_range, min_eq_left hi]
  rfl

theorem partitions_fullBlocks (hsize : 0 < size) {bytes : Bytes} (hlen : k * size ≤ bytes.length)
    {cap : ℕ} (hcovers : k ≤ cap ∧ k * size = bytes.length ∨ k = cap) :
    Partitions (fun b ↦ toHex (H.digest b)) bytes size cap (fullBlocks H size k bytes) where
  index i b h := by
    obtain ⟨-, rfl⟩ := getElem?_fullBlocks h
    rfl
  contiguous i b h := by
    obtain ⟨hi, rfl⟩ := getElem?_fullBlocks h
    rw [take_fullBlocks hi.le, sum_fullBlocks]
    rfl
  full i b h _ := by
    obtain ⟨-, rfl⟩ := getElem?_fullBlocks h
    rfl
  nonempty b h := by
    obtain ⟨i, -, rfl⟩ := mem_fullBlocks h
    exact hsize
  le_size b h := by
    obtain ⟨i, -, rfl⟩ := mem_fullBlocks h
    exact le_rfl
  inside b h := by
    obtain ⟨i, hi, rfl⟩ := mem_fullBlocks h
    change i * size + size ≤ bytes.length
    rw [← Nat.succ_mul]
    exact (Nat.mul_le_mul_right size hi).trans hlen
  digest b h := by
    obtain ⟨i, -, rfl⟩ := mem_fullBlocks h
    exact ⟨rfl, rfl, rfl⟩
  covers := by
    rw [length_fullBlocks, sum_fullBlocks]
    refine hcovers.imp_right fun hk ↦ ⟨hk, fun b hb ↦ ?_⟩
    obtain ⟨i, -, rfl⟩ := mem_fullBlocks hb
    rfl

theorem getElem?_concat {l : List BlockVerification} {last b : BlockVerification} {i : ℕ}
    (h : (l ++ [last])[i]? = some b) : l[i]? = some b ∨ i = l.length ∧ b = last := by
  rcases Nat.lt_or_ge i l.length with hi | hi
  · rw [List.getElem?_append_left hi] at h
    exact Or.inl h
  · rw [List.getElem?_append_right hi, List.getElem?_singleton] at h
    split at h
    · exact Or.inr ⟨by omega, (Option.some.inj h).symm⟩
    · cases h

/-- With one shorter block behind the full ones that takes the stream to its end. -/
theorem partitions_concat {bytes : Bytes} {cap left : ℕ} (hleft : 0 < left) (hlt : left < size)
    (hlen : bytes.length = k * size + left) (hcap : k < cap) {last : BlockVerification}
    (hlast : last = makeBlock k (k * size) left (toHex (H.digest (bytes.drop (k * size))))) :
    Partitions (fun b ↦ toHex (H.digest b)) bytes size cap
      (fullBlocks H size k bytes ++ [last]) := by
  have hfull : Partitions (fun b ↦ toHex (H.digest b)) bytes size k (fullBlocks H size k bytes) :=
    partitions_fullBlocks (hleft.trans hlt) (by omega) (Or.inr rfl)
  have htotal : (fullBlocks H size k bytes ++ [last]).length = k + 1 := by
    rw [List.length_append, length_fullBlocks]
    rfl
  have hlastLength : last.lengthBytes = left := by
    rw [hlast]
    rfl
  have hlastOffset : last.offsetBytes = k * size := by
    rw [hlast]
    rfl
  constructor
  case index =>
    intro i b h
    rcases getElem?_concat h with h | ⟨rfl, rfl⟩
    · exact hfull.index i b h
    · rw [hlast, length_fullBlocks]
      rfl
  case contiguous =>
    intro i b h
    rcases getElem?_concat h with h | ⟨rfl, rfl⟩
    · have hi := (getElem?_fullBlocks h).1
      rw [List.take_append_of_le_length (by rw [length_fullBlocks]; exact hi.le)]
      exact hfull.contiguous i b h
    · rw [List.take_left, sum_fullBlocks, hlastOffset]
  case full =>
    intro i b h hi
    rcases getElem?_concat h with h | ⟨rfl, rfl⟩
    · obtain ⟨-, rfl⟩ := getElem?_fullBlocks h
      rfl
    · rw [htotal, length_fullBlocks] at hi
      exact absurd hi (Nat.lt_irrefl _)
  case nonempty =>
    intro b hb
    rcases List.mem_append.mp hb with hb | hb
    · exact hfull.nonempty b hb
    · rw [List.mem_singleton.mp hb, hlastLength]
      exact hleft
  case le_size =>
    intro b hb
    rcases List.mem_append.mp hb with hb | hb
    · exact hfull.le_size b hb
    · rw [List.mem_singleton.mp hb, hlastLength]
      exact hlt.le
  case inside =>
    intro b hb
    rcases List.mem_append.mp hb with hb | hb
    · exact hfull.inside b hb
    · rw [List.mem_singleton.mp hb, hlastLength, hlastOffset, hlen]
  case digest =>
    intro b hb
    rcases List.mem_append.mp hb with hb | hb
    · exact hfull.digest b hb
    · have hrest : (bytes.drop (k * size)).take left = bytes.drop (k * size) := by
        rw [List.take_of_length_le]
        rw [List.length_drop]
        omega
      rw [List.mem_singleton.mp hb, hlastLength, hlastOffset, hrest, hlast]
      exact ⟨rfl, rfl, rfl⟩
  case covers =>
    refine Or.inl ⟨by omega, ?_⟩
    rw [List.map_append, List.sum_append, sum_fullBlocks, List.map_singleton, List.sum_singleton,
      hlastLength, hlen]

/-- What is flushed behind the last read partitions all that was read. -/
theorem partitions_flush {cap : ℕ} (hsize : 0 < size) (h : Stands H size cap seen st) :
    Partitions (fun b ↦ toHex (H.digest b)) seen size cap (flush H st) := by
  rcases h with h | h
  · have hlen := h.length
    rw [flush, h.notCapped, if_neg Bool.false_ne_true]
    rcases Nat.eq_zero_or_pos st.blockFilled with hzero | hpos
    · have hfull := partitions_fullBlocks (H := H) hsize (hlen ▸ Nat.le_add_right _ _)
        (Or.inl ⟨h.below.le, by omega⟩)
      rw [← h.blocks] at hfull
      cases st.blockHasher with
      | none => exact hfull
      | some bh =>
          dsimp only
          rw [if_neg (by omega)]
          exact hfull
    · obtain ⟨bh, hbh⟩ := Option.isSome_iff_exists.mp (h.started hpos)
      have hhasher := h.hasher
      rw [hbh, Option.getD_some] at hhasher
      rw [hbh]
      dsimp only
      rw [if_pos hpos, h.blocks]
      refine partitions_concat hpos h.filled_lt hlen h.below ?_
      rw [h.offset, hhasher]
      rfl
  · rw [flush, h.capped, if_pos rfl, h.blocks]
    exact partitions_fullBlocks hsize h.length (Or.inr rfl)

/-! ## The whole pass -/

/-- One way a reader hands out a stream. -/
structure Splits (chunks : List Bytes) (bytes : Bytes) : Prop where
  nonempty : ∀ c ∈ chunks, c ≠ []
  flatten : chunks.flatten = bytes

variable {chunks : List Bytes} {bytes : Bytes}

theorem chunks_returns {blockSize : Option ℕ} {P : Bytes → StreamState σ → Prop}
    (hchunks : Splits chunks bytes)
    (hstep : ∀ seen st chunk, chunk ≠ [] → P seen st →
      Returns (feedChunk H maxBlocks blockSize st chunk) (P (seen ++ chunk)))
    (hinitial : P [] (initial H blockSize)) :
    Returns (stream H maxBlocks (.ok (chunks.map (Except.ok (ε := ε)))) blockSize) fun r ↦
      ∃ st, P bytes st ∧ r = .ok ⟨toHex (H.finalize st.global), flush H st⟩ := by
  refine (readLoop_returns hstep hchunks.nonempty hinitial).bind fun r hr ↦ ?_
  obtain ⟨st, rfl, hst⟩ := hr
  rw [List.nil_append, hchunks.flatten] at hst
  exact returns_ok ⟨st, hst, rfl⟩

theorem effectiveCap_pos (maxBlocks : ℕ) : 0 < effectiveCap maxBlocks :=
  Nat.lt_of_lt_of_le Nat.one_pos (le_max_right _ _)

section Shape

variable {hash : Bytes → Text} {cap : ℕ} {blocks : List BlockVerification}

theorem partitions_nil : Partitions hash [] size cap [] where
  index _ _ h := by cases h
  contiguous _ _ h := by cases h
  full _ _ h := by cases h
  nonempty := List.forall_mem_nil _
  le_size := List.forall_mem_nil _
  inside := List.forall_mem_nil _
  digest := List.forall_mem_nil _
  covers := Or.inl ⟨Nat.zero_le _, rfl⟩

theorem Partitions.eq_nil (h : Partitions hash [] size cap blocks) : blocks = [] := by
  refine List.eq_nil_iff_forall_not_mem.mpr fun b hb ↦ ?_
  exact (h.nonempty b hb).not_ge (Nat.le_of_add_left_le (h.inside b hb))

theorem Partitions.ne_nil (h : Partitions hash bytes size cap blocks) (hcap : 0 < cap)
    (hbytes : bytes ≠ []) : blocks ≠ [] := by
  rintro rfl
  rcases h.covers with ⟨-, hsum⟩ | ⟨hlen, -⟩
  · exact hbytes (List.length_eq_zero_iff.mp hsum.symm)
  · exact hcap.ne hlen

/-- Only an empty stream is partitioned under a cap of zero. -/
theorem Partitions.eq_nil_of_cap_zero (h : Partitions hash bytes size 0 blocks) : blocks = [] := by
  rcases h.covers with ⟨hlen, -⟩ | ⟨hlen, -⟩
  · exact List.length_eq_zero_iff.mp (Nat.le_zero.mp hlen)
  · exact List.length_eq_zero_iff.mp hlen

end Shape

theorem partitions_zero_iff (h : ZeroRun H bytes st) :
    Partitions (fun b ↦ toHex (H.digest b)) bytes 0 maxBlocks (flush H st) ↔
      bytes = [] ∨ 0 < 0 ∧ 0 < maxBlocks := by
  rcases h.2 with ⟨rfl, rfl⟩ | ⟨hne, hcapped, b, hb, hzero⟩
  · exact iff_of_true partitions_nil (Or.inl rfl)
  · refine iff_of_false (fun hp ↦ ?_) ?_
    · rw [flush, hcapped, if_pos rfl] at hp
      exact (hp.nonempty b hb).ne' hzero
    · exact not_or.mpr ⟨hne, fun hpos ↦ Nat.lt_irrefl 0 hpos.1⟩

theorem partitions_pos_iff (hsize : 0 < size) (h : Run H size (effectiveCap maxBlocks) bytes st) :
    Partitions (fun b ↦ toHex (H.digest b)) bytes size maxBlocks (flush H st) ↔
      bytes = [] ∨ 0 < size ∧ 0 < maxBlocks := by
  have hflush := partitions_flush hsize h.2
  rcases Nat.eq_zero_or_pos maxBlocks with rfl | hpos
  · by_cases hbytes : bytes = []
    · subst hbytes
      rw [hflush.eq_nil]
      exact iff_of_true partitions_nil (Or.inl rfl)
    · refine iff_of_false (fun hp ↦ ?_) (not_or.mpr ⟨hbytes, fun hp ↦ Nat.lt_irrefl 0 hp.2⟩)
      exact hflush.ne_nil (effectiveCap_pos 0) hbytes hp.eq_nil_of_cap_zero
  · rw [effectiveCap, max_eq_left hpos] at hflush
    exact iff_of_true hflush (Or.inr ⟨hsize, hpos⟩)

theorem stream_some_returns (hchunks : Splits chunks bytes) (size maxBlocks : ℕ) :
    Returns (stream H maxBlocks (.ok (chunks.map (Except.ok (ε := ε)))) (some size)) fun r ↦
      ∃ out, r = .ok out ∧ out.actualHash = toHex (H.digest bytes) ∧
        (Partitions (fun b ↦ toHex (H.digest b)) bytes size maxBlocks out.blocks ↔
          bytes = [] ∨ 0 < size ∧ 0 < maxBlocks) := by
  rcases Nat.eq_zero_or_pos size with rfl | hsize
  · refine (chunks_returns (P := ZeroRun H) hchunks (fun _ _ _ ↦ feedChunk_zero_returns)
      ⟨(H.update_nil _).symm, Or.inl ⟨rfl, rfl⟩⟩).mono ?_
    rintro r ⟨st, hst, rfl⟩
    exact ⟨_, rfl, by rw [hst.1]; rfl, partitions_zero_iff hst⟩
  · refine (chunks_returns (P := Run H size (effectiveCap maxBlocks)) hchunks
      (fun _ _ _ _ ↦ feedChunk_returns) (run_initial hsize _ (effectiveCap_pos maxBlocks))).mono ?_
    rintro r ⟨st, hst, rfl⟩
    exact ⟨_, rfl, by rw [hst.1]; rfl, partitions_pos_iff hsize hst⟩

theorem stream_none_returns (hchunks : Splits chunks bytes) (maxBlocks : ℕ) :
    Returns (stream H maxBlocks (.ok (chunks.map (Except.ok (ε := ε)))) none) fun r ↦
      r = .ok ⟨toHex (H.digest bytes), []⟩ := by
  refine (chunks_returns
    (P := fun seen st ↦ st = { initial H none with global := H.update H.new seen }) hchunks ?_
    (by rw [H.update_nil]; rfl)).mono ?_
  · rintro seen _ chunk - rfl
    refine returns_ok ?_
    rw [H.update_append]
  · rintro r ⟨_, rfl, rfl⟩
    rfl

/-- The digest of the chosen hash in hexadecimal. -/
def hashOf {σ₁ σ₂ : Type} (sha256 : StreamingHash σ₁) (sha3 : StreamingHash σ₂)
    (hashType : HashType) (bytes : Bytes) : Text :=
  match hashType with
  | .sha256 => toHex (sha256.digest bytes)
  | .sha3_512 => toHex (sha3.digest bytes)

theorem hashSource_some {σ₁ σ₂ : Type} (sha256 : StreamingHash σ₁) (sha3 : StreamingHash σ₂)
    (hashType : HashType) (hchunks : Splits chunks bytes) (size maxBlocks : ℕ) :
    ∃ out, hashSource sha256 sha3 (.ok (chunks.map (Except.ok (ε := ε)))) hashType (some size)
        maxBlocks = .ok (.ok out) ∧ out.actualHash = hashOf sha256 sha3 hashType bytes ∧
      (Partitions (hashOf sha256 sha3 hashType) bytes size maxBlocks out.blocks ↔
        bytes = [] ∨ 0 < size ∧ 0 < maxBlocks) := by
  cases hashType with
  | sha256 =>
      obtain ⟨_, hrun, out, rfl, hout⟩ := stream_some_returns hchunks size maxBlocks
      exact ⟨out, hrun, hout⟩
  | sha3_512 =>
      obtain ⟨_, hrun, out, rfl, hout⟩ := stream_some_returns hchunks size maxBlocks
      exact ⟨out, hrun, hout⟩

theorem hashSource_none {σ₁ σ₂ : Type} (sha256 : StreamingHash σ₁) (sha3 : StreamingHash σ₂)
    (hashType : HashType) (hchunks : Splits chunks bytes) (maxBlocks : ℕ) :
    hashSource sha256 sha3 (.ok (chunks.map (Except.ok (ε := ε)))) hashType none maxBlocks =
      .ok (.ok ⟨hashOf sha256 sha3 hashType bytes, []⟩) := by
  cases hashType with
  | sha256 =>
      obtain ⟨_, hrun, rfl⟩ := stream_none_returns hchunks maxBlocks
      exact hrun
  | sha3_512 =>
      obtain ⟨_, hrun, rfl⟩ := stream_none_returns hchunks maxBlocks
      exact hrun

/-- The digest is that of the whole stream, and the records partition it just when it is empty or
neither the block size nor the cap is zero. -/
theorem hashSource_partitions_iff {σ₁ σ₂ : Type} (sha256 : StreamingHash σ₁)
    (sha3 : StreamingHash σ₂) (hashType : HashType) (hchunks : Splits chunks bytes)
    (blockSize : Option ℕ) (maxBlocks : ℕ) :
    ∃ out, hashSource sha256 sha3 (.ok (chunks.map (Except.ok (ε := ε)))) hashType blockSize
        maxBlocks = .ok (.ok out) ∧ out.actualHash = hashOf sha256 sha3 hashType bytes ∧
      (blockSize = none → out.blocks = []) ∧
      ∀ size ∈ blockSize,
        (Partitions (hashOf sha256 sha3 hashType) bytes size maxBlocks out.blocks ↔
          bytes = [] ∨ 0 < size ∧ 0 < maxBlocks) := by
  cases blockSize with
  | none =>
      refine ⟨_, hashSource_none sha256 sha3 hashType hchunks maxBlocks, rfl, fun _ ↦ rfl, ?_⟩
      exact fun _ hsize ↦ absurd hsize (Option.not_mem_none _)
  | some size =>
      obtain ⟨out, hrun, hhash, hiff⟩ := hashSource_some sha256 sha3 hashType hchunks size maxBlocks
      refine ⟨out, hrun, hhash, fun hnone ↦ absurd hnone (Option.some_ne_none size), ?_⟩
      intro size' hsize
      rw [← Option.some.inj hsize]
      exact hiff

/-- The bytes themselves as their hash. -/
def verbatim : StreamingHash Bytes where
  new := []
  update s piece := s ++ piece
  finalize s := s
  update_nil := List.append_nil
  update_append s a b := (List.append_assoc s a b).symm

theorem fiveBytes_partitioned :
    ∃ out, hashSource verbatim verbatim (.ok ([[1, 2, 3], [4, 5]].map (Except.ok (ε := Unit))))
        .sha256 (some 2) 500000 = .ok (.ok out) ∧
      out.actualHash = hashOf verbatim verbatim .sha256 [1, 2, 3, 4, 5] ∧
      (some 2 = none → out.blocks = []) ∧
      ∀ size ∈ some 2,
        (Partitions (hashOf verbatim verbatim .sha256) [1, 2, 3, 4, 5] size 500000 out.blocks ↔
          ([1, 2, 3, 4, 5] : Bytes) = [] ∨ 0 < size ∧ 0 < 500000) :=
  hashSource_partitions_iff verbatim verbatim .sha256 ⟨by simp, rfl⟩ (some 2) 500000

/-- One byte under a block size of zero. -/
theorem zeroSize_not_partitioned :
    ∃ out, hashSource verbatim verbatim (.ok ([[0x61]].map (Except.ok (ε := Unit)))) .sha256
        (some 0) 500000 = .ok (.ok out) ∧
      ¬Partitions (hashOf verbatim verbatim .sha256) [0x61] 0 500000 out.blocks := by
  obtain ⟨out, hrun, -, hiff⟩ := hashSource_some verbatim verbatim .sha256
    (show Splits [[0x61]] [0x61] from ⟨by simp, rfl⟩) 0 500000
  exact ⟨out, hrun, fun h ↦ absurd (hiff.mp h) (by simp)⟩

end VeraqisRecover.Analyze
