import VeraqisRecover.Support.Checked
import VeraqisRecover.Support.Radix

/-!
# The streaming hasher

`hash_source` of `integrity/hasher.rs`: one pass over the reads feeds the global
hash and, when a block size is set, a hash for each block.
-/

namespace VeraqisRecover.Analyze

open ByteString Checked LossyUtf8

/-- A hash that does not see where its input was split. -/
structure StreamingHash (σ : Type) where
  new : σ
  update : σ → Bytes → σ
  finalize : σ → Bytes
  update_nil : ∀ s, update s [] = s
  update_append : ∀ s a b, update s (a ++ b) = update (update s a) b

def StreamingHash.digest {σ : Type} (H : StreamingHash σ) (bytes : Bytes) : Bytes :=
  H.finalize (H.update H.new bytes)

inductive HashType
  | sha256 | sha3_512
  deriving DecidableEq, Repr

/-- Per-block verification record. -/
structure BlockVerification where
  blockIndex : ℕ
  offsetBytes : ℕ
  lengthBytes : ℕ
  expectedHash : Text
  actualHash : Text
  isMatch : Bool
  deriving DecidableEq, Repr

structure HashOutcome where
  actualHash : Text
  blocks : List BlockVerification
  deriving DecidableEq, Repr

def makeBlock (index offset length : ℕ) (hex : Text) : BlockVerification :=
  ⟨index, offset, length, hex, hex, true⟩

def toHex (bytes : Bytes) : Text := Radix.hex bytes

/-- The local variables of the pass. -/
structure StreamState (σ : Type) where
  global : σ
  blocks : List BlockVerification
  blockHasher : Option σ
  blockFilled : ℕ
  blockIndex : ℕ
  blockOffset : ℕ
  blocksCapped : Bool

section Stream

variable {σ ε : Type} (H : StreamingHash σ) (size maxBlocks : ℕ)

namespace StreamState

/-- A piece goes to the hash of the open block. -/
def absorb (st : StreamState σ) (piece : Bytes) : StreamState σ :=
  { st with
    blockHasher := some (H.update (st.blockHasher.getD H.new) piece)
    blockFilled := st.blockFilled + piece.length }

/-- The open block is full. -/
def finishBlock (st : StreamState σ) : StreamState σ :=
  { st with
    blocks := st.blocks ++ [makeBlock st.blockIndex st.blockOffset size
      (toHex (H.finalize (st.blockHasher.getD H.new)))]
    blockHasher := none
    blockIndex := st.blockIndex + 1
    blockOffset := st.blockOffset + size
    blockFilled := 0 }

end StreamState

/-- The loop that splits a chunk on block boundaries; `rest` is `buf[pos..n]`. -/
def fillBlocks (st : StreamState σ) (rest : Bytes) : Checked (StreamState σ) :=
  if rest = [] then .ok st
  -- `size - block_filled`
  else if size < st.blockFilled then .error .overflow
  else
    let take := min (size - st.blockFilled) rest.length
    let st' := st.absorb H (rest.take take)
    if st'.blockFilled = size then
      let done := st'.finishBlock H size
      if maxBlocks ≤ done.blocks.length then .ok { done with blocksCapped := true }
      else fillBlocks done (rest.drop take)
    else fillBlocks st' (rest.drop take)
termination_by maxBlocks - st.blocks.length + rest.length
decreasing_by
  · have hdone : done.blocks.length = st.blocks.length + 1 := List.length_append
    rw [hdone, List.length_drop]
    omega
  · have hfilled : st'.blockFilled = st.blockFilled + (rest.take take).length := rfl
    have hblocks : st'.blocks.length = st.blocks.length := rfl
    have hpos := List.length_pos_of_ne_nil ‹rest ≠ []›
    rw [List.length_take] at hfilled
    rw [hblocks, List.length_drop]
    omega

/-- One read: the global hash, and the blocks unless there are none or enough. -/
def feedChunk (blockSize : Option ℕ) (st : StreamState σ) (chunk : Bytes) :
    Checked (StreamState σ) :=
  let st := { st with global := H.update st.global chunk }
  match blockSize with
  | some size => if st.blocksCapped then .ok st else fillBlocks H size maxBlocks st chunk
  | none => .ok st

/-- The reads up to the first that fails or returns nothing. -/
def readLoop (blockSize : Option ℕ) (st : StreamState σ) :
    List (Except ε Bytes) → Checked (Except ε (StreamState σ))
  | [] => .ok (.ok st)
  | .error e :: _ => .ok (.error e)
  | .ok [] :: _ => .ok (.ok st)
  | .ok chunk :: reads => do
      let st ← feedChunk H maxBlocks blockSize st chunk
      readLoop blockSize st reads

/-- The records with the trailing partial block. -/
def flush (st : StreamState σ) : List BlockVerification :=
  if st.blocksCapped then st.blocks
  else
    match st.blockHasher with
    | some bh =>
        if 0 < st.blockFilled then
          st.blocks ++ [makeBlock st.blockIndex st.blockOffset st.blockFilled
            (toHex (H.finalize bh))]
        else st.blocks
    | none => st.blocks

def initial (blockSize : Option ℕ) : StreamState σ :=
  ⟨H.new, [], blockSize.map fun _ ↦ H.new, 0, 0, 0, false⟩

/-- The generic core.  `reader` is what opening the source returns and then what each read does. -/
def stream (reader : Except ε (List (Except ε Bytes))) (blockSize : Option ℕ) :
    Checked (Except ε HashOutcome) :=
  match reader with
  | .error e => .ok (.error e)
  | .ok reads => do
      let st ← readLoop H maxBlocks blockSize (initial H blockSize) reads
      match st with
      | .error e => return .error e
      | .ok st => return .ok ⟨toHex (H.finalize st.global), flush H st⟩

end Stream

def hashSource {σ₁ σ₂ ε : Type} (sha256 : StreamingHash σ₁) (sha3 : StreamingHash σ₂)
    (reader : Except ε (List (Except ε Bytes))) (hashType : HashType) (blockSize : Option ℕ)
    (maxBlocks : ℕ) : Checked (Except ε HashOutcome) :=
  match hashType with
  | .sha256 => stream sha256 maxBlocks reader blockSize
  | .sha3_512 => stream sha3 maxBlocks reader blockSize

end VeraqisRecover.Analyze
