import VeraqisRecover.Zip.Build

/-!
# A concrete codec

CRC-32 with the reflected polynomial, and the stored-block fragment of DEFLATE:
what the codec library itself produces on incompressible data.  It exhibits the
parameter `Flate2` and lets concrete archives be evaluated.
-/

namespace VeraqisRecover.Zip

open ByteString

def crcShift (c : ℕ) : ℕ := if c % 2 = 1 then (c / 2) ^^^ 0xEDB88320 else c / 2

def crcByte (c : ℕ) (b : UInt8) : ℕ := crcShift^[8] (c ^^^ b.toNat)

/-- CRC-32/ISO-HDLC, bit at a time. -/
def crc32IsoHdlc (d : Bytes) : UInt32 :=
  UInt32.ofNat (d.foldl crcByte 0xFFFFFFFF ^^^ 0xFFFFFFFF)

def maxStoredBlock : ℕ := 65535

/-- Stored DEFLATE blocks, the last one marked final. -/
def deflateStored (d : Bytes) : Bytes :=
  if d.length ≤ maxStoredBlock then
    [0x01] ++ le16 d.length ++ le16 (maxStoredBlock - d.length) ++ d
  else
    [0x00] ++ le16 maxStoredBlock ++ le16 0 ++ d.take maxStoredBlock ++
      deflateStored (d.drop maxStoredBlock)
termination_by d.length
decreasing_by rw [List.length_drop]; unfold maxStoredBlock at *; omega

/-- Decode stored blocks up to the final one. -/
def inflateStored (s : Bytes) : Option Bytes :=
  match s with
  | [] => none
  | b :: rest =>
      match u16le rest 0, u16le rest 2, slice? rest 4 (4 + (u16le rest 0).getD 0) with
      | some len, some nlen, some block =>
          if len + nlen ≠ maxStoredBlock ∨ 1 < b.toNat then none
          else if b.toNat = 1 then some block
          else (inflateStored (rest.drop (4 + len))).map (block ++ ·)
      | _, _, _ => none
termination_by s.length
decreasing_by rw [List.length_drop, List.length_cons]; omega

def storedFlate : Flate2 := ⟨crc32IsoHdlc, deflateStored, inflateStored⟩

/-- One stored block in front of anything decodes to its bytes and leaves the rest. -/
theorem inflateStored_block {b : UInt8} {block : Bytes} (more : Bytes) (hb : b.toNat ≤ 1)
    (hlen : block.length ≤ maxStoredBlock) :
    inflateStored (b :: (le16 block.length ++ (le16 (maxStoredBlock - block.length) ++
        (block ++ more)))) =
      if b.toNat = 1 then some block else (inflateStored more).map (block ++ ·) := by
  unfold maxStoredBlock at hlen
  generalize hrest : le16 block.length ++ (le16 (maxStoredBlock - block.length) ++
    (block ++ more)) = rest
  have hat : At rest 0 (le16 block.length ++ (le16 (maxStoredBlock - block.length) ++
      (block ++ more))) := by
    rw [hrest]
    simp [At]
  rw [At.le16_append_iff, At.le16_append_iff, At.append_iff] at hat
  obtain ⟨h₀, h₂, hblock, -⟩ := hat
  have hlen' : rest.length = 4 + block.length + more.length := by
    rw [← hrest]
    simp only [List.length_append, length_le16]
    omega
  have hu₀ := h₀.u16le_le16 (by omega)
  have hu₂ := h₂.u16le_le16 (show maxStoredBlock - block.length < 2 ^ 16 by
    unfold maxStoredBlock
    omega)
  have hslice := hblock.slice?_of_le (by omega)
  have hdrop : rest.drop (4 + block.length) = more := by
    rw [← hrest, ← List.append_assoc, ← List.append_assoc]
    exact List.drop_left' (by simp only [List.length_append, length_le16])
  simp only [Nat.zero_add, Nat.reduceAdd] at hu₀ hu₂ hslice
  rw [inflateStored]
  simp only [hu₀, hu₂, Option.getD_some, hslice, hdrop]
  rw [if_neg (by unfold maxStoredBlock; omega)]

/-- The stored-block codec returns what it was given. -/
theorem storedFlate_roundTrips : storedFlate.RoundTrips := by
  intro d
  change inflateStored (deflateStored d) = some d
  fun_induction deflateStored d with
  | case1 d hlen =>
      have h := inflateStored_block (b := 0x01) [] (by decide) hlen
      simpa using h
  | case2 d hlen ih =>
      have htake : (d.take maxStoredBlock).length = maxStoredBlock := by
        rw [List.length_take]
        omega
      have h := inflateStored_block (b := 0x00) (deflateStored (d.drop maxStoredBlock)) (by decide)
        (le_of_eq htake)
      rw [htake, Nat.sub_self, ih] at h
      simpa using h

example : crc32IsoHdlc [0x31, 0x32, 0x33, 0x34, 0x35, 0x36, 0x37, 0x38, 0x39] = 0xCBF43926 := by
  decide +kernel

end VeraqisRecover.Zip
