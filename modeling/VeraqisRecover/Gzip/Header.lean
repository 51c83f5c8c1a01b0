import VeraqisRecover.Crc.Rocksoft
import VeraqisRecover.Recovery.GzTrailer

/-!
# A well-formed GZIP header

Any of the four optional parts may be there, and the walk to the body passes
exactly the bytes of the header.
-/

namespace VeraqisRecover.Gzip

open ByteString Recovery.GzTrailerRecompute

/-- The fields of a member header. -/
structure GzHeader where
  text : Bool
  /-- Modification time, extra flags and operating system. -/
  stamp : Bytes
  extra : Option Bytes
  name : Option Bytes
  comment : Option Bytes
  checksum : Bool
  length_stamp : stamp.length = 6
  extra_fits : ∀ x ∈ extra, x.length < 2 ^ 16
  name_ends : ∀ x ∈ name, (0 : UInt8) ∉ x
  comment_ends : ∀ x ∈ comment, (0 : UInt8) ∉ x

namespace GzHeader

/-- FTEXT, FHCRC, FEXTRA, FNAME and FCOMMENT, from the lowest bit up. -/
def flagBits (text checksum extra name comment : Bool) : UInt8 :=
  (if text then 0x01 else 0) ||| (if checksum then 0x02 else 0) ||| (if extra then 0x04 else 0) |||
    (if name then 0x08 else 0) ||| (if comment then 0x10 else 0)

def flags (h : GzHeader) : UInt8 :=
  flagBits h.text h.checksum h.extra.isSome h.name.isSome h.comment.isSome

def extraBytes : Option Bytes → Bytes
  | none => []
  | some x => le16 x.length ++ x

def zeroTerminated : Option Bytes → Bytes
  | none => []
  | some x => x ++ [0]

/-- Everything the header checksum is taken over. -/
def front (h : GzHeader) : Bytes :=
  [0x1F, 0x8B, 0x08, h.flags] ++ (h.stamp ++ (extraBytes h.extra ++
    (zeroTerminated h.name ++ zeroTerminated h.comment)))

/-- The low half of the CRC-32. -/
def checksumBytes (h : GzHeader) : Bytes :=
  if h.checksum then le16 (Crc.crc32 h.front).toNat else []

def bytes (h : GzHeader) : Bytes := h.front ++ h.checksumBytes

theorem flagBits_test : ∀ text checksum extra name comment : Bool,
    (flagBits text checksum extra name comment &&& 0x02 != 0) = checksum ∧
      (flagBits text checksum extra name comment &&& 0x04 != 0) = extra ∧
      (flagBits text checksum extra name comment &&& 0x08 != 0) = name ∧
      (flagBits text checksum extra name comment &&& 0x10 != 0) = comment := by
  decide

theorem length_front (h : GzHeader) : h.front.length = 10 + (extraBytes h.extra).length +
    (zeroTerminated h.name).length + (zeroTerminated h.comment).length := by
  simp only [front, List.length_append, List.length_cons, List.length_nil, h.length_stamp]
  omega

/-! ## The walk over the optional parts -/

variable {data : Bytes} {pos : ℕ}

theorem skipExtra_extraBytes {extra : Option Bytes} (hfits : ∀ x ∈ extra, x.length < 2 ^ 16)
    (h : At data pos (extraBytes extra)) :
    skipIf extra.isSome (skipExtra data) pos = some (pos + (extraBytes extra).length) := by
  cases extra with
  | none => rfl
  | some x =>
      obtain ⟨hlen, -⟩ := At.append_iff.mp h
      have hread := hlen.u16le_le16 (hfits x rfl)
      change (u16le data pos).map (pos + 2 + ·) = _
      rw [hread, extraBytes, List.length_append, length_le16, Option.map_some, Nat.add_assoc]

theorem passNulLoop_append {x : Bytes} (hx : (0 : UInt8) ∉ x) (rest : Bytes) (pos : ℕ) :
    passNulLoop (x ++ 0 :: rest) pos = pos + (x.length + 1) := by
  induction x generalizing pos with
  | nil => exact if_neg (not_not.mpr rfl)
  | cons b x ih =>
      obtain ⟨hb, hx⟩ := not_or.mp (mt List.mem_cons.mpr hx)
      rw [List.cons_append, passNulLoop, if_pos (Ne.symm hb), ih hx, List.length_cons]
      omega

theorem passNul_zeroTerminated {field : Option Bytes} (hends : ∀ x ∈ field, (0 : UInt8) ∉ x)
    (h : At data pos (zeroTerminated field)) :
    passIf field.isSome (passNul data) pos = pos + (zeroTerminated field).length := by
  cases field with
  | none => rfl
  | some x =>
      obtain ⟨rest, hrest⟩ := h
      change passNulLoop (data.drop pos) pos = _
      rw [← hrest, zeroTerminated, List.append_assoc, List.singleton_append,
        passNulLoop_append (hends x rfl), List.length_append, List.length_singleton]

theorem at_bytes (h : GzHeader) (rest : Bytes) : At (h.bytes ++ rest) 0 h.bytes :=
  List.prefix_append h.bytes rest

/-- The walk ends where the header does. -/
theorem gzBodyStart_bytes (h : GzHeader) (rest : Bytes) :
    gzBodyStart (h.bytes ++ rest) = h.bytes.length := by
  obtain ⟨hfront, hsum⟩ := At.append_iff.mp (h.at_bytes rest)
  obtain ⟨hfixed, hparts⟩ := At.append_iff.mp hfront
  obtain ⟨-, hparts⟩ := At.append_iff.mp hparts
  obtain ⟨hextra, hparts⟩ := At.append_iff.mp hparts
  obtain ⟨hname, hcomment⟩ := At.append_iff.mp hparts
  have hlen := h.length_front
  have htotal : h.bytes.length = h.front.length + h.checksumBytes.length := List.length_append
  have hroom : (h.bytes ++ rest).length = h.bytes.length + rest.length := List.length_append
  have hflags : (h.bytes ++ rest)[0 + 3]? = some h.flags := hfixed.getElem? (Nat.lt_succ_self 3)
  obtain ⟨htest₁, htest₂, htest₃, htest₄⟩ := flagBits_test h.text h.checksum h.extra.isSome
    h.name.isSome h.comment.isSome
  have hstamp := h.length_stamp
  simp only [List.length_cons, List.length_nil, hstamp, Nat.reduceAdd] at hextra hname hcomment
  have hpass : passIf h.checksum (· + 2) h.front.length = h.bytes.length := by
    rw [htotal, checksumBytes]
    cases h.checksum <;> rfl
  rw [Nat.zero_add] at hflags
  rw [gzBodyStart, if_neg (by omega), hflags, Option.getD_some, flags]
  dsimp only
  rw [htest₁, htest₂, htest₃, htest₄, skipExtra_extraBytes h.extra_fits hextra]
  dsimp only
  rw [passNul_zeroTerminated h.name_ends hname, passNul_zeroTerminated h.comment_ends hcomment,
    ← hlen, hpass]
  exact min_eq_left (by omega)

end GzHeader

end VeraqisRecover.Gzip
