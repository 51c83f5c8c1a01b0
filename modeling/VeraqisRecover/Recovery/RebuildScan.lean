import VeraqisRecover.Recovery.RebuildRegion

/-!
# The rebuilt file without its directory

Where an embedded archive owns the start of the appended directory, no directory
is adopted and the output is scanned.  From one walked header the scan comes to
the next, as the walk did; behind the last one it finds none.
-/

namespace VeraqisRecover.Recovery

open ByteString LossyUtf8 Zip

variable {fl : Flate2} {source data : Bytes} {policy : ZipRecoveryPolicy}

/-- The scan resumes where the header's payload stops, when a record stands there. -/
theorem scanned_next (hd : data.length ≤ wordMax) {h : LocalHeader}
    (hparse : LocalHeader.parse data h.lfhOffset = some h)
    (hsig : u32le data h.stop = some lfhSig ∨ u32le data h.stop = some cdfhSig) :
    (scannedHeaderAt data h.lfhOffset).2 = h.stop := by
  have hp := (LocalHeader.parsed_of_parse hparse).2
  have hstop : h.stop = h.dataOffset + h.compSize := rfl
  have hle := hp.stop_le
  simp only [scannedHeaderAt, LocalHeader.compSize_of_parse hparse, ← hp.dataOffset]
  split
  · exact saturatingAdd_of_le (by omega)
  · have hzero : h.dataOffset = h.stop := by omega
    have hroom : h.stop + 4 ≤ data.length := by
      rcases hsig with hsig | hsig
      · exact le_length_of_u32le hsig
      · exact le_length_of_u32le hsig
    rw [hzero, nextSignature, if_pos hroom]
    dsimp only
    rw [if_pos (hsig.imp_right Or.inl), Option.getD_some]

namespace RegionFits

end RegionFits

end VeraqisRecover.Recovery
