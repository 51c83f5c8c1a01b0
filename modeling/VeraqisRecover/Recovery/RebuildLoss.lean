import VeraqisRecover.Recovery.RebuildScan
import VeraqisRecover.Zip.StoredCodec

/-!
# What the directory rebuild keeps

The reader of the rebuilt file lists what the walked headers become and nothing
else.  A member of the source is therefore kept when one of these entries has its
name and leads to its bytes, and lost, without the report saying so, when none
does.
-/

namespace VeraqisRecover.Recovery

open ByteString LossyUtf8 Zip

variable {fl : Flate2} {source : Bytes}

end VeraqisRecover.Recovery
