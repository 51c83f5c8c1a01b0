import VeraqisRecover.Analyze.HashPartition
import VeraqisRecover.Analyze.SqliteHealthy
import VeraqisRecover.Android.BackupHeader
import VeraqisRecover.Evidence.Record
import VeraqisRecover.FormatId.Browser
import VeraqisRecover.Gzip.StoredBlocks
import VeraqisRecover.Rar.Damage
import VeraqisRecover.Rar.Provenance
import VeraqisRecover.Rar.VintValue
import VeraqisRecover.Recovery.Accounting
import VeraqisRecover.Recovery.CommandLine
import VeraqisRecover.Recovery.GzRestoration
import VeraqisRecover.Recovery.RebuildLoss
import VeraqisRecover.Recovery.Selection
import VeraqisRecover.Recovery.TarChecksumFrame
import VeraqisRecover.Recovery.TarRestoration
import VeraqisRecover.Recovery.TarResyncDamage
import VeraqisRecover.Recovery.Unasked
import VeraqisRecover.Recovery.ZipCrcBlessing
import VeraqisRecover.Recovery.ZipRestoration
import VeraqisRecover.Tar.Soundness
import VeraqisRecover.Tar.Stream
import VeraqisRecover.Zip.AcceptedChain
import VeraqisRecover.Zip.HeadTruncation
import VeraqisRecover.Zip.IndexOrder
import VeraqisRecover.Zip.IndexScan
import VeraqisRecover.Zip.Insertion
import VeraqisRecover.Zip.Landing
import VeraqisRecover.Zip.LocalDamage
import VeraqisRecover.Zip.OffsetEvidence
import VeraqisRecover.Zip.OffsetInterior
import VeraqisRecover.Zip.OverlapRefusal
import VeraqisRecover.Zip.PathConfinement
import VeraqisRecover.Zip.SegmentShift
import VeraqisRecover.Zip.Suppression
import VeraqisRecover.Zip.Verified
