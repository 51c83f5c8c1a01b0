import VeraqisRecover.Analyze.MergeAdjacent

/-!
# The rule registry

Every classifier rule of `corruption/rules.rs`, the confidences of `corruption/confidence.rs`,
and `classify` of `corruption/classifier.rs`, which turns a located defect into a corruption.
-/

namespace VeraqisRecover.Analyze

open ByteString Checked LossyUtf8

/-- A single classifier rule. -/
structure ClassifierRule where
  id : String
  format : String
  category : CorruptionCategory
  defaultSeverity : Severity
  description : String
  affectedField : String
  evidenceType : EvidenceType
  confidenceDeterministic : Bool
  deriving DecidableEq, Repr

def zipRules : List ClassifierRule := [
  ⟨"ZIP_EOCD_001", "ZIP", .structuralCorruption, .catastrophic,
    "EOCD signature missing or zeroed", "EOCD.signature", .signatureMismatch, true⟩,
  ⟨"ZIP_EOCD_002", "ZIP", .structuralCorruption, .major,
    "EOCD.cd_offset points outside file", "EOCD.cd_offset", .offsetOutOfBounds, false⟩,
  ⟨"ZIP_EOCD_003", "ZIP", .structuralCorruption, .major,
    "EOCD.cd_size larger than file", "EOCD.cd_size", .lengthOverflow, true⟩,
  ⟨"ZIP_CD_001", "ZIP", .structuralCorruption, .catastrophic,
    "Central directory entirely missing", "CentralDirectory", .structureMissing, false⟩,
  ⟨"ZIP_CD_002", "ZIP", .structuralCorruption, .major,
    "Central directory signature invalid", "CentralDirHeader.signature", .signatureMismatch, true⟩,
  ⟨"ZIP_CD_003", "ZIP", .missingData, .major,
    "Central directory truncated mid-entry", "CentralDirectory", .truncationMarker, false⟩,
  ⟨"ZIP_LFH_001", "ZIP", .structuralCorruption, .major,
    "Local file header signature invalid", "LocalFileHeader.signature", .signatureMismatch, true⟩,
  ⟨"ZIP_LFH_002", "ZIP", .missingData, .major,
    "Local file header missing", "LocalFileHeader", .structureMissing, false⟩,
  ⟨"ZIP_CRC_001", "ZIP", .checksumMismatch, .minor,
    "CRC-32 mismatch, single entry", "LocalFileHeader.crc32", .checksumMismatch, true⟩,
  ⟨"ZIP_CRC_002", "ZIP", .checksumMismatch, .major,
    "CRC-32 mismatch, multiple entries", "LocalFileHeader.crc32", .checksumMismatch, true⟩,
  ⟨"ZIP_SIZE_001", "ZIP", .structuralCorruption, .major,
    "Compressed size field wrong (too large)",
    "CentralDirHeader.compressed_size", .lengthOverflow, false⟩,
  ⟨"ZIP_SIZE_002", "ZIP", .truncation, .major,
    "File shorter than declared compressed size", "stream", .truncationMarker, false⟩,
  ⟨"ZIP_TRUNC_001", "ZIP", .truncation, .minor,
    "Truncated last 1%", "stream.tail", .truncationMarker, false⟩,
  ⟨"ZIP_TRUNC_002", "ZIP", .truncation, .major,
    "Truncated last 5%", "stream.tail", .truncationMarker, false⟩,
  ⟨"ZIP_TRUNC_003", "ZIP", .truncation, .catastrophic,
    "Truncated last 20%", "stream.tail", .truncationMarker, false⟩,
  ⟨"ZIP_TRUNC_004", "ZIP", .truncation, .catastrophic,
    "Truncated first 5% (header destroyed)", "stream.header", .truncationMarker, false⟩,
  ⟨"ZIP_FLIP_001", "ZIP", .bitFlip, .minor,
    "Single bit flip in payload", "payload.bits", .checksumMismatch, false⟩,
  ⟨"ZIP_FLIP_002", "ZIP", .bitFlip, .major,
    "Multiple bit flips in payload", "payload.bits", .checksumMismatch, false⟩,
  ⟨"ZIP_FLIP_003", "ZIP", .bitFlip, .major,
    "Bit flip in header area", "header.bits", .checksumMismatch, false⟩,
  ⟨"ZIP_EXTRA_001", "ZIP", .structuralCorruption, .minor,
    "Extra field length overflow", "CentralDirHeader.extra_len", .lengthOverflow, false⟩,
  ⟨"ZIP_Z64_001", "ZIP", .structuralCorruption, .major,
    "ZIP64 EOCD locator corrupted", "ZIP64_EOCD_Locator.signature", .signatureMismatch, true⟩,
  ⟨"ZIP_COMP_001", "ZIP", .structuralCorruption, .catastrophic,
    "Compound: missing EOCD + CRC mismatch", "EOCD.signature", .signatureMismatch, true⟩,
  ⟨"ZIP_COMP_002", "ZIP", .truncation, .catastrophic,
    "Compound: truncated + bitflip", "stream.tail", .truncationMarker, false⟩]

def tarRules : List ClassifierRule := [
  ⟨"TAR_UST_001", "TAR", .structuralCorruption, .major,
    "UStar checksum invalid", "UStarHeader.checksum", .checksumMismatch, true⟩,
  ⟨"TAR_UST_002", "TAR", .structuralCorruption, .minor,
    "UStar magic missing", "UStarHeader.magic", .signatureMismatch, true⟩,
  ⟨"TAR_TERM_001", "TAR", .structuralCorruption, .minor,
    "Missing zero-block terminator", "Archive.terminator", .structureMissing, false⟩,
  ⟨"TAR_TERM_002", "TAR", .paddingMismatch, .benign,
    "Extra garbage after terminator", "Archive.terminator", .paddingViolation, false⟩,
  ⟨"TAR_SIZE_001", "TAR", .structuralCorruption, .major,
    "Size field larger than remaining data", "UStarHeader.size", .lengthOverflow, false⟩,
  ⟨"TAR_SIZE_002", "TAR", .missingData, .major,
    "File data shorter than declared size", "UStarHeader.size", .truncationMarker, false⟩,
  ⟨"TAR_BLOCK_001", "TAR", .blockReorder, .major,
    "Two data blocks swapped", "block.order", .blockReorder, false⟩,
  ⟨"TAR_TRUNC_001", "TAR", .truncation, .minor,
    "Truncated last 1%", "stream.tail", .truncationMarker, false⟩,
  ⟨"TAR_TRUNC_002", "TAR", .truncation, .major,
    "Truncated last 10%", "stream.tail", .truncationMarker, false⟩,
  ⟨"TAR_TRUNC_003", "TAR", .truncation, .catastrophic,
    "Truncated first block", "stream.header", .truncationMarker, false⟩,
  ⟨"TAR_FLIP_001", "TAR", .bitFlip, .minor,
    "Single bit flip in file content", "payload.bits", .checksumMismatch, false⟩,
  ⟨"TAR_FLIP_002", "TAR", .bitFlip, .major,
    "Multiple bit flips in header area", "header.bits", .checksumMismatch, false⟩,
  ⟨"TAR_GNU_001", "TAR", .structuralCorruption, .major,
    "GNU LongName block corrupted", "GnuLongName.block", .structureMissing, false⟩,
  ⟨"TAR_SPARSE_001", "TAR", .structuralCorruption, .major,
    "Sparse file map invalid", "SparseMap", .valueOutOfRange, false⟩,
  ⟨"TAR_COMP_001", "TAR", .structuralCorruption, .catastrophic,
    "Compound: checksum + truncated", "UStarHeader.checksum", .checksumMismatch, true⟩]

def isoRules : List ClassifierRule := [
  ⟨"ISO_PVD_001", "ISO", .structuralCorruption, .catastrophic,
    "Primary volume descriptor magic missing",
    "PrimaryVolumeDescriptor.magic", .signatureMismatch, true⟩,
  ⟨"ISO_PVD_002", "ISO", .structuralCorruption, .major,
    "PVD volume space size wrong", "PrimaryVolumeDescriptor.volume_space", .valueOutOfRange, false⟩,
  ⟨"ISO_SVD_001", "ISO", .structuralCorruption, .major,
    "Supplementary VD (Joliet) corrupt",
    "SupplementaryVolumeDescriptor.magic", .signatureMismatch, true⟩,
  ⟨"ISO_PT_001", "ISO", .missingData, .major,
    "Path table offset beyond EOF",
    "PrimaryVolumeDescriptor.path_table_location", .offsetOutOfBounds, false⟩,
  ⟨"ISO_PT_002", "ISO", .structuralCorruption, .major,
    "Path table entry length invalid", "PathTable.entry_length", .lengthUnderflow, false⟩,
  ⟨"ISO_DIR_001", "ISO", .structuralCorruption, .major,
    "Directory record length field zero", "DirectoryRecord.length", .lengthUnderflow, false⟩,
  ⟨"ISO_DIR_002", "ISO", .missingData, .major,
    "Directory record points to missing extent",
    "DirectoryRecord.extent", .offsetOutOfBounds, false⟩,
  ⟨"ISO_SECTOR_001", "ISO", .bitFlip, .minor,
    "Single sector data bitflip", "sector.bits", .checksumMismatch, false⟩,
  ⟨"ISO_SECTOR_002", "ISO", .missingData, .major,
    "Multiple consecutive sectors zeroed", "sector.data", .structureMissing, false⟩,
  ⟨"ISO_TRUNC_001", "ISO", .truncation, .major,
    "Truncated 5%", "stream.tail", .truncationMarker, false⟩,
  ⟨"ISO_TRUNC_002", "ISO", .truncation, .catastrophic,
    "Truncated 20%", "stream.tail", .truncationMarker, false⟩,
  ⟨"ISO_TRUNC_003", "ISO", .truncation, .catastrophic,
    "Truncated at PVD (sector 16)", "stream.header", .truncationMarker, false⟩]

def gzipRules : List ClassifierRule := [
  ⟨"GZ_MAGIC_001", "GZIP", .structuralCorruption, .catastrophic,
    "Magic bytes replaced", "gzip.magic", .signatureMismatch, true⟩,
  ⟨"GZ_CM_001", "GZIP", .structuralCorruption, .major,
    "Compression method invalid (not 8)", "gzip.cm", .valueOutOfRange, false⟩,
  ⟨"GZ_HCRC_001", "GZIP", .checksumMismatch, .minor,
    "Header CRC16 mismatch", "gzip.hcrc", .checksumMismatch, false⟩,
  ⟨"GZ_ICRC_001", "GZIP", .checksumMismatch, .major,
    "Content CRC32 mismatch", "gzip.crc32", .checksumMismatch, true⟩,
  ⟨"GZ_ISIZE_001", "GZIP", .structuralCorruption, .minor,
    "ISIZE wrong", "gzip.isize", .valueOutOfRange, false⟩,
  ⟨"GZ_TRUNC_001", "GZIP", .truncation, .major,
    "Truncated in compressed data", "stream.tail", .truncationMarker, false⟩,
  ⟨"GZ_TRUNC_002", "GZIP", .truncation, .catastrophic,
    "Truncated before header end", "stream.header", .truncationMarker, false⟩,
  ⟨"GZ_FLIP_001", "GZIP", .bitFlip, .major,
    "Bit flip in compressed data", "payload.bits", .checksumMismatch, false⟩,
  ⟨"GZ_EXTRA_001", "GZIP", .structuralCorruption, .minor,
    "Extra field length overflow", "gzip.extra_len", .lengthOverflow, false⟩]

def pdfRules : List ClassifierRule := [
  ⟨"PDF_HDR_001", "PDF", .structuralCorruption, .catastrophic,
    "%PDF- header missing", "pdf.header", .signatureMismatch, true⟩,
  ⟨"PDF_HDR_002", "PDF", .structuralCorruption, .minor,
    "Version marker malformed", "pdf.version", .valueOutOfRange, false⟩,
  ⟨"PDF_EOF_001", "PDF", .structuralCorruption, .major,
    "%%EOF marker missing", "pdf.eof", .structureMissing, false⟩,
  ⟨"PDF_XREF_001", "PDF", .structuralCorruption, .major,
    "startxref offset wrong", "pdf.startxref", .offsetOutOfBounds, false⟩,
  ⟨"PDF_XREF_002", "PDF", .missingData, .major,
    "xref table missing entirely", "pdf.xref", .structureMissing, false⟩,
  ⟨"PDF_XREF_003", "PDF", .structuralCorruption, .major,
    "xref entry format invalid", "pdf.xref.entry", .valueOutOfRange, false⟩,
  ⟨"PDF_OBJ_001", "PDF", .structuralCorruption, .major,
    "Object stream header corrupt", "pdf.objstm", .structureMissing, false⟩,
  ⟨"PDF_OBJ_002", "PDF", .missingData, .major,
    "Indirect object missing", "pdf.object", .structureMissing, false⟩,
  ⟨"PDF_TRUNC_001", "PDF", .truncation, .minor,
    "Truncated last 1%", "stream.tail", .truncationMarker, false⟩,
  ⟨"PDF_TRUNC_002", "PDF", .truncation, .major,
    "Truncated last 15%", "stream.tail", .truncationMarker, false⟩,
  ⟨"PDF_TRUNC_003", "PDF", .truncation, .catastrophic,
    "Truncated at 50%", "stream.tail", .truncationMarker, false⟩,
  ⟨"PDF_FLIP_001", "PDF", .bitFlip, .minor,
    "Bit flip in page content stream", "payload.bits", .checksumMismatch, false⟩,
  ⟨"PDF_FLIP_002", "PDF", .bitFlip, .major,
    "Bit flip in cross-reference stream", "pdf.xref.bits", .checksumMismatch, false⟩,
  ⟨"PDF_COMP_001", "PDF", .structuralCorruption, .catastrophic,
    "Missing xref + object missing", "pdf.xref", .structureMissing, false⟩]

def sqliteRules : List ClassifierRule := [
  ⟨"SQ_MAGIC_001", "SQLite", .structuralCorruption, .catastrophic,
    "Header magic missing", "sqlite.magic", .signatureMismatch, true⟩,
  ⟨"SQ_PGSIZE_001", "SQLite", .structuralCorruption, .catastrophic,
    "Page size not a power of two", "sqlite.page_size", .valueOutOfRange, false⟩,
  ⟨"SQ_PGSIZE_002", "SQLite", .structuralCorruption, .major,
    "Page size mismatch with actual pages", "sqlite.page_size", .valueOutOfRange, false⟩,
  ⟨"SQ_FC_001", "SQLite", .structuralCorruption, .major,
    "File change counter mismatch", "sqlite.change_counter", .valueOutOfRange, false⟩,
  ⟨"SQ_BTREE_001", "SQLite", .structuralCorruption, .major,
    "B-tree page type byte invalid", "sqlite.btree.page_type", .valueOutOfRange, false⟩,
  ⟨"SQ_BTREE_002", "SQLite", .structuralCorruption, .major,
    "B-tree cell count exceeds capacity", "sqlite.btree.cell_count", .valueOutOfRange, false⟩,
  ⟨"SQ_BTREE_003", "SQLite", .missingData, .major,
    "Cell pointer references missing offset", "sqlite.btree.cell_ptr", .offsetOutOfBounds, false⟩,
  ⟨"SQ_FREE_001", "SQLite", .structuralCorruption, .minor,
    "Freelist trunk page number invalid", "sqlite.freelist_trunk", .valueOutOfRange, false⟩,
  ⟨"SQ_FREE_002", "SQLite", .structuralCorruption, .major,
    "Freelist count exceeds actual pages", "sqlite.freelist_count", .valueOutOfRange, false⟩,
  ⟨"SQ_WAL_001", "SQLite", .structuralCorruption, .minor,
    "WAL header magic missing", "wal.magic", .signatureMismatch, true⟩,
  ⟨"SQ_WAL_002", "SQLite", .structuralCorruption, .major,
    "WAL salt mismatch", "wal.salt", .valueOutOfRange, false⟩,
  ⟨"SQ_TRUNC_001", "SQLite", .truncation, .major,
    "Truncated mid-page", "stream.tail", .truncationMarker, false⟩,
  ⟨"SQ_TRUNC_002", "SQLite", .truncation, .catastrophic,
    "Truncated before page 2", "stream.tail", .truncationMarker, false⟩,
  ⟨"SQ_FLIP_001", "SQLite", .bitFlip, .minor,
    "Bit flip in row data", "payload.bits", .checksumMismatch, false⟩,
  ⟨"SQ_FLIP_002", "SQLite", .bitFlip, .major,
    "Bit flip in B-tree interior key", "sqlite.btree.key", .checksumMismatch, false⟩,
  ⟨"SQ_COMP_001", "SQLite", .structuralCorruption, .catastrophic,
    "Corrupt B-tree + bit flip", "sqlite.btree", .structureMissing, false⟩]

def streamRules : List ClassifierRule := [
  ⟨"RAR_MAGIC_001", "RAR", .structuralCorruption, .catastrophic,
    "RAR signature corrupted", "signature", .signatureMismatch, true⟩,
  ⟨"RAR_CRC_001", "RAR", .checksumMismatch, .major,
    "RAR file CRC mismatch", "trailer.checksum", .checksumMismatch, false⟩,
  ⟨"7Z_MAGIC_001", "7Z", .structuralCorruption, .catastrophic,
    "7z signature header corrupted", "signature", .signatureMismatch, true⟩,
  ⟨"7Z_CRC_001", "7Z", .checksumMismatch, .major,
    "7z CRC mismatch", "trailer.checksum", .checksumMismatch, false⟩,
  ⟨"7Z_TRUNC_001", "7Z", .truncation, .catastrophic,
    "7z end header beyond EOF (truncated)", "stream.tail", .truncationMarker, false⟩,
  ⟨"BZ2_MAGIC_001", "BZIP2", .structuralCorruption, .catastrophic,
    "BZh stream magic corrupted", "signature", .signatureMismatch, true⟩,
  ⟨"BZ2_CRC_001", "BZIP2", .checksumMismatch, .major,
    "BZIP2 block CRC mismatch", "trailer.checksum", .checksumMismatch, false⟩,
  ⟨"XZ_MAGIC_001", "XZ", .structuralCorruption, .catastrophic,
    "XZ stream header magic corrupted", "signature", .signatureMismatch, true⟩,
  ⟨"XZ_CRC_001", "XZ", .checksumMismatch, .major,
    "XZ check mismatch", "trailer.checksum", .checksumMismatch, false⟩,
  ⟨"ZST_MAGIC_001", "ZSTD", .structuralCorruption, .catastrophic,
    "ZSTD frame magic corrupted", "signature", .signatureMismatch, true⟩,
  ⟨"ZST_CRC_001", "ZSTD", .checksumMismatch, .major,
    "ZSTD content checksum mismatch", "trailer.checksum", .checksumMismatch, false⟩,
  ⟨"LZ4_MAGIC_001", "LZ4", .structuralCorruption, .catastrophic,
    "LZ4 frame magic corrupted", "signature", .signatureMismatch, true⟩,
  ⟨"LZ4_CRC_001", "LZ4", .checksumMismatch, .major,
    "LZ4 content checksum mismatch", "trailer.checksum", .checksumMismatch, false⟩]

def crossFormatRules : List ClassifierRule := [
  ⟨"INTEGRITY_HASH_001", "*", .checksumMismatch, .major,
    "Content hash does not match manifest", "manifest.hash", .checksumMismatch, true⟩,
  ⟨"GEN_TRUNC_001", "*", .truncation, .major,
    "Stream truncated", "stream.tail", .truncationMarker, false⟩,
  ⟨"GEN_FLIP_001", "*", .bitFlip, .minor,
    "Flipped bit(s)", "payload.bits", .checksumMismatch, false⟩,
  ⟨"GEN_MISSING_001", "*", .missingData, .major,
    "Data region missing", "data.range", .structureMissing, false⟩,
  ⟨"GEN_STRUCT_001", "*", .structuralCorruption, .major,
    "Structural corruption", "stream.layout", .valueOutOfRange, false⟩,
  ⟨"GEN_REORDER_001", "*", .blockReorder, .major,
    "Blocks out of order", "block.order", .blockReorder, false⟩]

def securityRules : List ClassifierRule := [
  ⟨"SEC_BOMB_RATIO_001", "*", .securityThreat, .catastrophic,
    "Compression ratio (per-entry or aggregate) exceeds limit",
    "decompress.ratio", .ratioExceeded, false⟩,
  ⟨"SEC_BOMB_OUTPUT_001", "*", .securityThreat, .catastrophic,
    "Cumulative uncompressed output exceeds cap", "decompress.output_bytes", .ratioExceeded, false⟩,
  ⟨"SEC_BOMB_OVERLAP_001", "ZIP", .securityThreat, .catastrophic,
    "Two local file headers reference overlapping data (Fifield signature)",
    "LocalFileHeader.compressed_data", .overlappingEntries, false⟩,
  ⟨"SEC_CYCLE_001", "*", .securityThreat, .catastrophic,
    "Nested container hash equals an ancestor's (quine)", "container.sha256", .cycleDetected, true⟩,
  ⟨"SEC_DEPTH_001", "*", .securityThreat, .major,
    "Nesting depth exceeds max_depth", "container.depth", .depthExceeded, true⟩,
  ⟨"SEC_ENTRIES_001", "*", .securityThreat, .major,
    "Entry count exceeds limit", "container.entry_count", .valueOutOfRange, false⟩,
  ⟨"SEC_TRAVERSAL_001", "*", .securityThreat, .major,
    "Entry path escapes staging after normalization", "entry.path", .pathEscape, true⟩,
  ⟨"SEC_SYMLINK_001", "*", .securityThreat, .major,
    "Symlink/hardlink entry pointing outside sandbox", "entry.link_target", .pathEscape, true⟩,
  ⟨"SEC_PARSER_TIMEOUT_001", "*", .securityThreat, .major,
    "A parser exceeded its CPU-time budget on one container",
    "container.cpu_time", .valueOutOfRange, false⟩]

/-- The registry. -/
def RULES : List ClassifierRule :=
  zipRules ++ tarRules ++ isoRules ++ gzipRules ++ pdfRules ++ sqliteRules ++ streamRules ++
    crossFormatRules ++ securityRules

/-- Look up a rule by id. -/
def rule (id : String) : Option ClassifierRule := RULES.find? (·.id = id)

/-! ## Confidence and evidence -/

/-- Baseline confidence for an evidence type that needs no extra context. -/
def base : EvidenceType → ℚ
  | .signatureMismatch => 1
  | .checksumMismatch => 1
  | .offsetOutOfBounds => 1
  | .lengthOverflow => 1
  | .lengthUnderflow => 95 / 100
  | .structureMissing => 98 / 100
  | .valueOutOfRange => 95 / 100
  | .blockReorder => 8 / 10
  | .paddingViolation => 7 / 10
  | .truncationMarker => 99 / 100
  | .overlappingEntries => 99 / 100
  | .ratioExceeded => 99 / 100
  | .depthExceeded => 1
  | .pathEscape => 1
  | .cycleDetected => 1

def MAX_EVIDENCE_BYTES : ℕ := 64

def MIN_EMIT_CONFIDENCE : ℚ := 1 / 2

/-- How the results of floating-point operations are rounded. -/
structure Rounding where
  fl : ℚ → ℚ
  mono : Monotone fl
  half : fl (1 / 2) = 1 / 2

/-- Exact arithmetic. -/
def Rounding.exact : Rounding := ⟨id, monotone_id, rfl⟩

/-- `confidence.clamp(0.0, 1.0)` -/
def clampUnit (q : ℚ) : ℚ := max 0 (min q 1)

def Evidence.new (offset : ℕ) (expectedBytes : Option Bytes) (actualBytes : Bytes)
    (fieldName fieldDescription : String) (confidence : ℚ) (ruleId : String)
    (evidenceType : EvidenceType) : Evidence where
  offset := offset
  expectedBytes := expectedBytes.map (·.take MAX_EVIDENCE_BYTES)
  actualBytes := actualBytes.take MAX_EVIDENCE_BYTES
  fieldName := fieldName
  fieldDescription := fieldDescription
  confidence := clampUnit confidence
  ruleId := ruleId
  evidenceType := evidenceType

/-- Combine primary and supporting confidences into the aggregate. -/
def ChainOfEvidence.computeAggregate (r : Rounding) (chain : ChainOfEvidence) : ChainOfEvidence :=
  let inverse := chain.supporting.foldl
    (fun inverse e ↦ r.fl (inverse * r.fl (1 - e.confidence))) (r.fl (1 - chain.primary.confidence))
  { chain with aggregateConfidence := clampUnit (r.fl (1 - inverse)) }

def ChainOfEvidence.single (r : Rounding) (primary : Evidence) : ChainOfEvidence :=
  ChainOfEvidence.computeAggregate r ⟨primary, [], 0⟩

/-! ## Classification -/

/-- The rule id of a kind of defect. -/
def DefectKind.ruleId : DefectKind → String
  | zipMissingEocd => "ZIP_EOCD_001"
  | zipEocdCdOffsetOob => "ZIP_EOCD_002"
  | zipCentralDirectoryMissing => "ZIP_CD_001"
  | zipEntryCountMismatch => "ZIP_CD_003"
  | zipLocalHeaderMissing => "ZIP_LFH_001"
  | zipCrcMismatch => "ZIP_CRC_001"
  | zipSizeMismatch => "ZIP_SIZE_001"
  | tarHeaderChecksumBad => "TAR_UST_001"
  | sqMagicBad => "SQ_MAGIC_001"
  | sqPageSizeBad => "SQ_PGSIZE_001"
  | sqPageSizeMismatch => "SQ_PGSIZE_002"
  | sqFileChangeCounter => "SQ_FC_001"
  | sqBtreePageTypeBad => "SQ_BTREE_001"
  | sqBtreeCellCountBad => "SQ_BTREE_002"
  | sqBtreeCellPtrBad => "SQ_BTREE_003"
  | sqFreelistTrunkBad => "SQ_FREE_001"
  | sqFreelistCountBad => "SQ_FREE_002"
  | sqTruncatedMidPage => "SQ_TRUNC_001"
  | sqTruncatedBeforePage2 => "SQ_TRUNC_002"
  | sqWalMagicBad => "SQ_WAL_001"
  | sqWalSaltMismatch => "SQ_WAL_002"
  | tarMissingTerminator => "TAR_TERM_001"
  | tarTruncated => "TAR_TRUNC_002"
  | isoMissingPvd => "ISO_PVD_001"
  | isoPathTableOutOfBounds => "ISO_PT_001"
  | gzMagicBad => "GZ_MAGIC_001"
  | gzCompressionMethodBad => "GZ_CM_001"
  | gzTruncated => "GZ_TRUNC_001"
  | gzCrcBad => "GZ_ICRC_001"
  | gzIsizeBad => "GZ_ISIZE_001"
  | sevenZMagicBad => "7Z_MAGIC_001"
  | sevenZStartHeaderCrcBad => "7Z_CRC_001"
  | sevenZEndHeaderOob => "7Z_TRUNC_001"
  | rarMagicBad => "RAR_MAGIC_001"
  | manifestHashMismatch => "INTEGRITY_HASH_001"
  | referenceDiff => "GEN_STRUCT_001"

/-- `expect`: a missing value stops the run. -/
def expect {α : Type} : Option α → Checked α
  | some v => .ok v
  | none => .error .assertion

/-- A corruption with its description generated from the chain. -/
def Corruption.fromChain (percent : ℚ → String) (id : ℕ) (location : CorruptionLocation)
    (category : CorruptionCategory) (severity : Severity) (chain : ChainOfEvidence)
    (byteRange : Option ByteRange) : Corruption :=
  Corruption.refreshDescription percent
    ⟨id, location, category, severity, "", byteRange, chain⟩

/-- The override of the detector, or what the rule says. -/
def confidenceOf (r : Rounding) (entry : ClassifierRule) (d : Detected) : ℚ :=
  match d.confidence with
  | some c => c
  | none => if entry.confidenceDeterministic then 1 else r.fl (base entry.evidenceType)

def evidenceOf (r : Rounding) (entry : ClassifierRule) (d : Detected) : Evidence :=
  Evidence.new d.location.offsetStart d.expectedBytes d.actualBytes entry.affectedField
    entry.description (confidenceOf r entry d) entry.id entry.evidenceType

/-- Turn a located defect into a corruption, unless its confidence is too low. -/
def classify (r : Rounding) (percent : ℚ → String) (id : ℕ) (d : Detected) :
    Checked (Option Corruption) := do
  let entry ← expect (rule (d.ruleIdOverride.getD d.kind.ruleId))
  let chain := ChainOfEvidence.single r (evidenceOf r entry d)
  return if chain.aggregateConfidence < MIN_EMIT_CONFIDENCE then none
    else some (Corruption.fromChain percent id d.location entry.category entry.defaultSeverity
      chain d.byteRange)

/-! ## A registered finding is emitted -/

theorem half_le_base (t : EvidenceType) : 1 / 2 ≤ base t := by
  cases t <;> norm_num [base]

theorem half_le_clampUnit {q : ℚ} (h : 1 / 2 ≤ q) : 1 / 2 ≤ clampUnit q :=
  le_max_of_le_right (le_min h (by norm_num))

theorem Rounding.half_le (r : Rounding) {q : ℚ} (h : 1 / 2 ≤ q) : 1 / 2 ≤ r.fl q :=
  r.half.symm.trans_le (r.mono h)

theorem Rounding.le_half (r : Rounding) {q : ℚ} (h : q ≤ 1 / 2) : r.fl q ≤ 1 / 2 :=
  (r.mono h).trans_eq r.half

/-- One piece of evidence that is at least even makes a chain that is. -/
theorem half_le_single (r : Rounding) {e : Evidence} (h : 1 / 2 ≤ e.confidence) :
    1 / 2 ≤ (ChainOfEvidence.single r e).aggregateConfidence := by
  have hinverse : r.fl (1 - e.confidence) ≤ 1 / 2 := r.le_half (by linarith)
  change 1 / 2 ≤ clampUnit (r.fl (1 - r.fl (1 - e.confidence)))
  exact half_le_clampUnit (r.half_le (by linarith))

theorem half_le_confidenceOf (r : Rounding) (entry : ClassifierRule) {d : Detected}
    (hconf : d.confidence = none) : 1 / 2 ≤ confidenceOf r entry d := by
  unfold confidenceOf
  rw [hconf]
  dsimp only
  split
  · norm_num
  · exact r.half_le (half_le_base _)

theorem classify_registered (r : Rounding) (percent : ℚ → String) (id : ℕ) {d : Detected}
    (hconf : d.confidence = none) {entry : ClassifierRule}
    (hrule : rule (d.ruleIdOverride.getD d.kind.ruleId) = some entry) :
    ∃ c, classify r percent id d = .ok (some c) ∧ c.location = d.location := by
  have hemit : ¬ (ChainOfEvidence.single r (evidenceOf r entry d)).aggregateConfidence <
      MIN_EMIT_CONFIDENCE :=
    not_lt.mpr (half_le_single r (half_le_clampUnit (half_le_confidenceOf r entry hconf)))
  refine ⟨Corruption.fromChain percent id d.location entry.category entry.defaultSeverity
    (ChainOfEvidence.single r (evidenceOf r entry d)) d.byteRange, ?_, rfl⟩
  refine bind_eq_ok.mpr ⟨entry, ?_, congrArg Except.ok (if_neg hemit)⟩
  rw [hrule]
  rfl

end VeraqisRecover.Analyze
