import Shrike.Jetstream.Block

/-!
# Segments

A sealed segment of the archive: a header of fixed size, the compressed blocks, and a footer that
starts with the index of the blocks. The checksum covers the header and the footer but no block, so
that the length before each block is compared to the index before the block is read.
-/

namespace Shrike.Jetstream

open Bytes Except

/-- The checksum of a byte string. -/
class Xxh3 where
  hash : Bytes → ℕ

/-- The bytes of a header. -/
def reservedHeaderBytes : ℕ := 256

/-- The bytes of an entry of the index of the blocks. -/
def blockIndexEntrySize : ℕ := 52

/-- The blocks that a segment may have. -/
def SegmentReader.maxBlockCount : ℕ := 2 ^ 20

/-- The version of the segments that are read. -/
def segmentVersion : ℕ := 1

/-- The number of `k` bytes at an offset. -/
def readLe (k : ℕ) (b : Bytes) (off : ℕ) : ℕ := ofLe ((b.drop off).take k)

/-- The signed number of eight bytes at an offset. -/
def readI64 (b : Bytes) (off : ℕ) : Int64 := (UInt64.ofNat (readLe 8 b off)).toInt64

/-- The bytes of a range, if it is one of the byte string. -/
def getRange (b : Bytes) (start stop : ℕ) : Option Bytes :=
  if start ≤ stop ∧ stop ≤ b.length then some ((b.take stop).drop start) else none

/-! ### The header -/

/-- The header of a segment. -/
structure SealedHeader where
  checksum : ℕ
  version : ℕ
  blockCount : ℕ
  eventCount : ℕ
  uniqueDidCount : ℕ
  minSeq : ℕ
  maxSeq : ℕ
  minWitnessedAt : Int64
  maxWitnessedAt : Int64
  footerOffset : ℕ
  didBloomOffset : ℕ
  blockDidBloomOffset : ℕ
  collectionIndexOffset : ℕ
  blockIndexOffset : ℕ

namespace SealedHeader

/-- The header that a segment starts with. -/
def parse (bytes : Bytes) : Except DecodeError SealedHeader := do
  let head ← ofOption (.truncated "segment header") (getRange bytes 0 reservedHeaderBytes)
  refuse (head.take 4 ≠ ascii "jss0") (.corruptSegment "bad segment magic")
  let checksum := readLe 8 head 4
  refuse (checksum = 0) .activeSegment
  let version := readLe 2 head 12
  refuse (version ≠ segmentVersion) (.unsupportedSegmentVersion version segmentVersion)
  .ok { checksum, version, blockCount := readLe 4 head 14, eventCount := readLe 4 head 18,
        uniqueDidCount := readLe 4 head 22, minSeq := readLe 8 head 26, maxSeq := readLe 8 head 34,
        minWitnessedAt := readI64 head 42, maxWitnessedAt := readI64 head 50,
        footerOffset := readLe 8 head 58, didBloomOffset := readLe 8 head 66,
        blockDidBloomOffset := readLe 8 head 74, collectionIndexOffset := readLe 8 head 82,
        blockIndexOffset := readLe 8 head 90 }

/-- Check that the sections are in order in a file of the given length. -/
def validateLayout (h : SealedHeader) (fileLen : ℕ) : Except DecodeError Unit := do
  refuse (h.footerOffset < reservedHeaderBytes) (.corruptSegment "footer offset inside header")
  refuse (h.blockIndexOffset ≠ h.footerOffset)
    (.corruptSegment "block index offset must equal footer offset")
  refuse (¬(h.footerOffset ≤ h.didBloomOffset ∧ h.didBloomOffset ≤ h.blockDidBloomOffset
      ∧ h.blockDidBloomOffset ≤ h.collectionIndexOffset ∧ h.collectionIndexOffset ≤ fileLen))
    (.corruptSegment "footer section offsets out of order")

/-- Check the checksum of a segment. -/
def verifyChecksum [Xxh3] (h : SealedHeader) (segment : Bytes) : Except DecodeError Unit := do
  h.validateLayout segment.length
  let header ← ofOption (.truncated "segment header") (getRange segment 12 reservedHeaderBytes)
  let footer ← ofOption (.truncated "segment footer")
    (getRange segment h.footerOffset segment.length)
  let computed := Xxh3.hash (header ++ footer)
  refuse (computed ≠ h.checksum) (.checksumMismatch computed h.checksum)

end SealedHeader

/-- The header of a segment, with the checksum of the segment checked. -/
def readSealedHeader [Xxh3] (segment : Bytes) : Except DecodeError SealedHeader := do
  let header ← SealedHeader.parse segment
  header.verifyChecksum segment
  .ok header

/-! ### The index of the blocks -/

/-- Where a block is and what is in it. -/
structure BlockIndexEntry where
  offset : ℕ
  compressedSize : ℕ
  uncompressedSize : ℕ
  eventCount : ℕ
  minSeq : ℕ
  maxSeq : ℕ
  minWitnessedAt : Int64
  maxWitnessedAt : Int64

/-- The entry that bytes spell. -/
def BlockIndexEntry.read (e : Bytes) : BlockIndexEntry where
  offset := readLe 8 e 0
  compressedSize := readLe 4 e 8
  uncompressedSize := readLe 4 e 12
  eventCount := readLe 4 e 16
  minSeq := readLe 8 e 20
  maxSeq := readLe 8 e 28
  minWitnessedAt := readI64 e 36
  maxWitnessedAt := readI64 e 44

/-- The index of the blocks of a segment. -/
def decodeBlockIndex (header : SealedHeader) (segment : Bytes) :
    Except DecodeError (List BlockIndexEntry) := do
  refuse (SegmentReader.maxBlockCount < header.blockCount)
    (.limitExceeded "block count" header.blockCount SegmentReader.maxBlockCount)
  let bytesLen ← ofOption (.corruptSegment "block index size overflow")
    (checkedMul header.blockCount blockIndexEntrySize)
  let start := header.blockIndexOffset
  let stop ← ofOption (.corruptSegment "block index end overflow") (checkedAdd start bytesLen)
  refuse (header.didBloomOffset < stop) (.corruptSegment "block index overruns its footer section")
  let buf ← ofOption (.truncated "block index") (getRange segment start stop)
  .ok ((List.range header.blockCount).map fun i =>
    BlockIndexEntry.read ((buf.drop (i * blockIndexEntrySize)).take blockIndexEntrySize))

/-- What is known of the blocks before the next one: where the last one ends, and the last sequence
number of the last one that is not empty. -/
structure BlockCursor where
  prevEnd : ℕ
  prevNonemptyMaxSeq : Option ℕ

/-- Check an entry of the index after those before it. -/
def validateBlockOffset (footer : ℕ) (cursor : BlockCursor) (b : BlockIndexEntry) :
    Except DecodeError BlockCursor := do
  refuse (b.offset < reservedHeaderBytes) (.corruptSegment "block offset inside header")
  let stop ← ofOption (.corruptSegment "block frame end overflow")
    ((checkedAdd b.offset 8).bind fun v => checkedAdd v b.compressedSize)
  refuse (footer < stop) (.corruptSegment "block frame overruns block region")
  refuse (b.offset < cursor.prevEnd) (.corruptSegment "block frames overlap or are out of order")
  refuse (b.maxSeq < b.minSeq) (.corruptSegment "block max_seq below min_seq")
  refuse (b.maxWitnessedAt < b.minWitnessedAt)
    (.corruptSegment "block max_witnessed_at below min_witnessed_at")
  if b.eventCount = 0 then .ok { cursor with prevEnd := stop }
  else do
    refuse (∃ prevMax ∈ cursor.prevNonemptyMaxSeq, b.minSeq ≤ prevMax)
      (.corruptSegment "block sequences are not strictly increasing")
    .ok { prevEnd := stop, prevNonemptyMaxSeq := some b.maxSeq }

/-- Check the index of the blocks. -/
def validateBlockOffsets (header : SealedHeader) (blocks : List BlockIndexEntry) :
    Except DecodeError Unit := do
  let _ ← blocks.foldlM (validateBlockOffset header.footerOffset)
    { prevEnd := reservedHeaderBytes, prevNonemptyMaxSeq := none }
  .ok ()

/-! ### Reading -/

/-- A segment with its header and the index of its blocks, both checked. -/
structure SegmentReader where
  segment : Bytes
  header : SealedHeader
  blocks : List BlockIndexEntry

namespace SegmentReader

/-- Read the header and the index of a segment. -/
def «open» [Xxh3] (segment : Bytes) : Except DecodeError SegmentReader := do
  let header ← readSealedHeader segment
  let blocks ← decodeBlockIndex header segment
  validateBlockOffsets header blocks
  .ok { segment, header, blocks }

/-- The number of blocks. -/
def blockCount (r : SegmentReader) : ℕ := r.blocks.length

/-- The compressed block at an index. -/
def blockFrame (r : SegmentReader) (idx : ℕ) : Except DecodeError Bytes := do
  let entry ← ofOption (.corruptSegment "block index out of range") r.blocks[idx]?
  let pre ← ofOption (.truncated "block length prefix")
    (getRange r.segment entry.offset (entry.offset + 8))
  refuse (ofLe pre ≠ entry.compressedSize)
    (.corruptSegment "block length prefix disagrees with block index")
  let start := entry.offset + 8
  ofOption (.truncated "block frame") (getRange r.segment start (start + entry.compressedSize))

end SegmentReader

end Shrike.Jetstream
