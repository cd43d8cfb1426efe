import Chronoxide.Chunk.Types
import Chronoxide.Collections.Ascending
import Chronoxide.Encoding.Fields
import Mathlib.Data.Prod.Lex

/-! The chunk index (`chunk/index_v2.rs`): a root and one overflow blob for every series whose chunks
do not fit its hot record. Reservations are taken to succeed. -/

namespace Chronoxide
open Codec

def chunkOverflowRootV2Len : Nat := 64
def chunkOverflowBlobV1HeaderLen : Nat := 32
def overflowChunkEntryV1Len : Nat := 44

def chunkIndexMagic : UInt32 := u32FromLe [0x43, 0x48, 0x49, 0x58]
def chunkIndexVersionV2 : UInt16 := 2
def chunkOverflowBlobsOffset : UInt64 := 64
def chunkOverflowBlobMagic : UInt32 := u32FromLe [0x43, 0x4f, 0x46, 0x37]
def chunkOverflowBlobVersionV1 : UInt16 := 1
def minChunkOverflowBlobV1Len : Nat := chunkOverflowBlobV1HeaderLen + overflowChunkEntryV1Len
def rootCrcOffset : Nat := 56
def blobCrcOffset : Nat := 28

structure ChunkOverflowRootV2 where
  seriesCount : UInt32
  blobCount : UInt32
  blobsLen : UInt64
  fileLen : UInt64
  rootCrc32c : UInt32
  deriving DecidableEq, Repr

structure OverflowChunkEntryV1 where
  fileId : UInt8
  kind : ChunkKind
  minTimeMs : UInt64
  maxTimeMs : UInt64
  offset : UInt64
  length : UInt32
  scalarLaneOffset : UInt32
  scalarLaneLen : UInt32
  indexedPrefixCrc32c : UInt32
  deriving DecidableEq, Repr

structure ChunkOverflowBlobV1 where
  seriesRef : UInt32
  entries : List OverflowChunkEntryV1
  deriving DecidableEq, Repr

structure ChunkOverflowBlobLocatorV1 where
  seriesRef : UInt32
  blobOffset : UInt64
  blobLen : UInt32
  chunkCount : UInt32
  deriving DecidableEq, Repr

structure TouchedOverflowBlobFactsV1 where
  seriesRef : UInt32
  chunkCount : UInt32
  deriving DecidableEq, Repr

structure EncodedChunkIndexV2 where
  bytes : Bytes
  root : ChunkOverflowRootV2
  blobLocators : List ChunkOverflowBlobLocatorV1
  deriving DecidableEq, Repr

structure DecodedChunkIndexV2 where
  root : ChunkOverflowRootV2
  blobs : List ChunkOverflowBlobV1
  blobLocators : List ChunkOverflowBlobLocatorV1
  deriving DecidableEq, Repr

def checkedChunkOverflowBlobLen (chunkCount : UInt32) : Option UInt32 :=
  let blobLen := chunkCount.toNat * overflowChunkEntryV1Len + chunkOverflowBlobV1HeaderLen
  if blobLen < 2 ^ 32 then some (UInt32.ofNat blobLen) else none

def isTypedKind : ChunkKind → Bool
  | .histogram | .exponentialHistogram | .summary => true
  | .float | .int64 => false

variable (entry : OverflowChunkEntryV1)

def validateOverflowChunkEntryV1 (errorKind : ErrorKind) : Except IoError Unit := do
  require (entry.fileId ≤ 1) ⟨errorKind, "schema-7 overflow entry file_id is invalid"⟩
  require (entry.minTimeMs ≤ entry.maxTimeMs)
    ⟨errorKind, "schema-7 overflow entry time range is reversed"⟩
  require (chunkHeaderLen ≤ entry.length.toNat)
    ⟨errorKind, "schema-7 overflow entry is shorter than a chunk header"⟩
  require (entry.offset.toNat + entry.length.toNat < 2 ^ 64)
    ⟨errorKind, "schema-7 overflow entry file range overflows"⟩
  if entry.scalarLaneOffset = 0 ∧ entry.scalarLaneLen = 0 then return ()
  else if entry.scalarLaneOffset.toNat = chunkHeaderLen ∧
      typedScalarLaneHeaderLen ≤ entry.scalarLaneLen.toNat then do
    require (isTypedKind entry.kind)
      ⟨errorKind, "schema-7 overflow scalar lane belongs to a non-typed chunk"⟩
    require (entry.scalarLaneOffset.toNat + entry.scalarLaneLen.toNat < 2 ^ 32)
      ⟨errorKind, "schema-7 overflow scalar lane range overflows"⟩
    require (entry.scalarLaneOffset.toNat + entry.scalarLaneLen.toNat ≤ entry.length.toNat)
      ⟨errorKind, "schema-7 overflow scalar lane exceeds the chunk range"⟩
  else throw ⟨errorKind, "schema-7 overflow scalar lane locator is not canonical"⟩

abbrev OverflowOrderKey := ℕ ×ₗ ℕ ×ₗ ℕ ×ₗ ℕ

def overflowEntryOrderKey : OverflowOrderKey :=
  toLex (entry.fileId.toNat, toLex (entry.minTimeMs.toNat,
    toLex (entry.maxTimeMs.toNat, entry.offset.toNat)))

def validateEntryOrder (entries : List OverflowChunkEntryV1) (errorKind : ErrorKind) :
    Except IoError Unit := do
  let _ ← entries.foldlM (Ascending.step overflowEntryOrderKey
    (validateOverflowChunkEntryV1 · errorKind)
    ⟨errorKind, "schema-7 overflow entries are not strictly ordered and unique"⟩) none
  return ()

/-- The fields of an entry in their order; the third is reserved. -/
def overflowChunkEntryBytes : Bytes :=
  [[entry.fileId], [entry.kind.toU8], u16ToLe 0, u64ToLe entry.minTimeMs,
    u64ToLe entry.maxTimeMs, u64ToLe entry.offset, u32ToLe entry.length,
    u32ToLe entry.scalarLaneOffset, u32ToLe entry.scalarLaneLen,
    u32ToLe entry.indexedPrefixCrc32c].flatten

def encodeOverflowChunkEntryV1 (out : Bytes) : Except IoError Bytes := do
  validateOverflowChunkEntryV1 entry .invalidInput
  return out ++ overflowChunkEntryBytes entry

def overflowChunkKindFromU8 : UInt8 → Except IoError ChunkKind :=
  decodeChunkEnum ChunkKind.toU8
    [.float, .int64, .histogram, .exponentialHistogram, .summary]
    "schema-7 overflow entry kind is invalid"

def decodeOverflowChunkEntryV1 (bytes : Bytes) : Except IoError OverflowChunkEntryV1 := do
  requireExactLen bytes overflowChunkEntryV1Len "schema-7 overflow entry"
  require (readU16At bytes 2 = 0)
    (invalidData "schema-7 overflow entry reserved field must be zero")
  let kind ← overflowChunkKindFromU8 (readU8At bytes 1)
  let entry : OverflowChunkEntryV1 :=
    { fileId := readU8At bytes 0, kind, minTimeMs := readU64At bytes 4,
      maxTimeMs := readU64At bytes 12, offset := readU64At bytes 20, length := readU32At bytes 28,
      scalarLaneOffset := readU32At bytes 32, scalarLaneLen := readU32At bytes 36,
      indexedPrefixCrc32c := readU32At bytes 40 }
  validateOverflowChunkEntryV1 entry .invalidData
  return entry

section
variable (crc : Crc32c)

def blobHeader (seriesRef chunkCount bodyLen blobCrc32c : UInt32) : Bytes :=
  [u32ToLe chunkOverflowBlobMagic, u16ToLe chunkOverflowBlobVersionV1, u16ToLe 0,
    u32ToLe (UInt32.ofNat chunkOverflowBlobV1HeaderLen), u32ToLe seriesRef, u32ToLe chunkCount,
    u32ToLe 0, u32ToLe bodyLen, u32ToLe blobCrc32c].flatten

def encodeChunkOverflowBlobV1 (blob : ChunkOverflowBlobV1) (seriesCount : UInt32) :
    Except IoError Bytes := do
  require (blob.seriesRef < seriesCount)
    (invalidInput "schema-7 overflow blob series_ref is out of range")
  require (blob.entries.length < 2 ^ 32)
    (invalidInput "schema-7 overflow chunk count exceeds u32")
  let chunkCount := UInt32.ofNat blob.entries.length
  require (chunkCount ≠ 0) (invalidInput "schema-7 overflow blob has no chunks")
  let blobLen ← okOr (checkedChunkOverflowBlobLen chunkCount)
    (invalidInput "schema-7 overflow blob length exceeds u32")
  let bodyLen := blobLen - UInt32.ofNat chunkOverflowBlobV1HeaderLen
  validateEntryOrder blob.entries .invalidInput
  let bytes ← blob.entries.foldlM (fun out entry => encodeOverflowChunkEntryV1 entry out)
    (blobHeader blob.seriesRef chunkCount bodyLen 0)
  return overwrite bytes blobCrcOffset (u32ToLe (crc.crc32c bytes))

structure ValidatedChunkOverflowBlobBytes where
  seriesRef : UInt32
  chunkCount : UInt32
  encodedEntries : Bytes

def visitEntry {σ : Type} (visit : σ → OverflowChunkEntryV1 → Except IoError σ)
    (state : Option OverflowOrderKey × Nat × σ) (entryBytes : Bytes) :
    Except IoError (Option OverflowOrderKey × Nat × σ) := do
  let entry ← decodeOverflowChunkEntryV1 entryBytes
  require (∀ key ∈ state.1, key < overflowEntryOrderKey entry)
    (invalidData "schema-7 overflow entries are not strictly ordered and unique")
  require (state.2.1 + 1 < 2 ^ 32) (invalidData "schema-7 overflow entry count overflows")
  let visited ← visit state.2.2 entry
  return (some (overflowEntryOrderKey entry), state.2.1 + 1, visited)

def ValidatedChunkOverflowBlobBytes.visitEntries {σ : Type}
    (validated : ValidatedChunkOverflowBlobBytes)
    (visit : σ → OverflowChunkEntryV1 → Except IoError σ) (state : σ) : Except IoError σ := do
  let visited ← (chunksExact overflowChunkEntryV1Len validated.encodedEntries).foldlM
    (visitEntry visit) (none, 0, state)
  require (visited.2.1 = validated.chunkCount.toNat)
    (invalidData "schema-7 overflow entry count does not match blob header")
  return visited.2.2

def pushOverflowEntry (entries : List OverflowChunkEntryV1) (entry : OverflowChunkEntryV1) :
    Except IoError (List OverflowChunkEntryV1) := .ok (entries ++ [entry])

def validateChunkOverflowBlobBytesV1 (bytes : Bytes) (seriesCount : UInt32) :
    Except IoError ValidatedChunkOverflowBlobBytes := do
  require (chunkOverflowBlobV1HeaderLen ≤ bytes.length)
    (unexpectedEof "schema-7 overflow blob header is truncated")
  let chunkCount := readU32At bytes 16
  require (chunkCount ≠ 0) (invalidData "schema-7 overflow blob has no chunks")
  let expectedBlobLen ← okOr (checkedChunkOverflowBlobLen chunkCount)
    (invalidData "schema-7 overflow blob length exceeds u32")
  require (chunkOverflowBlobV1HeaderLen ≤ expectedBlobLen.toNat)
    (invalidData "schema-7 overflow blob body length underflows")
  requireExactLen bytes expectedBlobLen.toNat "schema-7 overflow blob"
  require (readU32At bytes 24 = expectedBlobLen - UInt32.ofNat chunkOverflowBlobV1HeaderLen)
    (invalidData "schema-7 overflow blob body length does not match chunk count")
  let storedCrc := readU32At bytes blobCrcOffset
  let crcHeader := overwrite (bytes.take chunkOverflowBlobV1HeaderLen) blobCrcOffset (u32ToLe 0)
  let computedCrc := crc.append (crc.crc32c crcHeader) (bytes.drop chunkOverflowBlobV1HeaderLen)
  require (computedCrc = storedCrc) (invalidData "schema-7 overflow blob crc mismatch")
  require (readU32At bytes 0 = chunkOverflowBlobMagic)
    (invalidData "schema-7 overflow blob magic mismatch")
  require (readU16At bytes 4 = chunkOverflowBlobVersionV1)
    (invalidData "unsupported schema-7 overflow blob version")
  require (readU16At bytes 6 = 0) (invalidData "schema-7 overflow blob flags must be zero")
  require (readU32At bytes 8 = UInt32.ofNat chunkOverflowBlobV1HeaderLen)
    (invalidData "schema-7 overflow blob header length is not canonical")
  let seriesRef := readU32At bytes 12
  require (seriesRef < seriesCount)
    (invalidData "schema-7 overflow blob series_ref is out of range")
  require (readU32At bytes 20 = 0)
    (invalidData "schema-7 overflow blob reserved field must be zero")
  return ⟨seriesRef, chunkCount, bytes.drop chunkOverflowBlobV1HeaderLen⟩

def decodeChunkOverflowBlobV1 (bytes : Bytes) (seriesCount : UInt32) :
    Except IoError ChunkOverflowBlobV1 := do
  let validated ← validateChunkOverflowBlobBytesV1 crc bytes seriesCount
  let entries ← validated.visitEntries pushOverflowEntry []
  return ⟨validated.seriesRef, entries⟩

variable (seriesCount blobCount : UInt32)

def rootFields (blobsLen fileLen : UInt64) (rootCrc32c : UInt32) : Bytes :=
  [u32ToLe chunkIndexMagic, u16ToLe chunkIndexVersionV2, u16ToLe 0,
    u32ToLe (UInt32.ofNat chunkOverflowRootV2Len),
    u32ToLe (UInt32.ofNat chunkOverflowBlobV1HeaderLen),
    u32ToLe (UInt32.ofNat overflowChunkEntryV1Len), u32ToLe seriesCount, u32ToLe blobCount,
    u32ToLe 0, u64ToLe chunkOverflowBlobsOffset, u64ToLe blobsLen, u64ToLe fileLen,
    u32ToLe rootCrc32c, u32ToLe 0].flatten

def encodeChunkOverflowRootV2 (blobsLen : UInt64) : Except IoError Bytes := do
  require (blobCount ≤ seriesCount)
    (invalidInput "schema-7 overflow blob count exceeds series count")
  require (blobCount = 0 ↔ blobsLen = 0)
    (invalidInput "schema-7 overflow blob count and region length disagree")
  require (chunkOverflowBlobsOffset.toNat + blobsLen.toNat < 2 ^ 64)
    (invalidInput "schema-7 chunk index file length overflows")
  let bytes := rootFields seriesCount blobCount blobsLen (chunkOverflowBlobsOffset + blobsLen) 0
  return overwrite bytes rootCrcOffset (u32ToLe (crc.crc32c bytes))

def decodeChunkOverflowRootV2 (bytes : Bytes) (actualFileLen : Nat) :
    Except IoError ChunkOverflowRootV2 := do
  requireExactLen bytes chunkOverflowRootV2Len "schema-7 chunk index root"
  let storedCrc := readU32At bytes rootCrcOffset
  require (crc.crc32c (overwrite bytes rootCrcOffset (u32ToLe 0)) = storedCrc)
    (invalidData "schema-7 chunk index root crc mismatch")
  require (readU32At bytes 0 = chunkIndexMagic) (invalidData "schema-7 chunk index magic mismatch")
  require (readU16At bytes 4 = chunkIndexVersionV2)
    (invalidData "unsupported schema-7 chunk index version")
  require (readU16At bytes 6 = 0) (invalidData "schema-7 chunk index flags must be zero")
  require (readU32At bytes 8 = UInt32.ofNat chunkOverflowRootV2Len)
    (invalidData "schema-7 chunk index root length is not canonical")
  require (readU32At bytes 12 = UInt32.ofNat chunkOverflowBlobV1HeaderLen)
    (invalidData "schema-7 overflow blob header length is not canonical")
  require (readU32At bytes 16 = UInt32.ofNat overflowChunkEntryV1Len)
    (invalidData "schema-7 overflow entry length is not canonical")
  let seriesCount := readU32At bytes 20
  let blobCount := readU32At bytes 24
  require (blobCount ≤ seriesCount)
    (invalidData "schema-7 overflow blob count exceeds series count")
  require (readU32At bytes 28 = 0 ∧ readU32At bytes 60 = 0)
    (invalidData "schema-7 chunk index root reserved fields must be zero")
  require (readU64At bytes 32 = chunkOverflowBlobsOffset)
    (invalidData "schema-7 overflow blob region offset is not canonical")
  let blobsLen := readU64At bytes 40
  let fileLen := readU64At bytes 48
  require (chunkOverflowBlobsOffset.toNat + blobsLen.toNat < 2 ^ 64)
    (invalidData "schema-7 chunk index file length overflows")
  require (fileLen = chunkOverflowBlobsOffset + blobsLen ∧ fileLen.toNat = actualFileLen)
    (invalidData "schema-7 chunk index file length does not match root")
  require (blobCount = 0 ↔ blobsLen = 0)
    (invalidData "schema-7 overflow blob count and region length disagree")
  require (blobCount.toNat * minChunkOverflowBlobV1Len < 2 ^ 64)
    (invalidData "schema-7 minimum overflow blob length overflows")
  require (blobCount.toNat * minChunkOverflowBlobV1Len ≤ blobsLen.toNat)
    (invalidData "schema-7 overflow blob region is too short for its blob count")
  return ⟨seriesCount, blobCount, blobsLen, fileLen, storedCrc⟩

def validateBlobSeriesOrder (blobs : List ChunkOverflowBlobV1) (seriesCount : UInt32)
    (errorKind : ErrorKind) : Except IoError Unit := do
  let _ ← blobs.foldlM (Ascending.step ChunkOverflowBlobV1.seriesRef
    (fun blob => require (blob.seriesRef < seriesCount)
      ⟨errorKind, "schema-7 overflow blob series_ref is out of range"⟩)
    ⟨errorKind, "schema-7 overflow blobs are not strictly ordered by series_ref"⟩) none
  return ()

/-- The first loop of the encoder: the bytes of the blobs and their length. -/
def encodeBlob (state : List Bytes × Nat) (blob : ChunkOverflowBlobV1) :
    Except IoError (List Bytes × Nat) := do
  let bytes ← encodeChunkOverflowBlobV1 crc blob seriesCount
  require (state.2 + bytes.length < 2 ^ 64)
    (invalidInput "schema-7 overflow blob region length overflows")
  return (state.1 ++ [bytes], state.2 + bytes.length)

/-- The second loop: the locators, the region and the offset behind it. -/
def placeBlob (state : List ChunkOverflowBlobLocatorV1 × Bytes × Nat)
    (encoded : ChunkOverflowBlobV1 × Bytes) :
    Except IoError (List ChunkOverflowBlobLocatorV1 × Bytes × Nat) := do
  require (encoded.2.length < 2 ^ 32) (invalidInput "schema-7 overflow blob length exceeds u32")
  require (encoded.1.entries.length < 2 ^ 32)
    (invalidInput "schema-7 overflow chunk count exceeds u32")
  let locator : ChunkOverflowBlobLocatorV1 :=
    ⟨encoded.1.seriesRef, UInt64.ofNat state.2.2, UInt32.ofNat encoded.2.length,
      UInt32.ofNat encoded.1.entries.length⟩
  require (state.2.2 + encoded.2.length < 2 ^ 64)
    (invalidInput "schema-7 overflow blob offset overflows")
  return (state.1 ++ [locator], state.2.1 ++ encoded.2, state.2.2 + encoded.2.length)

def encodeChunkIndexV2 (blobs : List ChunkOverflowBlobV1) : Except IoError EncodedChunkIndexV2 := do
  require (blobs.length < 2 ^ 32) (invalidInput "schema-7 overflow blob count exceeds u32")
  let blobCount := UInt32.ofNat blobs.length
  require (blobCount ≤ seriesCount)
    (invalidInput "schema-7 overflow blob count exceeds series count")
  validateBlobSeriesOrder blobs seriesCount .invalidInput
  let (encodedBlobs, blobsLen) ← blobs.foldlM (encodeBlob crc seriesCount) ([], 0)
  let fileLen := chunkOverflowBlobsOffset.toNat + blobsLen
  require (fileLen < 2 ^ 64) (invalidInput "schema-7 chunk index file length overflows")
  let (blobLocators, region, blobOffset) ← (blobs.zip encodedBlobs).foldlM placeBlob
    ([], [], chunkOverflowBlobsOffset.toNat)
  require (blobOffset = fileLen)
    (invalidInput "schema-7 overflow blob region length is inconsistent")
  let rootBytes ← encodeChunkOverflowRootV2 crc seriesCount blobCount (UInt64.ofNat blobsLen)
  let root ← decodeChunkOverflowRootV2 crc rootBytes fileLen
  return ⟨rootBytes ++ region, root, blobLocators⟩

/-- The loop of the decoder, from a cursor on: the blobs with their locators and the cursor behind
them. -/
def decodeBlobs (bytes : Bytes) (seriesCount : UInt32) :
    Nat → Nat → Option UInt32 →
      Except IoError (List (ChunkOverflowBlobV1 × ChunkOverflowBlobLocatorV1) × Nat)
  | 0, cursor, _ => .ok ([], cursor)
  | count + 1, cursor, previousSeriesRef => do
    require (cursor + chunkOverflowBlobV1HeaderLen < 2 ^ 64)
      (invalidData "schema-7 overflow blob header range overflows")
    require (cursor + chunkOverflowBlobV1HeaderLen ≤ bytes.length)
      (unexpectedEof "schema-7 overflow blob header is truncated")
    let chunkCount := readU32At bytes (cursor + 16)
    let declaredBodyLen := readU32At bytes (cursor + 24)
    let expectedBlobLen ← okOr (checkedChunkOverflowBlobLen chunkCount)
      (invalidData "schema-7 overflow blob length exceeds u32")
    require (declaredBodyLen = expectedBlobLen - UInt32.ofNat chunkOverflowBlobV1HeaderLen)
      (invalidData "schema-7 overflow blob body length does not match chunk count")
    let blobEnd := cursor + expectedBlobLen.toNat
    require (blobEnd < 2 ^ 64) (invalidData "schema-7 overflow blob range overflows")
    require (blobEnd ≤ bytes.length) (unexpectedEof "schema-7 overflow blob body is truncated")
    let blob ← decodeChunkOverflowBlobV1 crc (fieldAt bytes cursor expectedBlobLen.toNat)
      seriesCount
    @require _ (∀ ref ∈ previousSeriesRef, ref < blob.seriesRef) (Option.decidableForallMem _)
      (invalidData "schema-7 overflow blobs are not strictly ordered by series_ref")
    let locator : ChunkOverflowBlobLocatorV1 :=
      ⟨blob.seriesRef, UInt64.ofNat cursor, expectedBlobLen, chunkCount⟩
    let rest ← decodeBlobs bytes seriesCount count blobEnd (some blob.seriesRef)
    return ((blob, locator) :: rest.1, rest.2)

def decodeChunkIndexV2 (bytes : Bytes) : Except IoError DecodedChunkIndexV2 := do
  require (chunkOverflowRootV2Len ≤ bytes.length)
    (unexpectedEof "schema-7 chunk index root is truncated")
  let root ← decodeChunkOverflowRootV2 crc (bytes.take chunkOverflowRootV2Len) bytes.length
  let (blobs, cursor) ← decodeBlobs crc bytes root.seriesCount root.blobCount.toNat
    chunkOverflowRootV2Len none
  require (cursor = bytes.length)
    (invalidData "schema-7 overflow blobs do not cover the declared file")
  require (cursor - chunkOverflowRootV2Len = root.blobsLen.toNat)
    (invalidData "schema-7 overflow blob region length does not match root")
  return ⟨root, blobs.map Prod.fst, blobs.map Prod.snd⟩

def validateTouchedChunkOverflowBlobBytesV1 (bytes : Bytes) (root : ChunkOverflowRootV2)
    (locator : ChunkOverflowBlobLocatorV1) : Except IoError ValidatedChunkOverflowBlobBytes := do
  require (chunkOverflowBlobsOffset ≤ locator.blobOffset)
    (invalidData "schema-7 overflow blob locator starts before the blob region")
  let blobEnd := locator.blobOffset.toNat + locator.blobLen.toNat
  require (blobEnd < 2 ^ 64) (invalidData "schema-7 overflow blob locator range overflows")
  require (blobEnd ≤ root.fileLen.toNat)
    (invalidData "schema-7 overflow blob locator exceeds the root blob region")
  let expectedBlobLen ← okOr (checkedChunkOverflowBlobLen locator.chunkCount)
    (invalidData "schema-7 overflow blob locator length exceeds u32")
  require (locator.blobLen = expectedBlobLen)
    (invalidData "schema-7 overflow blob locator length does not match chunk count")
  requireExactLen bytes locator.blobLen.toNat "schema-7 touched overflow blob"
  validateChunkOverflowBlobBytesV1 crc bytes root.seriesCount

def validateTouchedBlobIdentity (validated : ValidatedChunkOverflowBlobBytes)
    (locator : ChunkOverflowBlobLocatorV1) : Except IoError Unit := do
  require (validated.seriesRef = locator.seriesRef)
    (invalidData "schema-7 overflow blob series_ref does not match hot record")
  require (validated.chunkCount = locator.chunkCount)
    (invalidData "schema-7 overflow blob chunk count does not match hot record")

def decodeTouchedChunkOverflowBlobV1 (bytes : Bytes) (root : ChunkOverflowRootV2)
    (locator : ChunkOverflowBlobLocatorV1) : Except IoError ChunkOverflowBlobV1 := do
  let validated ← validateTouchedChunkOverflowBlobBytesV1 crc bytes root locator
  let entries ← validated.visitEntries pushOverflowEntry []
  validateTouchedBlobIdentity validated locator
  return ⟨validated.seriesRef, entries⟩

def visitTouchedChunkOverflowBlobV1 {σ : Type} (bytes : Bytes) (root : ChunkOverflowRootV2)
    (locator : ChunkOverflowBlobLocatorV1) (visit : σ → OverflowChunkEntryV1 → Except IoError σ)
    (state : σ) : Except IoError σ := do
  let validated ← validateTouchedChunkOverflowBlobBytesV1 crc bytes root locator
  let visited ← validated.visitEntries visit state
  validateTouchedBlobIdentity validated locator
  return visited

def visitPhysicalChunkOverflowBlobV1 {σ : Type} (bytes : Bytes) (root : ChunkOverflowRootV2)
    (blobOffset : UInt64)
    (visit : TouchedOverflowBlobFactsV1 → σ → OverflowChunkEntryV1 → Except IoError σ)
    (state : σ) : Except IoError (TouchedOverflowBlobFactsV1 × σ) := do
  require (chunkOverflowBlobsOffset ≤ blobOffset)
    (invalidData "schema-7 overflow blob starts before the blob region")
  let blobEnd := blobOffset.toNat + bytes.length
  require (blobEnd < 2 ^ 64) (invalidData "schema-7 overflow blob range overflows")
  require (blobEnd ≤ root.fileLen.toNat)
    (invalidData "schema-7 overflow blob exceeds the root blob region")
  let validated ← validateChunkOverflowBlobBytesV1 crc bytes root.seriesCount
  let facts : TouchedOverflowBlobFactsV1 := ⟨validated.seriesRef, validated.chunkCount⟩
  let visited ← validated.visitEntries (visit facts) state
  return (facts, visited)

end

end Chronoxide
