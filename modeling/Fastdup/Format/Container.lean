import Fastdup.Format.Manifest
import Fastdup.Library.Blocks

/-!
# Containers of adaptive Records

A Container holds Encoding Records, a Recovery Index with one entry for each Chunk and two
envelopes. A Compression Region becomes one Zstd Record when that saves enough against one RAW
Record for each of its Chunks. The model keeps the geometry that the writer computes and checks:
Record lengths, offsets, the intrinsic summary and the Chunk order. The image bytes and their
checksums, worker scheduling and metrics are left out.

The compressors are parameters. Lengths are far below the word size, so that sums are plain.
-/

namespace Fastdup.Format.Container

open Library Checked

def HEADER_BYTES : ℕ := 4096
def FOOTER_BYTES : ℕ := 4096
def RECORD_HEADER_BYTES : ℕ := 128
def CHUNK_TABLE_ENTRY_BYTES : ℕ := 64
def RAW_PAYLOAD_OFFSET : ℕ := RECORD_HEADER_BYTES + CHUNK_TABLE_ENTRY_BYTES
def RECORD_ALIGNMENT : ℕ := 64
def INDEX_HEADER_BYTES : ℕ := 64
def INDEX_ENTRY_BYTES : ℕ := 128
def MIN_RAW_RECORD_BYTES : ℕ := 256
def MAX_CONTAINER_BYTES : ℕ := 64 * 1024 * 1024
def MAX_RECORD_BYTES : ℕ := 1024 * 1024
def MAX_DECODED_RECORD_BYTES : ℕ := 512 * 1024
def INCOMPRESSIBILITY_GATE_MIN_BYTES_V1 : ℕ := 128 * 1024
def ZSTD_MINIMUM_SAVINGS_BYTES_V1 : ℕ := 4 * 1024
def ZSTD_MINIMUM_SAVINGS_PERCENT_V1 : ℕ := 3
def ZSTD_RESCUE_LEVEL_V1 : ℕ := 1
def ZSTD_LEVEL_V1 : ℕ := 3

/-- Why a Container cannot be laid out. -/
inductive FormatError where
  | invalidContainerLayout
  | invalidContainerSummary
  | invalidRecordLength (length : ℕ)
  | invalidRawRecord
  | invalidZstdRecord
  | invalidZstdPrefixRecord
  | invalidSparseXorRecord
  | zeroContainerGeneration
  | arithmeticOverflow
  | assertion
  deriving DecidableEq, Repr

/-- A Chunk with the identity computed from its bytes. -/
structure PrehashedChunk where
  chunkId : ChunkId
  bytes : Bytes
  deriving DecidableEq

namespace PrehashedChunk

def length (chunk : PrehashedChunk) : ℕ :=
  chunk.bytes.length

/-- What `validate_logical_chunk_length` accepts. -/
def Valid (chunk : PrehashedChunk) : Prop :=
  0 < chunk.length ∧ chunk.length ≤ MAX_LOGICAL_CHUNK_BYTES

end PrehashedChunk

/-- The next multiple of the alignment. -/
def alignUp (value alignment : ℕ) : ℕ :=
  (value + (alignment - 1)) / alignment * alignment

/-- Chunks are nonempty and bounded. -/
def validateLogicalChunkLength (length : ℕ) : Except FormatError Unit :=
  require (length = 0 ∨ MAX_LOGICAL_CHUNK_BYTES < length) .invalidRawRecord

/-- The aligned length of a Record whose payload ends at the given offset. -/
def recordLengthOf (payloadEnd : ℕ) : Except FormatError ℕ := do
  let length := alignUp payloadEnd RECORD_ALIGNMENT
  require (MAX_RECORD_BYTES < length) (.invalidRecordLength length)
  pure length

def rawRecordLength (payloadLength : ℕ) : Except FormatError ℕ := do
  validateLogicalChunkLength payloadLength
  recordLengthOf (RAW_PAYLOAD_OFFSET + payloadLength)

def zstdRecordLength (chunkCount payloadLength : ℕ) : Except FormatError ℕ :=
  recordLengthOf (RECORD_HEADER_BYTES + chunkCount * CHUNK_TABLE_ENTRY_BYTES + payloadLength)

def zstdPrefixRecordLength (logicalLength frameLength : ℕ) : Except FormatError ℕ := do
  validateLogicalChunkLength logicalLength
  require (frameLength = 0) .invalidZstdPrefixRecord
  recordLengthOf (RAW_PAYLOAD_OFFSET + frameLength)

def sparseXorRecordLength (logicalLength runCount xorLength : ℕ) : Except FormatError ℕ := do
  validateLogicalChunkLength logicalLength
  require (runCount = 0 ∨ xorLength = 0) .invalidSparseXorRecord
  recordLengthOf (RAW_PAYLOAD_OFFSET + (runCount * 8 + xorLength))

/-- The decoded bytes of a region, which one record must be able to hold. -/
def prehashedDecodedLength (chunks : List PrehashedChunk) : Except FormatError ℕ := do
  let length ← chunks.foldlM (fun total chunk => do
    validateLogicalChunkLength chunk.length
    pure (total + chunk.length)) 0
  require (MAX_DECODED_RECORD_BYTES < length) .invalidZstdRecord
  pure length

/-- The codec tag of a record header. -/
inductive CodecId where
  | raw
  | zstd
  | zstdPrefix
  | zstdPrefixFlex
  | sparseXor
  deriving DecidableEq, Repr

/-- A Record that is encoded against a Base Chunk. -/
inductive PreparedDependentRecord where
  | zstdPrefix (flex : Bool) (targetId dependencyId : ChunkId) (logicalLength : ℕ) (frame : Bytes)
  | sparseXor (targetId dependencyId : ChunkId) (logicalLength runCount : ℕ) (xorBytes : Bytes)
  deriving DecidableEq

namespace PreparedDependentRecord

def targetId : PreparedDependentRecord → ChunkId
  | .zstdPrefix _ target _ _ _ => target
  | .sparseXor target _ _ _ _ => target

def dependencyId : PreparedDependentRecord → ChunkId
  | .zstdPrefix _ _ dependency _ _ => dependency
  | .sparseXor _ dependency _ _ _ => dependency

def logicalLength : PreparedDependentRecord → ℕ
  | .zstdPrefix _ _ _ length _ => length
  | .sparseXor _ _ length _ _ => length

def codecId : PreparedDependentRecord → CodecId
  | .zstdPrefix flex _ _ _ _ => if flex then .zstdPrefixFlex else .zstdPrefix
  | .sparseXor .. => .sparseXor

/-- The payload of the Record, with the run table. -/
def payloadLength : PreparedDependentRecord → ℕ
  | .zstdPrefix _ _ _ _ frame => frame.length
  | .sparseXor _ _ _ runCount xorBytes => runCount * 8 + xorBytes.length

/-- The bytes charged by the cost policy. -/
def encodedPayloadBytes : PreparedDependentRecord → ℕ
  | .zstdPrefix _ _ _ _ frame => 32 + frame.length
  | .sparseXor _ _ _ runCount xorBytes => 32 + 4 + runCount * 8 + xorBytes.length

def recordLength : PreparedDependentRecord → Except FormatError ℕ
  | .zstdPrefix _ _ _ logicalLength frame => zstdPrefixRecordLength logicalLength frame.length
  | .sparseXor _ _ logicalLength runCount xorBytes =>
    sparseXorRecordLength logicalLength runCount xorBytes.length

end PreparedDependentRecord

/-- A single-Chunk Record that is already encoded: RAW, or Zstd with a payload. -/
structure PreparedIndependentRecord where
  chunk : PrehashedChunk
  payload : Option Bytes
  recordLength : ℕ
  deriving DecidableEq

/-- A record before it is given its place in the Container. -/
inductive AdaptiveRecordPlan where
  | raw (chunk : PrehashedChunk)
  | zstd (chunks : List PrehashedChunk) (decodedLength : ℕ) (payload : Bytes)
  | preparedIndependent (record : PreparedIndependentRecord)
  | dependent (record : PreparedDependentRecord)
  deriving DecidableEq

namespace AdaptiveRecordPlan

def recordLength : AdaptiveRecordPlan → Except FormatError ℕ
  | .raw chunk => rawRecordLength chunk.length
  | .zstd chunks _ payload => zstdRecordLength chunks.length payload.length
  | .preparedIndependent record => pure record.recordLength
  | .dependent record => record.recordLength

/-- The identity and the logical length of each Chunk of the Record. -/
def chunkTable : AdaptiveRecordPlan → List (ChunkId × ℕ)
  | .raw chunk => [(chunk.chunkId, chunk.length)]
  | .zstd chunks _ _ => chunks.map fun chunk => (chunk.chunkId, chunk.length)
  | .preparedIndependent record => [(record.chunk.chunkId, record.chunk.length)]
  | .dependent record => [(record.targetId, record.logicalLength)]

def chunkIds (record : AdaptiveRecordPlan) : List ChunkId :=
  record.chunkTable.map Prod.fst

def codecId : AdaptiveRecordPlan → CodecId
  | .raw _ => .raw
  | .zstd .. => .zstd
  | .preparedIndependent record => if record.payload.isSome then .zstd else .raw
  | .dependent record => record.codecId

def decodedLength : AdaptiveRecordPlan → ℕ
  | .raw chunk => chunk.length
  | .zstd _ decodedLength _ => decodedLength
  | .preparedIndependent record => record.chunk.length
  | .dependent record => record.logicalLength

def payloadLength : AdaptiveRecordPlan → ℕ
  | .raw chunk => chunk.length
  | .zstd _ _ payload => payload.length
  | .preparedIndependent record => record.payload.elim record.chunk.length List.length
  | .dependent record => record.payloadLength

def dependencyId : AdaptiveRecordPlan → Option ChunkId
  | .dependent record => some record.dependencyId
  | _ => none

end AdaptiveRecordPlan

/-- The compressors: whether LZ4 fits a buffer, and what Zstd of a level puts into a buffer of the
given size, from contiguous or from fragmented input. -/
structure Codec where
  lz4Fits : Bytes → ℕ → Bool
  zstd : ℕ → Bytes → ℕ → Option Bytes
  zstdFragmented : ℕ → List Bytes → ℕ → Option Bytes

/-- When the probe for incompressible payload is consulted. -/
inductive IncompressibilityGatePolicy where
  | off
  | lz4Only
  | v1
  deriving DecidableEq, Repr

section Encoding

variable (codec : Codec)

/-- The trials write into a fixed scratch buffer. -/
def scratchTrial (payloadCap : ℕ) (fits : Bool) : Except FormatError Bool :=
  if payloadCap = 0 then .ok false
  else if MAX_DECODED_RECORD_BYTES < payloadCap then .error .arithmeticOverflow
  else .ok fits

def lz4Fits (decoded : Bytes) (payloadCap : ℕ) : Except FormatError Bool :=
  scratchTrial payloadCap (codec.lz4Fits decoded payloadCap)

def zstdFits (decoded : Bytes) (level payloadCap : ℕ) : Except FormatError Bool :=
  scratchTrial payloadCap (codec.zstd level decoded payloadCap).isSome

def zstdOwnedPayload (decoded : Bytes) (level payloadCap : ℕ) : Option Bytes :=
  if payloadCap = 0 then none
  else (codec.zstd level decoded payloadCap).filter (fun payload => payload.length ≤ payloadCap)

def zstdFragmentedOwnedPayload (chunks : List PrehashedChunk) (level payloadCap : ℕ) :
    Option Bytes :=
  if payloadCap = 0 then none
  else codec.zstdFragmented level (chunks.map PrehashedChunk.bytes) payloadCap

/-- What compression must save to be worth a record. -/
def requiredSaving (rawBytes : ℕ) : ℕ :=
  max ZSTD_MINIMUM_SAVINGS_BYTES_V1 ((rawBytes * ZSTD_MINIMUM_SAVINGS_PERCENT_V1 + 99) / 100)

/-- The largest payload that still saves enough. -/
def usefulZstdPayloadCap (rawBytes chunks : ℕ) : ℕ :=
  let completeCap := rawBytes - requiredSaving rawBytes
  completeCap - completeCap % RECORD_ALIGNMENT -
    (RECORD_HEADER_BYTES + chunks * CHUNK_TABLE_ENTRY_BYTES)

/-- The rule by which the finished record is kept. -/
def zstdRecordWins (rawBytes zstdBytes : ℕ) : Bool :=
  decide (zstdBytes ≤ rawBytes ∧ ZSTD_MINIMUM_SAVINGS_BYTES_V1 ≤ rawBytes - zstdBytes ∧
    rawBytes * ZSTD_MINIMUM_SAVINGS_PERCENT_V1 ≤ (rawBytes - zstdBytes) * 100)

/-- The cheap trials before the target level is spent on a region. -/
def shouldTryTarget (gate : IncompressibilityGatePolicy) (decoded : Option Bytes)
    (decodedLength payloadCap : ℕ) : Except FormatError Bool :=
  if gate = .off then .ok true
  else if decodedLength < INCOMPRESSIBILITY_GATE_MIN_BYTES_V1 then .ok true
  else
    match decoded with
    | none => .error .invalidZstdRecord
    | some bytes => do
        let allowed ← lz4Fits codec bytes payloadCap
        if allowed then .ok true
        else if gate = .lz4Only then .ok false
        else zstdFits codec bytes ZSTD_RESCUE_LEVEL_V1 payloadCap

def targetPayload (region : List PrehashedChunk) (decoded : Option Bytes) (payloadCap : ℕ) :
    Option Bytes :=
  match decoded with
  | some bytes => zstdOwnedPayload codec bytes ZSTD_LEVEL_V1 payloadCap
  | none => zstdFragmentedOwnedPayload codec region ZSTD_LEVEL_V1 payloadCap

/-- One ZSTD record, or a raw record for each Chunk. -/
def regionRecords (region : List PrehashedChunk) (decodedLength rawBytes : ℕ) :
    Option Bytes → Except FormatError (List AdaptiveRecordPlan)
  | none => pure (region.map .raw)
  | some payload => do
      let recordLength ← zstdRecordLength region.length payload.length
      require (zstdRecordWins rawBytes recordLength = false) .assertion
      pure [.zstd region decodedLength payload]

/-- Tries to compress a region and falls back to raw records. -/
def encodeAdaptiveRegionFromInput (region : List PrehashedChunk) (decoded : Option Bytes)
    (decodedLength : ℕ) (gate : IncompressibilityGatePolicy) :
    Except FormatError (List AdaptiveRecordPlan) := do
  let rawBytes ← region.foldlM (fun total chunk => do
    let length ← rawRecordLength chunk.length
    pure (total + length)) 0
  let payloadCap := usefulZstdPayloadCap rawBytes region.length
  let tryTarget ← shouldTryTarget codec gate decoded decodedLength payloadCap
  regionRecords region decodedLength rawBytes
    (if tryTarget then targetPayload codec region decoded payloadCap else none)

/-- With the gate off a region is compressed from its fragments, otherwise it is joined first. -/
def decodedInput (gate : IncompressibilityGatePolicy) (region : List PrehashedChunk) :
    Option Bytes :=
  if gate = .off then none else some (region.flatMap PrehashedChunk.bytes)

/-- Encodes a nonempty region that one record can hold. -/
def encodeAdaptiveRegion (region : List PrehashedChunk) (gate : IncompressibilityGatePolicy) :
    Except FormatError (List AdaptiveRecordPlan) := do
  require (region = []) .invalidZstdRecord
  let decodedLength ← prehashedDecodedLength region
  encodeAdaptiveRegionFromInput codec region (decodedInput gate region) decodedLength gate

def preparedRecord : List AdaptiveRecordPlan → Except FormatError PreparedIndependentRecord
  | [.raw chunk] => do
      let length ← rawRecordLength chunk.length
      pure { chunk, payload := none, recordLength := length }
  | [.zstd [chunk] _ payload] => do
      let length ← zstdRecordLength 1 payload.length
      pure { chunk, payload := some payload, recordLength := length }
  | _ => .error .invalidContainerLayout

def preparePrehashedIndependentRecord (chunk : PrehashedChunk) :
    Except FormatError PreparedIndependentRecord := do
  let records ← encodeAdaptiveRegion codec [chunk] .off
  preparedRecord records

end Encoding

/-- Puts the Records into Chunk order, and checks that they cover it exactly. -/
def orderAdaptiveRecords (records : List AdaptiveRecordPlan) (order : List ChunkId) :
    Except FormatError (List AdaptiveRecordPlan) := do
  require (¬ order.Nodup) .invalidContainerLayout
  let sorted := Blocks.sortBlocks AdaptiveRecordPlan.chunkIds order records
  require (sorted.flatMap AdaptiveRecordPlan.chunkIds ≠ order) .invalidContainerLayout
  pure sorted

/-- Where the parts of a Container begin and end. -/
structure ContainerLayout where
  recordCount : ℕ
  chunkEntryCount : ℕ
  indexOffset : ℕ
  indexLength : ℕ
  footerOffset : ℕ
  fileLength : ℕ
  deriving DecidableEq, Repr

namespace ContainerLayout

/-- What `validate_layout` accepts. -/
def Valid (layout : ContainerLayout) : Prop :=
  layout.recordCount ≠ 0 ∧ layout.chunkEntryCount ≠ 0 ∧
    layout.recordCount ≤ layout.chunkEntryCount ∧ HEADER_BYTES ≤ layout.indexOffset ∧
    RECORD_ALIGNMENT ∣ layout.indexOffset ∧ FOOTER_BYTES ∣ layout.footerOffset ∧
    layout.fileLength ≤ MAX_CONTAINER_BYTES ∧ FOOTER_BYTES ∣ layout.fileLength ∧
    HEADER_BYTES + layout.recordCount * MIN_RAW_RECORD_BYTES ≤ layout.indexOffset ∧
    layout.indexLength = INDEX_HEADER_BYTES + layout.chunkEntryCount * INDEX_ENTRY_BYTES ∧
    layout.footerOffset = alignUp (layout.indexOffset + layout.indexLength) FOOTER_BYTES ∧
    layout.fileLength = layout.footerOffset + FOOTER_BYTES

instance (layout : ContainerLayout) : Decidable layout.Valid :=
  inferInstanceAs (Decidable (_ ∧ _))

end ContainerLayout

/-- The layout of Records of the given total length and Chunk count. -/
def layoutOf (recordCount chunkEntryCount recordBytes : ℕ) : ContainerLayout :=
  let indexOffset := HEADER_BYTES + recordBytes
  let indexLength := INDEX_HEADER_BYTES + chunkEntryCount * INDEX_ENTRY_BYTES
  let footerOffset := alignUp (indexOffset + indexLength) FOOTER_BYTES
  { recordCount, chunkEntryCount, indexOffset, indexLength, footerOffset,
    fileLength := footerOffset + FOOTER_BYTES }

/-- What one codec contributes to the summary. -/
structure CodecTotals where
  recordCount : ℕ
  encodedBytes : ℕ
  decodedBytes : ℕ
  deriving DecidableEq, Repr

/-- The summary a Container carries of its own records. -/
structure ContainerIntrinsicSummary where
  raw : CodecTotals
  zstd : CodecTotals
  zstdPrefix : CodecTotals
  sparseXor : CodecTotals
  independentChunkCount : ℕ
  dependentChunkCount : ℕ
  singleChunkRecordCount : ℕ
  multiChunkRecordCount : ℕ
  outgoingDependencyEdges : ℕ
  outgoingBaseIds : List ChunkId
  deriving DecidableEq

/-- What the summary observes of one Record. -/
structure RecordGeometry where
  codecId : CodecId
  encodedBytes : ℕ
  decodedBytes : ℕ
  chunkCount : ℕ
  dependencyId : Option ChunkId
  deriving DecidableEq

namespace CodecTotals

def zero : CodecTotals where
  recordCount := 0
  encodedBytes := 0
  decodedBytes := 0

def add (totals : CodecTotals) (geometry : RecordGeometry) : CodecTotals where
  recordCount := totals.recordCount + 1
  encodedBytes := totals.encodedBytes + geometry.encodedBytes
  decodedBytes := totals.decodedBytes + geometry.decodedBytes

/-- Bytes are recorded exactly when there are Records, and encoded bytes are aligned. -/
def Consistent (totals : CodecTotals) : Prop :=
  (totals.encodedBytes = 0 ↔ totals.recordCount = 0) ∧
    (totals.decodedBytes = 0 ↔ totals.recordCount = 0) ∧ RECORD_ALIGNMENT ∣ totals.encodedBytes

instance (totals : CodecTotals) : Decidable totals.Consistent :=
  inferInstanceAs (Decidable (_ ∧ _))

end CodecTotals

namespace ContainerIntrinsicSummary

def empty : ContainerIntrinsicSummary where
  raw := CodecTotals.zero
  zstd := CodecTotals.zero
  zstdPrefix := CodecTotals.zero
  sparseXor := CodecTotals.zero
  independentChunkCount := 0
  dependentChunkCount := 0
  singleChunkRecordCount := 0
  multiChunkRecordCount := 0
  outgoingDependencyEdges := 0
  outgoingBaseIds := []

/-- Counts the Record by its number of Chunks. -/
def counted (summary : ContainerIntrinsicSummary) (geometry : RecordGeometry) :
    ContainerIntrinsicSummary :=
  if geometry.chunkCount = 1 then
    { summary with singleChunkRecordCount := summary.singleChunkRecordCount + 1 }
  else { summary with multiChunkRecordCount := summary.multiChunkRecordCount + 1 }

def withIndependent (summary : ContainerIntrinsicSummary) (geometry : RecordGeometry) :
    ContainerIntrinsicSummary :=
  { summary with
    independentChunkCount := summary.independentChunkCount + geometry.chunkCount }

def withDependent (summary : ContainerIntrinsicSummary) (geometry : RecordGeometry)
    (base : ChunkId) : ContainerIntrinsicSummary :=
  { summary with
    dependentChunkCount := summary.dependentChunkCount + geometry.chunkCount
    outgoingDependencyEdges := summary.outgoingDependencyEdges + geometry.chunkCount
    outgoingBaseIds := summary.outgoingBaseIds ++ [base] }

/-- Adds a record to the totals of its codec. -/
def observeCodec (summary : ContainerIntrinsicSummary) (geometry : RecordGeometry) :
    Except FormatError ContainerIntrinsicSummary :=
  match geometry.codecId, geometry.dependencyId with
  | .raw, none => .ok { summary.withIndependent geometry with raw := summary.raw.add geometry }
  | .zstd, none => .ok { summary.withIndependent geometry with zstd := summary.zstd.add geometry }
  | .zstdPrefix, some base | .zstdPrefixFlex, some base =>
    if base ≠ Bytes.Fixed.zero 32 ∧ geometry.chunkCount = 1 then
      .ok { summary.withDependent geometry base with
            zstdPrefix := summary.zstdPrefix.add geometry }
    else .error .invalidContainerSummary
  | .sparseXor, some base =>
    if base ≠ Bytes.Fixed.zero 32 ∧ geometry.chunkCount = 1 then
      .ok { summary.withDependent geometry base with
            sparseXor := summary.sparseXor.add geometry }
    else .error .invalidContainerSummary
  | _, _ => .error .invalidContainerSummary

/-- Empty records are refused before they are counted. -/
def observe (summary : ContainerIntrinsicSummary) (geometry : RecordGeometry) :
    Except FormatError ContainerIntrinsicSummary := do
  require (geometry.decodedBytes = 0 ∨ geometry.chunkCount = 0) .invalidContainerSummary
  (summary.counted geometry).observeCodec geometry

/-- Bases are counted once. -/
def uniqueOutgoingBaseIds (summary : ContainerIntrinsicSummary) : ℕ :=
  summary.outgoingBaseIds.dedup.length

/-- What `ContainerIntrinsicSummary::validate` accepts for a layout. -/
def Valid (summary : ContainerIntrinsicSummary) (layout : ContainerLayout) : Prop :=
  summary.raw.recordCount + summary.zstd.recordCount + summary.zstdPrefix.recordCount +
      summary.sparseXor.recordCount = layout.recordCount ∧
    summary.singleChunkRecordCount + summary.multiChunkRecordCount = layout.recordCount ∧
    summary.independentChunkCount + summary.dependentChunkCount = layout.chunkEntryCount ∧
    HEADER_BYTES + (summary.raw.encodedBytes + summary.zstd.encodedBytes +
      summary.zstdPrefix.encodedBytes + summary.sparseXor.encodedBytes) = layout.indexOffset ∧
    summary.dependentChunkCount = summary.outgoingDependencyEdges ∧
    summary.zstdPrefix.recordCount + summary.sparseXor.recordCount =
      summary.outgoingDependencyEdges ∧
    summary.uniqueOutgoingBaseIds ≤ summary.outgoingDependencyEdges ∧
    (summary.uniqueOutgoingBaseIds = 0 ↔ summary.outgoingDependencyEdges = 0) ∧
    summary.raw.recordCount ≤ summary.independentChunkCount ∧
    summary.raw.Consistent ∧ summary.zstd.Consistent ∧ summary.zstdPrefix.Consistent ∧
    summary.sparseXor.Consistent

instance (summary : ContainerIntrinsicSummary) (layout : ContainerLayout) :
    Decidable (summary.Valid layout) :=
  inferInstanceAs (Decidable (_ ∧ _))

end ContainerIntrinsicSummary

/-- The figures of a record that the summary is made of. -/
def recordGeometry (record : AdaptiveRecordPlan) : Except FormatError RecordGeometry := do
  let encodedBytes ← record.recordLength
  pure { codecId := record.codecId, encodedBytes, decodedBytes := record.decodedLength,
         chunkCount := record.chunkTable.length, dependencyId := record.dependencyId }

/-- The counters of the pass that sizes a Container. -/
structure LayoutCount where
  summary : ContainerIntrinsicSummary
  chunkEntryCount : ℕ
  recordBytes : ℕ

def countRecord (count : LayoutCount) (record : AdaptiveRecordPlan) :
    Except FormatError LayoutCount := do
  let geometry ← recordGeometry record
  let summary ← count.summary.observe geometry
  pure { summary, chunkEntryCount := count.chunkEntryCount + geometry.chunkCount,
         recordBytes := count.recordBytes + geometry.encodedBytes }

/-- Sizes the Container and refuses one that is too long. -/
def adaptiveContainerLayout (records : List AdaptiveRecordPlan) :
    Except FormatError (ContainerLayout × ContainerIntrinsicSummary) := do
  require (records = []) .invalidContainerLayout
  let count ← records.foldlM countRecord
    { summary := ContainerIntrinsicSummary.empty, chunkEntryCount := 0, recordBytes := 0 }
  let layout := layoutOf records.length count.chunkEntryCount count.recordBytes
  require (¬ layout.Valid) .invalidContainerLayout
  require (¬ count.summary.Valid layout) .invalidContainerSummary
  pure (layout, count.summary)

/-- Where a Chunk was written, checked against the encoded record. -/
structure VerifiedChunkLocation where
  chunkId : ChunkId
  logicalLength : ℕ
  containerGeneration : ℕ
  recordOffset : ℕ
  recordLength : ℕ
  chunkOrdinal : ℕ
  decodedOffset : ℕ
  codecId : CodecId
  dependencyId : Option ChunkId
  recordDecodedLength : ℕ
  recordPayloadLength : ℕ
  deriving DecidableEq

namespace VerifiedChunkLocation

/-- Whether the Record of a Location can stand in a Container. -/
def InContainer (location : VerifiedChunkLocation) : Prop :=
  HEADER_BYTES ≤ location.recordOffset ∧ RECORD_ALIGNMENT ∣ location.recordOffset ∧
    MIN_RAW_RECORD_BYTES ≤ location.recordLength ∧ RECORD_ALIGNMENT ∣ location.recordLength ∧
    location.recordLength ≤ MAX_RECORD_BYTES ∧
    location.recordOffset + location.recordLength ≤ MAX_CONTAINER_BYTES

def FitsCodec (location : VerifiedChunkLocation) : Prop :=
  match location.codecId with
  | .raw =>
    location.dependencyId = none ∧ location.chunkOrdinal = 0 ∧ location.decodedOffset = 0 ∧
      location.recordDecodedLength = location.logicalLength ∧
      location.recordPayloadLength = location.logicalLength ∧
      location.recordLength = alignUp (RAW_PAYLOAD_OFFSET + location.logicalLength)
        RECORD_ALIGNMENT
  | .zstd =>
    location.dependencyId = none ∧ 0 < location.recordDecodedLength ∧
      location.recordDecodedLength ≤ MAX_DECODED_RECORD_BYTES ∧
      0 < location.recordPayloadLength ∧
      location.recordPayloadLength < location.recordLength ∧
      location.decodedOffset + location.logicalLength ≤ location.recordDecodedLength
  | .zstdPrefix | .zstdPrefixFlex | .sparseXor =>
    location.dependencyId ≠ none ∧ location.dependencyId ≠ some (Bytes.Fixed.zero 32) ∧
      location.chunkOrdinal = 0 ∧ location.decodedOffset = 0 ∧
      location.recordDecodedLength = location.logicalLength ∧
      0 < location.recordPayloadLength ∧
      location.recordPayloadLength < location.recordLength

/-- What `ExactIndexEntry::from_verified` accepts. -/
def Valid (location : VerifiedChunkLocation) : Prop :=
  0 < location.logicalLength ∧ location.logicalLength ≤ MAX_LOGICAL_CHUNK_BYTES ∧
    location.InContainer ∧ location.containerGeneration ≠ 0 ∧ location.FitsCodec

instance (location : VerifiedChunkLocation) : Decidable location.InContainer :=
  inferInstanceAs (Decidable (_ ∧ _))

instance (location : VerifiedChunkLocation) : Decidable location.FitsCodec := by
  unfold FitsCodec
  cases location.codecId <;> exact inferInstanceAs (Decidable (_ ∧ _))

instance (location : VerifiedChunkLocation) : Decidable location.Valid :=
  inferInstanceAs (Decidable (_ ∧ _))

end VerifiedChunkLocation

/-- The Locations of the Chunks of one Record, from a Chunk on. -/
def chunkLocations (generation recordOffset recordLength : ℕ) (record : AdaptiveRecordPlan) :
    ℕ → ℕ → List (ChunkId × ℕ) → List VerifiedChunkLocation
  | _, _, [] => []
  | ordinal, decodedOffset, (chunkId, logicalLength) :: rest =>
    { chunkId, logicalLength, containerGeneration := generation, recordOffset, recordLength,
      chunkOrdinal := ordinal, decodedOffset, codecId := record.codecId,
      dependencyId := record.dependencyId, recordDecodedLength := record.decodedLength,
      recordPayloadLength := record.payloadLength } ::
    chunkLocations generation recordOffset recordLength record (ordinal + 1)
      (decodedOffset + logicalLength) rest

/-- The Locations of Records that start at an offset. -/
def recordLocations (generation : ℕ) : ℕ → List AdaptiveRecordPlan →
    Except FormatError (List VerifiedChunkLocation)
  | _, [] => pure []
  | offset, record :: rest => do
      let length ← record.recordLength
      let others ← recordLocations generation (offset + length) rest
      pure (chunkLocations generation offset length record 0 0 record.chunkTable ++ others)

/-- A Container ready to be written. -/
structure AdaptiveContainerEncoding where
  generation : ℕ
  layout : ContainerLayout
  summary : ContainerIntrinsicSummary
  records : List AdaptiveRecordPlan
  locations : List VerifiedChunkLocation
  deriving DecidableEq

/-- Lays the records out one after the other. -/
def encodeContainerFromAdaptivePlans (generation : ℕ) (records : List AdaptiveRecordPlan) :
    Except FormatError AdaptiveContainerEncoding := do
  let (layout, summary) ← adaptiveContainerLayout records
  require (generation = 0) .zeroContainerGeneration
  let locations ← recordLocations generation HEADER_BYTES records
  pure { generation, layout, summary, records, locations }

/-- Encodes the regions and seals them with the prepared Records in one Container. -/
def encodeMixedPrehashedReduction (codec : Codec) (gate : IncompressibilityGatePolicy)
    (generation : ℕ) (regions : List (List PrehashedChunk))
    (independent : List PreparedIndependentRecord) (dependents : List PreparedDependentRecord)
    (order : List ChunkId) : Except FormatError AdaptiveContainerEncoding := do
  require (regions = [] ∧ independent = [] ∧ dependents = []) .invalidContainerLayout
  let encoded ← regions.mapM fun region => encodeAdaptiveRegion codec region gate
  let records := encoded.flatten ++ independent.map .preparedIndependent ++
    dependents.map .dependent
  let ordered ← orderAdaptiveRecords records order
  encodeContainerFromAdaptivePlans generation ordered

end Fastdup.Format.Container
