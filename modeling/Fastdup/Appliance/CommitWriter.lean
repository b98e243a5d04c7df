import Fastdup.Format.Container

/-!
# The commit writer

A checkpoint buffers its new Chunks and writes them in batches of bounded payload. A batch ends
when the next Chunk would exceed the payload target, when an inode has another placement or
reduction mode, and at the end. It is cut into Compression Regions of bounded decoded size; Chunks
that the similarity planner reduced on their own are kept apart.

Whether the Exact Index already locates a Chunk, and what the planner finds, are inputs. Metrics,
the residue bookkeeping of the planner and the publication of the sealed image are left out.
-/

namespace Fastdup.Appliance

open Library Checked Format Format.Container

def CONTAINER_PAYLOAD_TARGET_BYTES : ℕ := 32 * 1024 * 1024
def COMPRESSION_REGION_TARGET_BYTES : ℕ := 512 * 1024

/-- Which of the two Container streams a Chunk is written to. -/
inductive ContainerPlacement where
  | data
  | smallFile
  deriving DecidableEq, Repr

/-- What similarity planning decides for a Chunk. The Record of an independent Chunk is prepared
with the batch. -/
inductive PersistentChunkPlan where
  | noCandidates
  | independent
  | dependent (record : PreparedDependentRecord)
  deriving DecidableEq

/-- The plans of a batch, or `none` where reduction is not available. -/
abbrev SimilarityPlanner := List PrehashedChunk → Option (List PersistentChunkPlan)

/-- Why a commit writer refuses a Chunk or a batch. -/
inductive CommitWriterError where
  | chunkLengthConflict (chunkId : ChunkId) (firstLength secondLength : ℕ)
  | format (error : FormatError)
  deriving DecidableEq

/-- The buffered Chunks of one Container. -/
structure Batch where
  chunks : List PrehashedChunk
  advanced : Bool
  deriving DecidableEq

def Batch.chunkIds (batch : Batch) : List ChunkId :=
  batch.chunks.map PrehashedChunk.chunkId

/-- The batch while it is cut into ZSTD regions and single records. -/
structure CutBatch where
  regions : List (List PrehashedChunk)
  independent : List PrehashedChunk
  dependents : List PreparedDependentRecord
  /-- The decoded bytes of the open region, or 0 when the next Chunk starts one. -/
  regionBytes : ℕ

/-- Adds a Chunk to the open region. -/
def pushLast (regions : List (List PrehashedChunk)) (chunk : PrehashedChunk) :
    Except FormatError (List (List PrehashedChunk)) :=
  match regions.getLast? with
  | none => .error .assertion
  | some last => .ok (regions.dropLast ++ [last ++ [chunk]])

/-- The region cursor after the check that the Chunk still fits. -/
def regionCursor (cut : CutBatch) (chunk : PrehashedChunk) : ℕ :=
  if cut.regions.getLast?.any (· ≠ []) ∧
      COMPRESSION_REGION_TARGET_BYTES < cut.regionBytes + chunk.length then 0
  else cut.regionBytes

/-- A Chunk joins the open region or starts the next one. -/
def placeOrdinary (cut : CutBatch) (chunk : PrehashedChunk) : Except FormatError CutBatch := do
  let cursor := regionCursor cut chunk
  let regions ← pushLast (if cursor = 0 then cut.regions ++ [[]] else cut.regions) chunk
  require (COMPRESSION_REGION_TARGET_BYTES < cursor + chunk.length) .assertion
  pure { cut with regions, regionBytes := cursor + chunk.length }

/-- The plan says whether a Chunk is compressed with its neighbours, alone or against a base. -/
def placeChunk (cut : CutBatch) (planned : PrehashedChunk × PersistentChunkPlan) :
    Except FormatError CutBatch :=
  match planned.2 with
  | .noCandidates => placeOrdinary cut planned.1
  | .independent =>
    .ok { cut with independent := cut.independent ++ [planned.1], regionBytes := 0 }
  | .dependent record =>
    .ok { cut with dependents := cut.dependents ++ [record], regionBytes := 0 }

/-- Without the advanced reduction every Chunk is ordinary. -/
def batchPlans (planner : SimilarityPlanner) (batch : Batch) : List PersistentChunkPlan :=
  match (if batch.advanced then planner batch.chunks else none) with
  | some plans => plans
  | none => batch.chunks.map fun _ => .noCandidates

def cutBatch (planner : SimilarityPlanner) (batch : Batch) : Except FormatError CutBatch := do
  let plans := batchPlans planner batch
  require (plans.length ≠ batch.chunks.length) .assertion
  (batch.chunks.zip plans).foldlM placeChunk
    { regions := [], independent := [], dependents := [], regionBytes := 0 }

/-- What the writer works with: the compressors and their gate, similarity planning and the
generation that the allocator gives to each Container. -/
structure CommitEnvironment where
  codec : Codec
  gate : IncompressibilityGatePolicy
  planner : SimilarityPlanner
  reserveGeneration : ℕ → ℕ
  reserved : ∀ ordinal, reserveGeneration ordinal ≠ 0

def CommitEnvironment.withCodec (environment : CommitEnvironment) (codec : Codec) :
    CommitEnvironment :=
  { environment with codec }

/-- The sealed Container of a batch. Its Locations must form Exact Index entries. -/
def encodeBatch (environment : CommitEnvironment) (ordinal : ℕ) (batch : Batch) :
    Except FormatError AdaptiveContainerEncoding := do
  let cut ← cutBatch environment.planner batch
  let independent ← cut.independent.mapM (preparePrehashedIndependentRecord environment.codec)
  let encoding ← encodeMixedPrehashedReduction environment.codec environment.gate
    (environment.reserveGeneration ordinal) cut.regions independent cut.dependents batch.chunkIds
  require (∃ location ∈ encoding.locations, ¬ location.Valid) .assertion
  pure encoding

/-- The writer of one commit: the Chunks it has seen, its open batch and what it published. -/
structure AdaptiveCommitWriter (Container : Type) where
  seen : ChunkId → Option ℕ
  chunks : List PrehashedChunk
  payloadBytes : ℕ
  placement : ContainerPlacement
  advanced : Bool
  published : List Container

/-- What the commit calls the writer with, inode by inode. -/
inductive CommitCall where
  /-- The Chunks of the drain residue of the inode are pushed first. -/
  | beginInode (placement : ContainerPlacement) (advanced : Bool)
      (residue : List (PrehashedChunk × Bool))
  /-- The flag says whether the Exact Index already locates the Chunk. -/
  | push (chunk : PrehashedChunk) (reusable : Bool)
  deriving DecidableEq

namespace AdaptiveCommitWriter

variable {Container : Type}

def new : AdaptiveCommitWriter Container where
  seen _ := none
  chunks := []
  payloadBytes := 0
  placement := .data
  advanced := false
  published := []

def batch (writer : AdaptiveCommitWriter Container) : Batch where
  chunks := writer.chunks
  advanced := writer.advanced

section Writing

variable (encode : ℕ → Batch → Except FormatError Container)

/-- Publishes the batch, if there is one. -/
def flush (writer : AdaptiveCommitWriter Container) :
    Except CommitWriterError (AdaptiveCommitWriter Container) :=
  if writer.chunks = [] then .ok writer
  else do
    let container ← (encode writer.published.length writer.batch).mapError .format
    pure { writer with
      chunks := [], payloadBytes := 0, published := writer.published ++ [container] }

/-- Flushes when the next Chunk would exceed the payload target. -/
def flushFor (writer : AdaptiveCommitWriter Container) (length : ℕ) :
    Except CommitWriterError (AdaptiveCommitWriter Container) :=
  if writer.chunks ≠ [] ∧ CONTAINER_PAYLOAD_TARGET_BYTES < writer.payloadBytes + length then
    writer.flush encode
  else .ok writer

def buffer (writer : AdaptiveCommitWriter Container) (chunk : PrehashedChunk) :
    AdaptiveCommitWriter Container :=
  { writer with
    chunks := writer.chunks ++ [chunk]
    payloadBytes := writer.payloadBytes + chunk.length }

def pushNew (writer : AdaptiveCommitWriter Container) (chunk : PrehashedChunk) :
    Except CommitWriterError (AdaptiveCommitWriter Container) := do
  let flushed ← writer.flushFor encode chunk.length
  pure (flushed.buffer chunk)

def remember (writer : AdaptiveCommitWriter Container) (chunk : PrehashedChunk) :
    AdaptiveCommitWriter Container :=
  { writer with seen := Function.update writer.seen chunk.chunkId (some chunk.length) }

def push (writer : AdaptiveCommitWriter Container) (chunk : PrehashedChunk) (reusable : Bool) :
    Except CommitWriterError (AdaptiveCommitWriter Container) :=
  match writer.seen chunk.chunkId with
  | some previous =>
    if previous ≠ chunk.length then
      .error (.chunkLengthConflict chunk.chunkId previous chunk.length)
    else .ok writer
  | none =>
    if reusable then .ok (writer.remember chunk)
    else (writer.remember chunk).pushNew encode chunk

/-- Flushes when the inode has another placement or reduction mode. -/
def changeMode (writer : AdaptiveCommitWriter Container) (placement : ContainerPlacement)
    (advanced : Bool) : Except CommitWriterError (AdaptiveCommitWriter Container) :=
  if writer.placement ≠ placement ∨ writer.advanced ≠ advanced then do
    let flushed ← writer.flush encode
    pure { flushed with placement, advanced }
  else .ok writer

def call (writer : AdaptiveCommitWriter Container) :
    CommitCall → Except CommitWriterError (AdaptiveCommitWriter Container)
  | .beginInode placement advanced residue => do
      let writer ← writer.changeMode encode placement advanced
      residue.foldlM (fun writer staged => writer.push encode staged.1 staged.2) writer
  | .push chunk reusable => writer.push encode chunk reusable

/-- All calls of a commit and the final flush; the result are the published Containers. -/
def commit (calls : List CommitCall) : Except CommitWriterError (List Container) := do
  let writer ← calls.foldlM (fun writer next => writer.call encode next) new
  let flushed ← writer.flush encode
  pure flushed.published

end Writing

end AdaptiveCommitWriter

end Fastdup.Appliance
