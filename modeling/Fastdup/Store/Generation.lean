import Fastdup.Format.NamespaceGraph
import Fastdup.Store.Error
import Fastdup.Store.GenerationLog
import Fastdup.Store.ManifestTree

/-!
# The generation repository

A generation is a Commit Record, the Namespace Root it names and the Manifest trees of the
root's files. This file models how a generation is read and checked: the graph of a root, the
rules for a transition from one root to the next, and which errors let recovery fall back to
an older generation.

The functions take a reader of Metadata Objects. It returns the decoded object of an identity
or the error with which the storage, the envelope check or the identity check refused it.
-/

namespace Fastdup.Store

open Library Checked Format

/-- Why a generation cannot be published or recovered. -/
inductive GenerationError (ObjectId : Type) where
  | io (kind : IoErrorKind)
  | metadataFormat (error : MetadataFormatError)
  | manifestTree (error : ManifestTreeError ObjectId)
  | commitFormat (error : CommitFormatError)
  | store (error : StoreError)
  | metadataTooLarge
  | walTooLarge
  | generationExhausted
  | unsupportedPolicySet (generation : ℕ) (policySet : PolicySetId)
  | unsupportedFormatEpoch (generation formatEpoch : ℕ)
  | nonMonotonicNamespaceMutation (previous proposed : ℕ)
  | nonMonotonicInodeReservation (previous proposed : ℕ)
  | nonMonotonicInodeAllocation (previous proposed : ℕ)
  | nonMonotonicInodeMutation (inode previous proposed : ℕ)
  | previousGenerationRecordMismatch
  | initialInodeReservationRequired
  | allocationExceededPreviouslyDurableReservation
      (previousReservationEnd proposedAllocationCursor : ℕ)
  | reusedInodeId (inode previousAllocationCursor : ℕ)
  | publishVerificationMismatch
  | metadataIdentityCollision (objectId : ObjectId)
  | walNeedsRepair (tail : LogTail)
  | noRecoverableGeneration
  | dataLocationsNotConnected
  | manifestCountMismatch (namespaceInodes manifests : ℕ)
  | staleSuccessorPredecessor (proofGeneration : ℕ) (installedGeneration : Option ℕ)
  | mixedSuccessorPredecessors (expectedGeneration observedGeneration : ℕ)
  | manifestLengthMismatch (inode inodeLength manifestLength : ℕ)
  | manifestChunkLengthConflict (chunkId : ChunkId) (firstLength secondLength : ℕ)
  | livenessDeltaBaseUnavailable (requested latest : Option ℕ)
  | retainedManifestNotInPredecessor (objectId : ObjectId)
  | retainedManifestRangeInvalid (root : ObjectId) (start finish logicalSize : ℕ)
  | recoveryTargetNotEmpty
  deriving DecidableEq

/-- The errors of a Manifest tree that show damage and not a failing environment. -/
def ManifestTreeError.allowsGenerationFallback {ObjectId : Type} :
    ManifestTreeError ObjectId → Bool
  | .io kind => kind == .notFound
  | .metadata _ => true
  | .inner _ => true
  | .identityMismatch _ => true
  | .invalidTree => true
  | .arithmeticOverflow => true
  | .treeTooDeep => false
  | .treeTooLarge => false
  | .invalidReplacement => false

/-- Whether the error is damage that an older generation may be free of. -/
def StoreError.allowsGenerationFallback : StoreError → Bool
  | .io kind => kind == .notFound
  | .format => true
  | .invalidPublishedName => true
  | .publishedIdentityMismatch => true
  | .missingVerifiedChunk _ _ => true
  | .exactLocationMismatch => true
  | _ => false

/-- Damage lets recovery go back; anything else ends it. -/
def GenerationError.allowsGenerationFallback {ObjectId : Type} : GenerationError ObjectId → Bool
  | .io kind => kind == .notFound
  | .store error => error.allowsGenerationFallback
  | .manifestTree error => error.allowsGenerationFallback
  | .metadataFormat _ => true
  | .metadataIdentityCollision _ => true
  | .manifestLengthMismatch _ _ _ => true
  | .manifestChunkLengthConflict _ _ _ => true
  | .livenessDeltaBaseUnavailable _ _ => true
  | _ => false

def mapLogError {ObjectId : Type} : GenerationLogError → GenerationError ObjectId
  | .io kind => .io kind
  | .segmentTooLarge => .walTooLarge
  | .needsRepair tail => .walNeedsRepair tail
  | .publishVerificationMismatch => .publishVerificationMismatch
  | .alreadyInitialized => .recoveryTargetNotEmpty
  | .brokenGenerationChain => .noRecoverableGeneration
  | .divergentSlots => .noRecoverableGeneration
  | .emptyAfterInitialization => .noRecoverableGeneration

/-- `read_metadata_bytes`, with the object its bytes decode to. -/
abbrev MetadataReader (ObjectId : Type) :=
  ObjectId → Except (ManifestTreeError ObjectId) (MetadataObject ObjectId)

variable {ObjectId : Type}

/-- An identity mismatch is reported as a collision under the name that was asked for. -/
def namespaceReadError (objectId : ObjectId) : ManifestTreeError ObjectId → GenerationError ObjectId
  | .identityMismatch _ => .metadataIdentityCollision objectId
  | error => .manifestTree error

/-- Read errors as the generation store reports them. -/
def readMetadata (read : MetadataReader ObjectId) (objectId : ObjectId) :
    Except (GenerationError ObjectId) (MetadataObject ObjectId) :=
  (read objectId).mapError (namespaceReadError objectId)

/-- `decode_manifest_node` over `read_manifest_node`. -/
def nodeReader (read : MetadataReader ObjectId) : NodeReader ObjectId :=
  fun objectId => do
    match ← read objectId with
    | .manifest node => .ok node
    | .malformed _ error => .error (.metadata error)
    | .namespaceRoot _ => .error .invalidTree
    | .inodeShard _ => .error .invalidTree
    | .entryShard _ => .error .invalidTree

def readNamespaceRoot (read : MetadataReader ObjectId) (objectId : ObjectId) :
    Except (GenerationError ObjectId) (NamespaceRoot ObjectId) := do
  let object ← readMetadata read objectId
  let descriptor ← (decodeGraphRoot object).mapError .metadataFormat
  let _ ← descriptor.shards.mapM fun reference => readMetadata read reference.objectId
  (decodeGraph descriptor fun shardId => (read shardId).toOption).mapError .metadataFormat

/-- The record repeats three figures of its root. -/
def recordMatchesNamespaceRoot (record : CommitRecord ObjectId) (root : NamespaceRoot ObjectId) :
    Bool :=
  root.namespaceMutationSequence == record.namespaceMutationCutoff &&
    root.inodeReservationEnd == record.inodeReservationEnd &&
    root.inodeAllocationCursor == record.inodeAllocationCursor

/-- An inode keeps its mutation sequence or advances it; a number that the previous root did
not show has to be new. -/
def verifyInodeTransition (previousRecord : CommitRecord ObjectId)
    (previousRoot : NamespaceRoot ObjectId) (proposed : DurableInode ObjectId) :
    Except (GenerationError ObjectId) Unit :=
  match previousRoot.inodes.find? fun inode => inode.inode == proposed.inode with
  | some previous =>
    require (proposed.mutationSequence < previous.mutationSequence)
      (.nonMonotonicInodeMutation proposed.inode previous.mutationSequence
        proposed.mutationSequence)
  | none =>
    require (proposed.inode < previousRecord.inodeAllocationCursor)
      (.reusedInodeId proposed.inode previousRecord.inodeAllocationCursor)

/-- What may change from one generation to the next. -/
def verifyGenerationTransitionPair (previousRecord : CommitRecord ObjectId)
    (previousRoot proposedRoot : NamespaceRoot ObjectId) :
    Except (GenerationError ObjectId) Unit := do
  require (proposedRoot.namespaceMutationSequence < previousRecord.namespaceMutationCutoff)
    (.nonMonotonicNamespaceMutation previousRecord.namespaceMutationCutoff
      proposedRoot.namespaceMutationSequence)
  require (proposedRoot.inodeReservationEnd < previousRecord.inodeReservationEnd)
    (.nonMonotonicInodeReservation previousRecord.inodeReservationEnd
      proposedRoot.inodeReservationEnd)
  require (proposedRoot.inodeAllocationCursor < previousRecord.inodeAllocationCursor)
    (.nonMonotonicInodeAllocation previousRecord.inodeAllocationCursor
      proposedRoot.inodeAllocationCursor)
  require (proposedRoot.inodeAllocationCursor > previousRecord.inodeReservationEnd)
    (.allocationExceededPreviouslyDurableReservation previousRecord.inodeReservationEnd
      proposedRoot.inodeAllocationCursor)
  proposedRoot.inodes.forM (verifyInodeTransition previousRecord previousRoot)

/-- A map from Chunks to their lengths. The order in which the source's map is traversed only
decides which of several conflicts is reported. -/
abbrev ChunkLengths := List (ChunkId × ℕ)

/-- The Chunk an extent needs, with the length of the whole Chunk. -/
def requiredChunk : ManifestExtent → Option (ChunkId × ℕ)
  | .data logicalLength chunkId => some (chunkId, logicalLength)
  | .dataSlice _ chunkId chunkLength _ => some (chunkId, chunkLength)
  | .hole _ => none
  | .fill _ _ => none

/-- What a scan of the graph has seen: the Chunks and the last conflict of lengths. -/
structure RequiredScan where
  required : ChunkLengths
  conflict : Option (ChunkId × ℕ × ℕ)
  deriving DecidableEq

/-- Collects the Chunks that the extents of a file need. -/
def requireExtent (scan : RequiredScan) (_logicalOffset : ℕ) (extent : ManifestExtent) :
    Except (ManifestTreeError ObjectId) RequiredScan :=
  match requiredChunk extent with
  | none => .ok scan
  | some (chunkId, length) =>
    match scan.required.lookup chunkId with
    | none => .ok { scan with required := scan.required ++ [(chunkId, length)] }
    | some first =>
      if first = length then .ok scan
      else .ok { scan with conflict := some (chunkId, first, length) }

/-- The verified tree of each file. -/
abbrev VerifiedManifests (ObjectId : Type) := List (ℕ × ManifestTreeSummary ObjectId)

/-- Scans the Manifest of one file of the root. -/
def scanFile (read : MetadataReader ObjectId)
    (found : VerifiedManifests ObjectId × ChunkLengths) (inode : DurableInode ObjectId) :
    Except (GenerationError ObjectId) (VerifiedManifests ObjectId × ChunkLengths) :=
  match inode.manifestRoot with
  | none => .ok found
  | some manifestRoot => do
      let (summary, scan) ← (scanManifestTree manifestRoot (nodeReader read) requireExtent
        { required := found.2, conflict := none }).mapError .manifestTree
      match scan.conflict with
      | some (chunkId, first, second) => .error (.manifestChunkLengthConflict chunkId first second)
      | none =>
        require (summary.logicalSize ≠ inode.logicalSize)
          (.manifestLengthMismatch inode.inode inode.logicalSize summary.logicalSize)
        return (found.1 ++ [(inode.inode, summary)], scan.required)

/-- Walks every Manifest of a namespace. -/
def scanManifestGraphWithRequired (read : MetadataReader ObjectId) (root : NamespaceRoot ObjectId) :
    Except (GenerationError ObjectId) (VerifiedManifests ObjectId × ChunkLengths) :=
  root.fileInodes.foldlM (scanFile read) ([], [])

end Fastdup.Store
