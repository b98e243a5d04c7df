import Fastdup.Format.Manifest
import Fastdup.Format.Namespace

/-!
# The stored graph of a Namespace Root

A Namespace Root is stored as shards of consecutive inodes and entries and one descriptor that
names the shards. Every object is stored under its identity, so equal shards of two roots are
stored once. The payload codecs are not spelled out: an object here is the value its payload
decodes to, and `malformed` stands for a payload that no decoder accepts.
-/

namespace Fastdup.Format

open Library Checked

def NAMESPACE_SHARD_MAX_RECORDS : ℕ := 8192

/-- What the records of a shard are. -/
inductive ShardKind where
  | inode
  | entry
  deriving DecidableEq, Repr

/-- The line of the descriptor for one shard. -/
structure NamespaceShardRef (ObjectId : Type) where
  kind : ShardKind
  recordCount : ℕ
  firstKey : ℕ
  firstNameLength : ℕ
  objectId : ObjectId
  deriving DecidableEq

/-- The descriptor that lists the shards of a namespace. -/
structure NamespaceGraphRoot (ObjectId : Type) where
  inodeReservationEnd : ℕ
  inodeAllocationCursor : ℕ
  namespaceMutationSequence : ℕ
  inodeCount : ℕ
  entryCount : ℕ
  rootMetadata : DurableRootMetadata
  shards : List (NamespaceShardRef ObjectId)
  deriving DecidableEq

/-- The objects of the metadata store, by their payload. -/
inductive MetadataObject (ObjectId : Type) where
  | manifest (node : ManifestNode ObjectId)
  | namespaceRoot (descriptor : NamespaceGraphRoot ObjectId)
  | inodeShard (inodes : List (DurableInode ObjectId))
  | entryShard (entries : List NamespaceEntry)
  | malformed (payload : Bytes) (error : MetadataFormatError)
  deriving DecidableEq

variable {ObjectId : Type}

/-- The checks of the descriptor's decoder on its shard references. -/
def decodeGraphRoot : MetadataObject ObjectId →
    Except MetadataFormatError (NamespaceGraphRoot ObjectId)
  | .namespaceRoot descriptor => do
      let inodeRefs := descriptor.shards.filter fun ref => ref.kind == .inode
      let entryRefs := descriptor.shards.filter fun ref => ref.kind == .entry
      -- The references to inode shards come first.
      require (¬ (descriptor.shards.map NamespaceShardRef.kind).IsChain
          (fun left right => left = .inode ∨ right = .entry) ∨
        (∃ ref ∈ descriptor.shards, ref.recordCount = 0 ∨
          ref.recordCount > NAMESPACE_SHARD_MAX_RECORDS) ∨
        (∃ ref ∈ inodeRefs, ref.firstNameLength ≠ 0) ∨
        (inodeRefs.map NamespaceShardRef.recordCount).sum ≠ descriptor.inodeCount ∨
        (entryRefs.map NamespaceShardRef.recordCount).sum ≠ descriptor.entryCount) .invalidPayload
      return descriptor
  | .malformed _ error => .error error
  | .manifest _ => .error .unsupportedOrReservedField
  | .inodeShard _ => .error .invalidPayload
  | .entryShard _ => .error .invalidPayload

def decodeInodeShard : MetadataObject ObjectId →
    Except MetadataFormatError (List (DurableInode ObjectId))
  | .inodeShard inodes => do
      require (inodes = [] ∨ inodes.length > NAMESPACE_SHARD_MAX_RECORDS ∨
        ¬ (inodes.map DurableInode.inode).IsChain (· < ·)) .invalidPayload
      return inodes
  | .malformed _ error => .error error
  | .manifest _ => .error .unsupportedOrReservedField
  | .namespaceRoot _ => .error .invalidPayload
  | .entryShard _ => .error .invalidPayload

def decodeEntryShard : MetadataObject ObjectId → Except MetadataFormatError (List NamespaceEntry)
  | .entryShard entries => do
      require (entries = [] ∨ entries.length > NAMESPACE_SHARD_MAX_RECORDS ∨
        ¬ entries.IsChain NamespaceEntry.Precedes) .invalidPayload
      return entries
  | .malformed _ error => .error error
  | .manifest _ => .error .unsupportedOrReservedField
  | .namespaceRoot _ => .error .invalidPayload
  | .inodeShard _ => .error .invalidPayload

/-- Adds the records of one shard to those decoded before. -/
def decodeShard (shards : ObjectId → Option (MetadataObject ObjectId))
    (decoded : List (DurableInode ObjectId) × List NamespaceEntry)
    (reference : NamespaceShardRef ObjectId) :
    Except MetadataFormatError (List (DurableInode ObjectId) × List NamespaceEntry) := do
  match shards reference.objectId with
  | none => .error .invalidPayload
  | some object =>
    match reference.kind with
    | .inode => do
        let shard ← decodeInodeShard object
        require (shard.length ≠ reference.recordCount ∨
          shard.head?.elim 0 DurableInode.inode ≠ reference.firstKey) .invalidPayload
        return (decoded.1 ++ shard, decoded.2)
    | .entry => do
        let shard ← decodeEntryShard object
        require (shard.length ≠ reference.recordCount ∨
          shard.head?.elim 0 NamespaceEntry.parentInode ≠ reference.firstKey ∨
          shard.head?.elim 0 (fun entry => entry.name.length) ≠ reference.firstNameLength)
          .invalidPayload
        return (decoded.1, decoded.2 ++ shard)

/-- Reconstructs a Namespace Root from its descriptor and the shards it names. -/
def decodeGraph (descriptor : NamespaceGraphRoot ObjectId)
    (shards : ObjectId → Option (MetadataObject ObjectId)) :
    Except MetadataFormatError (NamespaceRoot ObjectId) := do
  let (inodes, entries) ← descriptor.shards.foldlM (decodeShard shards) ([], [])
  require (inodes.length ≠ descriptor.inodeCount ∨ entries.length ≠ descriptor.entryCount ∨
    ¬ (inodes.map DurableInode.inode).IsChain (· < ·) ∨
    ¬ entries.IsChain NamespaceEntry.Precedes) .invalidPayload
  NamespaceRoot.newWithRootMetadata descriptor.inodeReservationEnd descriptor.inodeAllocationCursor
    descriptor.namespaceMutationSequence descriptor.rootMetadata inodes entries

end Fastdup.Format
