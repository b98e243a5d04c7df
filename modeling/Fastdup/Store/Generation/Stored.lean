import Fastdup.Store.Generation
import Fastdup.Store.ManifestTree.Walk
import Mathlib.Data.List.Forall2

/-!
# Stored generations

This file says what a Namespace Root, its successor and the Manifests of its files are in terms of
the stored objects alone, without the order in which the code reads and checks them. Reading a
root returns exactly the stored one (`readNamespaceRoot_ok`), a transition passes exactly when the
next root advances the previous generation (`verifyGenerationTransitionPair_ok`), and the scan of a
graph returns exactly the stored Manifests and the Chunks they name
(`scanManifestGraphWithRequired_ok`).
-/

namespace Fastdup.Store

open Library Checked Format List
open Option (some_injective isSome_iff_exists)

variable {ObjectId : Type}

/-- A Commit Record with the Namespace Root that it names. -/
abbrev Generation (ObjectId : Type) := CommitRecord ObjectId × NamespaceRoot ObjectId

/-- The references of a descriptor: those to inode shards come first, and the records that they
announce add up. -/
structure WellFormedRefs (descriptor : NamespaceGraphRoot ObjectId) : Prop where
  inodesFirst : (descriptor.shards.map NamespaceShardRef.kind).IsChain
    (fun left right => left = .inode ∨ right = .entry)
  counts : ∀ ref ∈ descriptor.shards, 0 < ref.recordCount ∧
    ref.recordCount ≤ NAMESPACE_SHARD_MAX_RECORDS
  unnamed : ∀ ref ∈ descriptor.shards, ref.kind = .inode → ref.firstNameLength = 0
  inodes : ((descriptor.shards.filter fun ref => ref.kind == .inode).map
    NamespaceShardRef.recordCount).sum = descriptor.inodeCount
  entries : ((descriptor.shards.filter fun ref => ref.kind == .entry).map
    NamespaceShardRef.recordCount).sum = descriptor.entryCount

theorem decodeGraphRoot_ok {object : MetadataObject ObjectId}
    {descriptor : NamespaceGraphRoot ObjectId} :
    decodeGraphRoot object = .ok descriptor ↔
      object = .namespaceRoot descriptor ∧ WellFormedRefs descriptor := by
  cases object with
  | namespaceRoot stored =>
    simp only [decodeGraphRoot, bind_ok, require_ok, pure_ok, MetadataObject.namespaceRoot.injEq]
    constructor
    · rintro ⟨_, passed, rfl⟩
      push Not at passed
      rcases passed with ⟨inodesFirst, counts, unnamed, inodes, entries⟩
      refine ⟨rfl, inodesFirst, fun ref mem => ⟨?_, (counts ref mem).2⟩, ?_, inodes, entries⟩
      · exact Nat.pos_of_ne_zero (counts ref mem).1
      · intro ref mem isInode
        exact unnamed ref (mem_filter.mpr ⟨mem, by simp [isInode]⟩)
    · rintro ⟨rfl, wellFormed⟩
      refine ⟨(), ?_, rfl⟩
      push Not
      refine ⟨wellFormed.inodesFirst, fun ref mem => ?_, ?_, wellFormed.inodes,
        wellFormed.entries⟩
      · exact ⟨(wellFormed.counts ref mem).1.ne', (wellFormed.counts ref mem).2⟩
      · intro ref mem
        rw [mem_filter, beq_iff_eq] at mem
        exact wellFormed.unnamed ref mem.1 mem.2
  | _ => simp [decodeGraphRoot]

/-- The inodes and entries of a list of shards. Every shard is stored, sorted, and has the size
and the first key that its reference announces. -/
inductive StoredShards (read : MetadataReader ObjectId) :
    List (NamespaceShardRef ObjectId) → List (DurableInode ObjectId) → List NamespaceEntry →
    Prop where
  | nil : StoredShards read [] [] []
  | inode {ref : NamespaceShardRef ObjectId} {refs : List (NamespaceShardRef ObjectId)}
      {shard inodes : List (DurableInode ObjectId)} {entries : List NamespaceEntry}
      (kind : ref.kind = .inode) (stored : read ref.objectId = .ok (.inodeShard shard))
      (nonempty : shard ≠ []) (bounded : shard.length ≤ NAMESPACE_SHARD_MAX_RECORDS)
      (sorted : (shard.map DurableInode.inode).IsChain (· < ·))
      (count : shard.length = ref.recordCount)
      (first : shard.head?.elim 0 DurableInode.inode = ref.firstKey)
      (later : StoredShards read refs inodes entries) :
      StoredShards read (ref :: refs) (shard ++ inodes) entries
  | entry {ref : NamespaceShardRef ObjectId} {refs : List (NamespaceShardRef ObjectId)}
      {shard entries : List NamespaceEntry} {inodes : List (DurableInode ObjectId)}
      (kind : ref.kind = .entry) (stored : read ref.objectId = .ok (.entryShard shard))
      (nonempty : shard ≠ []) (bounded : shard.length ≤ NAMESPACE_SHARD_MAX_RECORDS)
      (sorted : shard.IsChain NamespaceEntry.Precedes)
      (count : shard.length = ref.recordCount)
      (first : shard.head?.elim 0 NamespaceEntry.parentInode = ref.firstKey)
      (name : shard.head?.elim 0 (fun entry => entry.name.length) = ref.firstNameLength)
      (later : StoredShards read refs inodes entries) :
      StoredShards read (ref :: refs) inodes (shard ++ entries)

/-- The root stored under an identity, with its descriptor and the shards that this names. -/
structure StoredRoot (read : MetadataReader ObjectId) (rootId : ObjectId)
    (descriptor : NamespaceGraphRoot ObjectId) (root : NamespaceRoot ObjectId) : Prop where
  stored : read rootId = .ok (.namespaceRoot descriptor)
  wellFormed : WellFormedRefs descriptor
  shards : StoredShards read descriptor.shards root.inodes root.entries
  inodeCount : root.inodes.length = descriptor.inodeCount
  entryCount : root.entries.length = descriptor.entryCount
  reservation : root.inodeReservationEnd = descriptor.inodeReservationEnd
  cursor : root.inodeAllocationCursor = descriptor.inodeAllocationCursor
  mutation : root.namespaceMutationSequence = descriptor.namespaceMutationSequence
  metadata : root.rootMetadata = descriptor.rootMetadata
  length : ∃ length, payloadLength root.rootMetadata root.entries root.inodes = .ok length

section Shards

variable {read : MetadataReader ObjectId} {refs : List (NamespaceShardRef ObjectId)}

theorem toOption_eq_some {objectId : ObjectId} {object : MetadataObject ObjectId} :
    (read objectId).toOption = some object ↔ read objectId = .ok object := by
  cases read objectId <;> simp [Except.toOption]

theorem decodeInodeShard_ok {object : MetadataObject ObjectId}
    {shard : List (DurableInode ObjectId)} : decodeInodeShard object = .ok shard ↔
      object = .inodeShard shard ∧ shard ≠ [] ∧ shard.length ≤ NAMESPACE_SHARD_MAX_RECORDS ∧
        (shard.map DurableInode.inode).IsChain (· < ·) := by
  cases object with
  | inodeShard stored =>
    simp only [decodeInodeShard, bind_ok, require_ok, pure_ok, not_or, not_not, not_lt, gt_iff_lt,
      MetadataObject.inodeShard.injEq]
    constructor
    · rintro ⟨_, passed, rfl⟩
      exact ⟨rfl, passed⟩
    · rintro ⟨rfl, passed⟩
      exact ⟨(), passed, rfl⟩
  | _ => simp [decodeInodeShard]

theorem decodeEntryShard_ok {object : MetadataObject ObjectId} {shard : List NamespaceEntry} :
    decodeEntryShard object = .ok shard ↔
      object = .entryShard shard ∧ shard ≠ [] ∧ shard.length ≤ NAMESPACE_SHARD_MAX_RECORDS ∧
        shard.IsChain NamespaceEntry.Precedes := by
  cases object with
  | entryShard stored =>
    simp only [decodeEntryShard, bind_ok, require_ok, pure_ok, not_or, not_not, not_lt, gt_iff_lt,
      MetadataObject.entryShard.injEq]
    constructor
    · rintro ⟨_, passed, rfl⟩
      exact ⟨rfl, passed⟩
    · rintro ⟨rfl, passed⟩
      exact ⟨(), passed, rfl⟩
  | _ => simp [decodeEntryShard]

/-- The fold over the references collects exactly the stored records. -/
theorem decodeShards_ok {decoded result : List (DurableInode ObjectId) × List NamespaceEntry} :
    refs.foldlM (decodeShard fun shardId => (read shardId).toOption) decoded = .ok result ↔
      ∃ inodes entries, StoredShards read refs inodes entries ∧
        result = (decoded.1 ++ inodes, decoded.2 ++ entries) := by
  induction refs generalizing decoded with
  | nil =>
    rw [foldlM_nil, pure_ok]
    constructor
    · rintro rfl
      exact ⟨[], [], .nil, by simp⟩
    · rintro ⟨inodes, entries, ⟨⟩, rfl⟩
      simp
  | cons ref rest ih =>
    simp only [foldlM_cons, bind_ok, ih]
    constructor
    · rintro ⟨next, step, inodes, entries, later, rfl⟩
      unfold decodeShard at step
      split at step
      · cases step
      · rename_i object found
        rw [toOption_eq_some] at found
        split at step
        · rename_i kind
          simp only [bind_ok, decodeInodeShard_ok, require_ok, pure_ok, not_or, not_not] at step
          rcases step with ⟨shard, ⟨rfl, nonempty, bounded, sorted⟩, _, ⟨count, first⟩, rfl⟩
          exact ⟨_, _, .inode kind found nonempty bounded sorted count first later, by simp⟩
        · rename_i kind
          simp only [bind_ok, decodeEntryShard_ok, require_ok, pure_ok, not_or, not_not] at step
          rcases step with ⟨shard, ⟨rfl, nonempty, bounded, sorted⟩, _, ⟨count, first, name⟩, rfl⟩
          exact ⟨_, _, .entry kind found nonempty bounded sorted count first name later, by simp⟩
    · rintro ⟨inodes, entries, stored, rfl⟩
      unfold decodeShard
      rcases stored with _ | ⟨kind, stored, nonempty, bounded, sorted, count, first, later⟩ |
        ⟨kind, stored, nonempty, bounded, sorted, count, first, name, later⟩
      · rename_i shard inodes
        refine ⟨(decoded.1 ++ shard, decoded.2), ?_, inodes, entries, later, by simp⟩
        simp only [toOption_eq_some.mpr stored, kind, bind_ok, decodeInodeShard_ok, require_ok,
          pure_ok, not_or, not_not]
        exact ⟨shard, ⟨rfl, nonempty, bounded, sorted⟩, (), ⟨count, first⟩, rfl⟩
      · rename_i shard entries
        refine ⟨(decoded.1, decoded.2 ++ shard), ?_, inodes, entries, later, by simp⟩
        simp only [toOption_eq_some.mpr stored, kind, bind_ok, decodeEntryShard_ok, require_ok,
          pure_ok, not_or, not_not]
        exact ⟨shard, ⟨rfl, nonempty, bounded, sorted⟩, (), ⟨count, first, name⟩, rfl⟩

theorem StoredShards.readable {inodes : List (DurableInode ObjectId)}
    {entries : List NamespaceEntry} (stored : StoredShards read refs inodes entries) :
    ∃ objects, refs.mapM (fun ref => readMetadata read ref.objectId) = .ok objects := by
  simp only [mapM_ok]
  induction stored with
  | nil => exact ⟨[], .nil⟩
  | inode kind stored _ _ _ _ _ _ ih | entry kind stored _ _ _ _ _ _ _ ih =>
    rcases ih with ⟨objects, all⟩
    exact ⟨_ :: objects, .cons (mapError_ok.mpr stored) all⟩

end Shards

theorem sortedInodes_of_sorted {inodes : List (DurableInode ObjectId)}
    (sorted : (inodes.map DurableInode.inode).IsChain (· < ·)) :
    NamespaceRoot.sortedInodes inodes = inodes := by
  rw [isChain_iff_pairwise, pairwise_map] at sorted
  exact (sorted.imp fun less => less.le).insertionSort_eq

theorem sortedEntries_of_sorted {entries : List NamespaceEntry}
    (sorted : entries.IsChain NamespaceEntry.Precedes) :
    NamespaceRoot.sortedEntries entries = entries := by
  rw [isChain_iff_pairwise] at sorted
  refine (sorted.imp ?_).insertionSort_eq
  intro left right before after
  exact before.asymm after

section Root

variable {read : MetadataReader ObjectId} {rootId : ObjectId}
  {descriptor : NamespaceGraphRoot ObjectId} {root : NamespaceRoot ObjectId}

theorem sorted (root : NamespaceRoot ObjectId) :
    (root.inodes.map DurableInode.inode).IsChain (· < ·) ∧
      root.entries.IsChain NamespaceEntry.Precedes := by
  have validated := root.validated
  simp only [validateNamespace, bind_ok, require_ok, not_or, not_not] at validated
  rcases validated with ⟨_, ⟨_, _, _, _, inodes, entries⟩, _⟩
  exact ⟨inodes, entries⟩

/-- On sorted records the constructor of a root only adds its checks. -/
theorem newWithRootMetadata_ok {reservation cursor mutation : ℕ} {metadata : DurableRootMetadata}
    {inodes : List (DurableInode ObjectId)} {entries : List NamespaceEntry}
    (inodesSorted : (inodes.map DurableInode.inode).IsChain (· < ·))
    (entriesSorted : entries.IsChain NamespaceEntry.Precedes) :
    NamespaceRoot.newWithRootMetadata reservation cursor mutation metadata inodes entries =
        .ok root ↔
      (root.inodeReservationEnd = reservation ∧ root.inodeAllocationCursor = cursor ∧
        root.namespaceMutationSequence = mutation ∧ root.rootMetadata = metadata ∧
        root.inodes = inodes ∧ root.entries = entries) ∧
      ∃ length, payloadLength metadata entries inodes = .ok length := by
  unfold NamespaceRoot.newWithRootMetadata
  rw [sortedInodes_of_sorted inodesSorted, sortedEntries_of_sorted entriesSorted]
  constructor
  · intro made
    split at made
    · cases made
    · simp only [bind_ok, pure_ok] at made
      rcases made with ⟨length, fits, rfl⟩
      exact ⟨⟨rfl, rfl, rfl, rfl, rfl, rfl⟩, length, fits⟩
  · rintro ⟨⟨rfl, rfl, rfl, rfl, rfl, rfl⟩, length, fits⟩
    split
    · rename_i refused
      rw [root.validated] at refused
      cases refused
    · rw [fits]
      rfl

/-- Reading a root returns exactly the stored one. -/
theorem readNamespaceRoot_ok :
    readNamespaceRoot read rootId = .ok root ↔
      ∃ descriptor, StoredRoot read rootId descriptor root := by
  simp only [readNamespaceRoot, readMetadata, decodeGraph, bind_ok, mapError_ok, decodeGraphRoot_ok,
    decodeShards_ok, require_ok, not_or, not_not]
  constructor
  · rintro ⟨_, stored, descriptor, ⟨rfl, wellFormed⟩, _, _, _, ⟨inodes, entries, shards, rfl⟩, _,
      ⟨inodeCount, entryCount, inodesSorted, entriesSorted⟩, made⟩
    rw [newWithRootMetadata_ok inodesSorted entriesSorted] at made
    rcases made with ⟨⟨reservation, cursor, mutation, metadata, rfl, rfl⟩, length⟩
    exact ⟨descriptor, stored, wellFormed, shards, inodeCount, entryCount, reservation, cursor,
      mutation, metadata, metadata ▸ length⟩
  · rintro ⟨descriptor, holds⟩
    rcases holds.shards.readable with ⟨objects, readable⟩
    rcases sorted root with ⟨inodesSorted, entriesSorted⟩
    refine ⟨_, holds.stored, descriptor, ⟨rfl, holds.wellFormed⟩, objects, readable, _,
      ⟨_, _, holds.shards, rfl⟩, (), ?_, ?_⟩
    · exact ⟨holds.inodeCount, holds.entryCount, inodesSorted, entriesSorted⟩
    · refine (newWithRootMetadata_ok inodesSorted entriesSorted).mpr
        ⟨?_, holds.metadata ▸ holds.length⟩
      exact ⟨holds.reservation, holds.cursor, holds.mutation, holds.metadata, rfl, rfl⟩

end Root

/-- The root of a record: stored under its identity, with the numbers copied into the record. -/
structure RootOf (read : MetadataReader ObjectId) (record : CommitRecord ObjectId)
    (root : NamespaceRoot ObjectId) : Prop where
  stored : ∃ descriptor, StoredRoot read record.namespaceRoot descriptor root
  mutation : root.namespaceMutationSequence = record.namespaceMutationCutoff
  reservation : root.inodeReservationEnd = record.inodeReservationEnd
  cursor : root.inodeAllocationCursor = record.inodeAllocationCursor

theorem recordMatchesNamespaceRoot_iff {record : CommitRecord ObjectId}
    {root : NamespaceRoot ObjectId} : recordMatchesNamespaceRoot record root = true ↔
      root.namespaceMutationSequence = record.namespaceMutationCutoff ∧
        root.inodeReservationEnd = record.inodeReservationEnd ∧
        root.inodeAllocationCursor = record.inodeAllocationCursor := by
  simp [recordMatchesNamespaceRoot, and_assoc]

theorem rootOf_iff {read : MetadataReader ObjectId} {record : CommitRecord ObjectId}
    {root : NamespaceRoot ObjectId} :
    RootOf read record root ↔ readNamespaceRoot read record.namespaceRoot = .ok root ∧
      recordMatchesNamespaceRoot record root = true := by
  rw [recordMatchesNamespaceRoot_iff, readNamespaceRoot_ok]
  constructor
  · intro rootOf
    exact ⟨rootOf.stored, rootOf.mutation, rootOf.reservation, rootOf.cursor⟩
  · intro matching
    exact ⟨matching.1, matching.2.1, matching.2.2.1, matching.2.2.2⟩

/-- What a root owes to the generation before it. No number goes back, the new inodes come out of
the reservation that was durable, and an inode that was shown keeps its number and its order of
mutations. -/
structure RootAdvances (previous : Generation ObjectId) (root : NamespaceRoot ObjectId) : Prop where
  mutation : previous.1.namespaceMutationCutoff ≤ root.namespaceMutationSequence
  reservation : previous.1.inodeReservationEnd ≤ root.inodeReservationEnd
  cursor : previous.1.inodeAllocationCursor ≤ root.inodeAllocationCursor
  reserved : root.inodeAllocationCursor ≤ previous.1.inodeReservationEnd
  inodes : ∀ inode ∈ root.inodes, previous.1.inodeAllocationCursor ≤ inode.inode ∨
    ∃ old ∈ previous.2.inodes, old.inode = inode.inode
  sequences : ∀ inode ∈ root.inodes, ∀ old ∈ previous.2.inodes, old.inode = inode.inode →
    old.mutationSequence ≤ inode.mutationSequence

theorem inodes_nodup (root : NamespaceRoot ObjectId) :
    (root.inodes.map DurableInode.inode).Nodup := by
  have increasing := (sorted root).1
  rw [isChain_iff_pairwise] at increasing
  exact increasing.imp fun less => less.ne

theorem verifyInodeTransition_ok {previous : Generation ObjectId}
    {proposed : DurableInode ObjectId} :
    verifyInodeTransition previous.1 previous.2 proposed = .ok () ↔
      (previous.1.inodeAllocationCursor ≤ proposed.inode ∨
        ∃ old ∈ previous.2.inodes, old.inode = proposed.inode) ∧
      ∀ old ∈ previous.2.inodes, old.inode = proposed.inode →
        old.mutationSequence ≤ proposed.mutationSequence := by
  unfold verifyInodeTransition
  cases found : previous.2.inodes.find? fun inode => inode.inode == proposed.inode with
  | none =>
    have absent : ∀ old ∈ previous.2.inodes, old.inode ≠ proposed.inode := by
      simpa using found
    simp only [require_ok, not_lt]
    constructor
    · intro fresh
      exact ⟨.inl fresh, fun old mem same => absurd same (absent old mem)⟩
    · rintro ⟨fresh | ⟨old, mem, same⟩, _⟩
      · exact fresh
      · exact absurd same (absent old mem)
  | some shown =>
    have mem := mem_of_find?_eq_some found
    have same : shown.inode = proposed.inode := by simpa using find?_some found
    simp only [require_ok, not_lt]
    constructor
    · intro kept
      refine ⟨.inr ⟨shown, mem, same⟩, fun old inRoot equal => ?_⟩
      rwa [inj_on_of_nodup_map (inodes_nodup previous.2) inRoot mem (equal.trans same.symm)]
    · intro holds
      exact holds.2 shown mem same

theorem verifyGenerationTransitionPair_ok {previous : Generation ObjectId}
    {root : NamespaceRoot ObjectId} :
    verifyGenerationTransitionPair previous.1 previous.2 root = .ok () ↔
      RootAdvances previous root := by
  simp only [verifyGenerationTransitionPair, bind_ok, require_ok, forM_ok,
    verifyInodeTransition_ok, not_lt, gt_iff_lt]
  constructor
  · rintro ⟨_, mutation, _, reservation, _, cursor, _, reserved, inodes⟩
    exact ⟨mutation, reservation, cursor, reserved, fun inode mem => (inodes inode mem).1,
      fun inode mem => (inodes inode mem).2⟩
  · intro holds
    exact ⟨(), holds.mutation, (), holds.reservation, (), holds.cursor, (), holds.reserved,
      fun inode mem => ⟨holds.inodes inode mem, holds.sequences inode mem⟩⟩

/-- A regular file with the extents of its Manifest, which cover exactly its bytes. -/
structure StoredFile (read : MetadataReader ObjectId) (inode : DurableInode ObjectId)
    (manifest : ℕ × ManifestTreeSummary ObjectId) (extents : List ManifestExtent) : Prop where
  numbered : manifest.1 = inode.inode
  named : inode.manifestRoot = some manifest.2.root
  tree : ∃ level ≤ MAX_TREE_LEVEL, Subtree (nodeReader read) level manifest.2.root extents
  size : totalLength extents = inode.logicalSize
  logicalSize : manifest.2.logicalSize = inode.logicalSize
  allocated : manifest.2.allocatedBytes = extentAllocation extents

/-- The files of a root, one after another, with the extents of all of them. -/
inductive StoredFiles (read : MetadataReader ObjectId) :
    List (DurableInode ObjectId) → VerifiedManifests ObjectId → List ManifestExtent → Prop where
  | nil : StoredFiles read [] [] []
  | cons {inode : DurableInode ObjectId} {inodes : List (DurableInode ObjectId)}
      {manifest : ℕ × ManifestTreeSummary ObjectId} {manifests : VerifiedManifests ObjectId}
      {extents others : List ManifestExtent} (file : StoredFile read inode manifest extents)
      (later : StoredFiles read inodes manifests others) :
      StoredFiles read (inode :: inodes) (manifest :: manifests) (extents ++ others)

/-- Some extent names the Chunk, with this length. -/
def Names (extents : List ManifestExtent) (chunkId : ChunkId) (length : ℕ) : Prop :=
  ∃ extent ∈ extents, requiredChunk extent = some (chunkId, length)

/-- The graph of a root: every file has its whole Manifest, and the required Chunks are exactly
those that some extent names, each with one length. -/
def StoredGraph (read : MetadataReader ObjectId) (root : NamespaceRoot ObjectId)
    (manifests : VerifiedManifests ObjectId) (required : ChunkId → Option ℕ) : Prop :=
  ∃ extents, StoredFiles read root.fileInodes manifests extents ∧
    ∀ chunkId length, required chunkId = some length ↔ Names extents chunkId length

section Scanning

variable {read : MetadataReader ObjectId} {extents : List ManifestExtent} {scan : RequiredScan}

theorem names_cons {extent : ManifestExtent} {chunkId : ChunkId} {length : ℕ} :
    Names (extent :: extents) chunkId length ↔
      requiredChunk extent = some (chunkId, length) ∨ Names extents chunkId length := by
  simp [Names]

theorem names_append {left right : List ManifestExtent} {chunkId : ChunkId} {length : ℕ} :
    Names (left ++ right) chunkId length ↔
      Names left chunkId length ∨ Names right chunkId length := by
  simp [Names, or_and_right, exists_or]

theorem lookup_concat {known : ChunkLengths} {chunkId other : ChunkId} {length amount : ℕ}
    (unknown : known.lookup chunkId = none) :
    (known ++ [(chunkId, length)]).lookup other = some amount ↔
      known.lookup other = some amount ∨ (chunkId, length) = (other, amount) := by
  rw [lookup_append, Prod.mk.injEq]
  by_cases same : chunkId = other
  · simp [← same, unknown]
  · have differs : (other == chunkId) = false := beq_false_of_ne (Ne.symm same)
    simp [lookup_cons, differs, same]

theorem requireExtent_ok {offset : ℕ} {extent : ManifestExtent} {next : RequiredScan}
    (step : @requireExtent ObjectId scan offset extent = .ok next) (agreed : next.conflict = none) :
    scan.conflict = none ∧ ∀ chunkId length, next.required.lookup chunkId = some length ↔
      scan.required.lookup chunkId = some length ∨
        requiredChunk extent = some (chunkId, length) := by
  unfold requireExtent at step
  split at step
  · rename_i unneeded
    cases step
    simp [unneeded, agreed]
  · rename_i chunkId length needed
    simp only [needed, Option.some_inj]
    split at step
    · rename_i unknown
      cases step
      exact ⟨agreed, fun other amount => lookup_concat unknown⟩
    · rename_i first found
      split at step
      · rename_i equal
        cases step
        refine ⟨agreed, fun other amount => (or_iff_left_of_imp ?_).symm⟩
        intro same
        cases same
        rw [found, equal]
      · cases step
        cases agreed

theorem requireExtent_of_agrees (offset : ℕ) {extent : ManifestExtent}
    (agrees : ∀ chunkId length first, requiredChunk extent = some (chunkId, length) →
      scan.required.lookup chunkId = some first → first = length) :
    ∃ next, @requireExtent ObjectId scan offset extent = .ok next ∧
      next.conflict = scan.conflict := by
  unfold requireExtent
  split
  · exact ⟨scan, rfl, rfl⟩
  · rename_i chunkId length needed
    split
    · exact ⟨_, rfl, rfl⟩
    · rename_i first found
      rw [if_pos (agrees chunkId length first needed found)]
      exact ⟨scan, rfl, rfl⟩

/-- A scan that ends without a conflict knows exactly the Chunks it knew and those the extents
name. -/
theorem requireExtents_ok {base : ℕ} {last : RequiredScan}
    (ran : visitAll (@requireExtent ObjectId) scan (placed base extents) = .ok last)
    (agreed : last.conflict = none) :
    scan.conflict = none ∧ ∀ chunkId length, last.required.lookup chunkId = some length ↔
      scan.required.lookup chunkId = some length ∨ Names extents chunkId length := by
  induction extents generalizing scan base with
  | nil =>
    cases ran
    exact ⟨agreed, by simp [Names]⟩
  | cons extent rest ih =>
    rw [placed, visitAll, foldlM_cons, bind_ok] at ran
    rcases ran with ⟨next, step, later⟩
    rcases ih later with ⟨quiet, known⟩
    rcases requireExtent_ok step quiet with ⟨quietBefore, knownBefore⟩
    refine ⟨quietBefore, fun chunkId length => ?_⟩
    rw [known, knownBefore, or_assoc, names_cons]

/-- Extents that agree with one assignment of lengths cause no conflict. -/
theorem requireExtents_of_agrees {base : ℕ} {lengths : ChunkId → Option ℕ}
    (quiet : scan.conflict = none)
    (known : ∀ chunkId length, scan.required.lookup chunkId = some length →
      lengths chunkId = some length)
    (named : ∀ chunkId length, Names extents chunkId length → lengths chunkId = some length) :
    ∃ last, visitAll (@requireExtent ObjectId) scan (placed base extents) = .ok last ∧
      last.conflict = none := by
  induction extents generalizing scan base with
  | nil => exact ⟨scan, rfl, quiet⟩
  | cons extent rest ih =>
    simp only [names_cons] at named
    have agrees : ∀ chunkId length first, requiredChunk extent = some (chunkId, length) →
        scan.required.lookup chunkId = some first → first = length := by
      intro chunkId length first needed found
      exact some_injective _ ((known _ _ found).symm.trans (named _ _ (.inl needed)))
    rcases requireExtent_of_agrees base agrees with ⟨next, step, same⟩
    have quietNext := same.trans quiet
    have knownNext := (requireExtent_ok step quietNext).2
    rcases @ih next (base + extent.logicalLength) quietNext
      (fun chunkId length found => ((knownNext chunkId length).mp found).elim (known _ _)
        fun needed => named _ _ (.inl needed))
      (fun chunkId length later => named _ _ (.inr later)) with ⟨last, ran, agreed⟩
    refine ⟨last, ?_, agreed⟩
    rw [placed, visitAll, foldlM_cons, step, ok_bind]
    exact ran

variable {found result : VerifiedManifests ObjectId × ChunkLengths} {inode : DurableInode ObjectId}
  {files : List (DurableInode ObjectId)} {manifests : VerifiedManifests ObjectId}
  {lengths : ChunkId → Option ℕ}

theorem scanFile_ok (regular : inode.kind = .regular)
    (ran : scanFile read found inode = .ok result) :
    ∃ manifest extents, StoredFile read inode manifest extents ∧
      result.1 = found.1 ++ [manifest] ∧ ∀ chunkId length, result.2.lookup chunkId = some length ↔
        found.2.lookup chunkId = some length ∨ Names extents chunkId length := by
  rcases isSome_iff_exists.mp (inode.regular.mp regular) with ⟨manifestRoot, named⟩
  simp only [scanFile, named, bind_ok, mapError_ok, scanManifestTree_ok] at ran
  rcases ran with ⟨⟨summary, scan⟩, ⟨level, extents, low, subtree, exact, visited⟩, ran⟩
  cases agreed : scan.conflict with
  | some conflict => simp [agreed] at ran
  | none =>
    simp only [agreed, bind_ok, require_ok, pure_ok, not_not] at ran
    rcases ran with ⟨_, size, rfl⟩
    simp only at exact
    subst exact
    refine ⟨_, extents, ⟨rfl, named, ⟨level, low, subtree⟩, size, size, rfl⟩, rfl, ?_⟩
    exact (requireExtents_ok visited agreed).2

theorem scanFile_of_stored {manifest : ℕ × ManifestTreeSummary ObjectId}
    (file : StoredFile read inode manifest extents)
    (known : ∀ chunkId length, found.2.lookup chunkId = some length →
      lengths chunkId = some length)
    (named : ∀ chunkId length, Names extents chunkId length → lengths chunkId = some length) :
    ∃ required, scanFile read found inode = .ok (found.1 ++ [manifest], required) ∧
      ∀ chunkId length, required.lookup chunkId = some length ↔
        found.2.lookup chunkId = some length ∨ Names extents chunkId length := by
  rcases manifest with ⟨number, ⟨manifestRoot, logicalSize, allocated⟩⟩
  rcases file with ⟨rfl, root, ⟨level, low, subtree⟩, size, rfl, rfl⟩
  rcases @requireExtents_of_agrees ObjectId extents ⟨found.2, none⟩ 0 lengths rfl known named with
    ⟨last, visited, agreed⟩
  refine ⟨last.required, ?_, (requireExtents_ok visited agreed).2⟩
  simp only [scanFile, root, bind_ok, mapError_ok, scanManifestTree_ok]
  refine ⟨(_, last), ⟨level, extents, low, subtree, rfl, visited⟩, ?_⟩
  simp only [agreed, bind_ok, require_ok, pure_ok, not_not, size]
  exact ⟨(), trivial, trivial⟩

theorem scanFiles_ok (regular : ∀ inode ∈ files, inode.kind = .regular)
    (ran : files.foldlM (scanFile read) found = .ok result) :
    ∃ manifests extents, StoredFiles read files manifests extents ∧
      result.1 = found.1 ++ manifests ∧ ∀ chunkId length, result.2.lookup chunkId = some length ↔
        found.2.lookup chunkId = some length ∨ Names extents chunkId length := by
  induction files generalizing found with
  | nil =>
    cases ran
    exact ⟨[], [], .nil, by simp, by simp [Names]⟩
  | cons inode rest ih =>
    rw [foldlM_cons, bind_ok] at ran
    rcases ran with ⟨next, first, later⟩
    rw [forall_mem_cons] at regular
    rcases scanFile_ok regular.1 first with ⟨manifest, extents, file, appended, known⟩
    rcases ih regular.2 later with ⟨manifests, others, stored, collected, knownLater⟩
    refine ⟨_, _, .cons file stored, by rw [collected, appended]; simp, fun chunkId length => ?_⟩
    rw [knownLater, known, or_assoc, names_append]

theorem scanFiles_of_stored (stored : StoredFiles read files manifests extents)
    (known : ∀ chunkId length, found.2.lookup chunkId = some length →
      lengths chunkId = some length)
    (named : ∀ chunkId length, Names extents chunkId length → lengths chunkId = some length) :
    ∃ required, files.foldlM (scanFile read) found = .ok (found.1 ++ manifests, required) ∧
      ∀ chunkId length, required.lookup chunkId = some length ↔
        found.2.lookup chunkId = some length ∨ Names extents chunkId length := by
  induction stored generalizing found with
  | nil => exact ⟨found.2, by simp [pure, Except.pure], by simp [Names]⟩
  | @cons inode inodes manifest manifests extents others file later ih =>
    simp only [names_append] at named
    rcases scanFile_of_stored file known fun _ _ here => named _ _ (.inl here) with
      ⟨required, first, knownNext⟩
    rcases @ih (found.1 ++ [manifest], required)
      (fun chunkId length next => ((knownNext chunkId length).mp next).elim (known _ _)
        fun here => named _ _ (.inl here))
      (fun _ _ behind => named _ _ (.inr behind)) with ⟨last, scanned, knownLast⟩
    refine ⟨last, ?_, fun chunkId length => ?_⟩
    · rw [foldlM_cons, first, ok_bind, scanned, append_assoc]
      rfl
    · rw [knownLast, knownNext, or_assoc, names_append]

/-- The scan of a graph returns exactly the stored Manifests with the Chunks they name. -/
theorem scanManifestGraphWithRequired_ok {root : NamespaceRoot ObjectId}
    {required : ChunkId → Option ℕ} :
    (∃ lengths, scanManifestGraphWithRequired read root = .ok (manifests, lengths) ∧
        (fun chunkId => lengths.lookup chunkId) = required) ↔
      StoredGraph read root manifests required := by
  have regular : ∀ inode ∈ root.fileInodes, inode.kind = .regular := by
    simp [NamespaceRoot.fileInodes]
  constructor
  · rintro ⟨lengths, scanned, rfl⟩
    rcases scanFiles_ok regular scanned with ⟨manifests, extents, stored, rfl, known⟩
    exact ⟨extents, stored, fun chunkId length => by simpa using known chunkId length⟩
  · rintro ⟨extents, stored, named⟩
    rcases @scanFiles_of_stored _ _ _ ([], []) _ _ required stored (by simp)
      (fun chunkId length here => (named chunkId length).mpr here) with ⟨lengths, scanned, known⟩
    refine ⟨lengths, scanned, ?_⟩
    funext chunkId
    apply Option.ext
    intro length
    simpa [named] using known chunkId length

end Scanning

end Fastdup.Store
