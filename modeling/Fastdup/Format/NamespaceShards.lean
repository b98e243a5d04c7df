import Fastdup.Format.NamespaceGraph
import Fastdup.Library.Cutting

/-!
# Namespace shards

A Namespace Root is published as shards of its inodes and of its entries, each encoded from the
records of one range alone. A record starts a shard when the hash of its own key says so; only a
shard that is full is cut elsewhere.
-/

namespace Fastdup.Format

open Library Checked

variable {ObjectId α κ : Type}

def NAMESPACE_SHARD_TARGET_RECORDS : UInt64 := 1024
def NAMESPACE_SHARD_MAX_PAYLOAD_BYTES : ℕ := 4 * 1024 * 1024

/-- The mixing function behind the shard boundaries. -/
def namespaceKeyMix (value : UInt64) : UInt64 :=
  let value := value + 0x9e3779b97f4a7c15
  let mixed := (value ^^^ (value >>> 30)) * 0xbf58476d1ce4e5b9
  let mixed := (mixed ^^^ (mixed >>> 27)) * 0x94d049bb133111eb
  mixed ^^^ (mixed >>> 31)

def inodeShardKeyHash (inode : ℕ) : UInt64 := namespaceKeyMix (.ofNat inode)

def entryShardKeyHash (parent : ℕ) (name : Bytes) : UInt64 :=
  name.foldl (fun folded byte => namespaceKeyMix (folded ^^^ byte.toUInt64))
    (namespaceKeyMix (.ofNat parent))

/-- A key may start a shard on its own, whatever its neighbours are. -/
def startsShard (keyHash : UInt64) : Bool :=
  keyHash < 0xffffffffffffffff / NAMESPACE_SHARD_TARGET_RECORDS

def inodeShardRecordBytes (inode : DurableInode ObjectId) : ℕ :=
  DURABLE_INODE_BYTES +
    inode.posixRecordLength.toOption.getD POSIX_METADATA_RECORD_HEADER_BYTES +
    (inode.xattrs.map fun xattr =>
      xattr.recordLength.toOption.getD XATTR_RECORD_HEADER_BYTES).sum

/-- The ranges are cut from the records instead of their positions. -/
def shardRanges (key : α → κ) (before : κ → κ → Prop) [DecidableRel before] [Std.Asymm before]
    (keyHash : κ → UInt64) (recordBytes : α → ℕ) : Cutting α κ where
  key
  before first second := before first second
  starts key := startsShard (keyHash key)
  weight := recordBytes
  longest := NAMESPACE_SHARD_MAX_RECORDS
  heaviest := NAMESPACE_SHARD_MAX_PAYLOAD_BYTES
  asymm first second := by simpa using asymm_of before
  positive := by decide

/-- How inode records are cut into shards. -/
def inodeShards : Cutting (DurableInode ObjectId) ℕ :=
  shardRanges DurableInode.inode (· < ·) inodeShardKeyHash inodeShardRecordBytes

def NamespaceEntry.key (entry : NamespaceEntry) : ℕ × Bytes := (entry.parentInode, entry.name)

/-- How entries are cut into shards. -/
def entryShards : Cutting NamespaceEntry (ℕ × Bytes) :=
  shardRanges NamespaceEntry.key (Prod.Lex (· < ·) (· < ·))
    (fun key => entryShardKeyHash key.1 key.2)
    fun entry => (entryRecordLength entry.name.length).toOption.getD NAMESPACE_ENTRY_HEADER_BYTES

theorem sorted_root (root : NamespaceRoot ObjectId) :
    inodeShards.Sorted root.inodes ∧ entryShards.Sorted root.entries := by
  have validated := root.validated
  simp only [validateNamespace, bind_ok, require_ok, not_or, not_not] at validated
  rcases validated with ⟨_, ⟨_, _, _, _, inodes, entries⟩, _⟩
  have keys : (root.entries.map NamespaceEntry.key).IsChain (Prod.Lex (· < ·) (· < ·)) :=
    List.isChain_map _ |>.mpr (entries.imp fun _ _ => Prod.lex_def.mpr)
  constructor
  · simpa [Cutting.Sorted, inodeShards, shardRanges, List.pairwise_map] using inodes.pairwise
  · simpa [Cutting.Sorted, entryShards, shardRanges, List.pairwise_map] using keys.pairwise

/-- Between two keys that start a shard and stand in both roots, equal records give equal shards; a
shard that only the new root has lies between any two such keys around it, where the roots
differ. -/
theorem shards_local (old new : NamespaceRoot ObjectId) :
    (∀ low high, inodeShards.Spans low high old.inodes → inodeShards.Spans low high new.inodes →
      inodeShards.Local low high old.inodes new.inodes) ∧
    (∀ low high, entryShards.Spans low high old.entries → entryShards.Spans low high new.entries →
      entryShards.Local low high old.entries new.entries) ∧
    (∀ shard ∈ inodeShards.runs new.inodes, inodeShards.Bounded shard) ∧
    ∀ shard ∈ entryShards.runs new.entries, entryShards.Bounded shard :=
  ⟨fun _ _ => Cutting.local_of_spans (sorted_root old).1 (sorted_root new).1,
    fun _ _ => Cutting.local_of_spans (sorted_root old).2 (sorted_root new).2,
    Cutting.runs_bounded, Cutting.runs_bounded⟩

def sampleLink (inode : ℕ) : DurableInode Unit where
  inode
  kind := .symlink
  mode := 0o777
  uid := 0
  gid := 0
  linkCount := 1
  mutationSequence := 1
  logicalSize := 1
  manifestRoot := none
  fileFlags := 0
  xattrs := []
  times := ⟨⟨0, 0⟩, ⟨0, 0⟩, ⟨0, 0⟩⟩
  symlinkTarget := some [0x61]
  regular := by decide

def sampleMetadata : DurableRootMetadata :=
  ⟨0o755, 0, 0, 0, [], ⟨⟨0, 0⟩, ⟨0, 0⟩, ⟨0, 0⟩⟩⟩

/-- Inodes 558 and 4440 start shards of both roots. The new inode 600 is between them, and what is
behind them stays. -/
theorem shards_local_around_new_inode : ∃ old new : NamespaceRoot Unit,
    old.inodes = [sampleLink 558, sampleLink 4440, sampleLink 5000] ∧
      new.inodes = [sampleLink 558, sampleLink 600, sampleLink 4440, sampleLink 5000] ∧
      inodeShards.Local (some 558) (some 4440) old.inodes new.inodes ∧
      inodeShards.Local (some 4440) none old.inodes new.inodes := by
  let old : NamespaceRoot Unit := ⟨5001, 5001, 1, sampleMetadata,
    [sampleLink 558, sampleLink 4440, sampleLink 5000],
    [⟨1, 558, [0x61]⟩, ⟨1, 4440, [0x62]⟩, ⟨1, 5000, [0x63]⟩], by decide⟩
  let new : NamespaceRoot Unit := ⟨5001, 5001, 2, sampleMetadata,
    [sampleLink 558, sampleLink 600, sampleLink 4440, sampleLink 5000],
    [⟨1, 558, [0x61]⟩, ⟨1, 4440, [0x62]⟩, ⟨1, 5000, [0x63]⟩, ⟨1, 600, [0x64]⟩], by decide⟩
  have spans := (shards_local old new).1
  refine ⟨old, new, rfl, rfl, spans _ _ ?_ ?_, spans _ _ ?_ ?_⟩
  all_goals exact ⟨by decide, by decide, by decide⟩

/-- A key at which no record stands ends no shard: the shard of inode 558 runs on past 4440. -/
theorem shard_passes_absent_key :
    startsShard (inodeShardKeyHash 558) ∧ startsShard (inodeShardKeyHash 4440) ∧
    ∃ old new : NamespaceRoot Unit, old.inodes = [sampleLink 558] ∧
      new.inodes = [sampleLink 558, sampleLink 5000] ∧
      ∀ shard ∈ inodeShards.runs old.inodes, shard ∉ inodeShards.runs new.inodes := by
  refine ⟨by decide, by decide, ⟨5001, 5001, 1, sampleMetadata, [sampleLink 558],
      [⟨1, 558, [0x61]⟩], by decide⟩, ⟨5001, 5001, 2, sampleMetadata,
      [sampleLink 558, sampleLink 5000], [⟨1, 558, [0x61]⟩, ⟨1, 5000, [0x62]⟩], by decide⟩, rfl,
      rfl, by decide⟩

end Fastdup.Format
