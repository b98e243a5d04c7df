import Fastdup.Format.Metadata
import Fastdup.Library.Bytes
import Mathlib.Data.List.Chain
import Mathlib.Data.List.Sort

/-!
# Namespace Roots

A Namespace Root is one immutable version of the whole namespace: its inodes, sorted by
number, and its directory entries, sorted by parent and name. The root inode is implicit. Two
numbers govern how inode numbers are handed out: every number of the root is below the
allocation cursor, and the cursor never passes the end of the reservation.

Inodes, entries and roots are only built by checked constructors and decoders; the structures
carry what these check.
-/

namespace Fastdup.Format

open Library Checked

def DURABLE_INODE_BYTES : ℕ := 96
def NAMESPACE_ROOT_HEADER_BYTES : ℕ := 128
def NAMESPACE_ENTRY_HEADER_BYTES : ℕ := 24
def XATTR_RECORD_HEADER_BYTES : ℕ := 24
def POSIX_METADATA_RECORD_HEADER_BYTES : ℕ := 64
def MAX_NAME_BYTES : ℕ := 255
def ROOT_INODE : ℕ := 1

/-- The kinds of inode that a generation stores. -/
inductive DurableInodeKind where
  | regular
  | directory
  | symlink
  deriving DecidableEq, Repr

/-- A stored time. -/
structure DurableTimestamp where
  seconds : ℤ
  nanoseconds : ℕ
  deriving DecidableEq, Repr

/-- The three times of an inode. -/
structure DurableTimes where
  atime : DurableTimestamp
  mtime : DurableTimestamp
  ctime : DurableTimestamp
  deriving DecidableEq, Repr

/-- A stored extended attribute. -/
structure DurableXattr where
  name : Bytes
  value : Bytes
  deriving DecidableEq

/-- What a generation stores of the root directory. -/
structure DurableRootMetadata where
  mode : ℕ
  uid : ℕ
  gid : ℕ
  fileFlags : ℕ
  xattrs : List DurableXattr
  times : DurableTimes
  deriving DecidableEq

/-- One version of an inode. Exactly the regular files have a Manifest. -/
structure DurableInode (ObjectId : Type) where
  inode : ℕ
  kind : DurableInodeKind
  mode : ℕ
  uid : ℕ
  gid : ℕ
  linkCount : ℕ
  mutationSequence : ℕ
  logicalSize : ℕ
  manifestRoot : Option ObjectId
  fileFlags : ℕ
  xattrs : List DurableXattr
  times : DurableTimes
  symlinkTarget : Option Bytes
  regular : kind = .regular ↔ manifestRoot.isSome = true
  deriving DecidableEq

/-- A stored directory entry. -/
structure NamespaceEntry where
  parentInode : ℕ
  targetInode : ℕ
  name : Bytes
  deriving DecidableEq

variable {ObjectId : Type}

/-- The order of the entries: by parent, then by name. -/
def NamespaceEntry.Precedes (left right : NamespaceEntry) : Prop :=
  left.parentInode < right.parentInode ∨
    left.parentInode = right.parentInode ∧ left.name < right.name

instance (left right : NamespaceEntry) : Decidable (left.Precedes right) :=
  inferInstanceAs (Decidable (_ ∨ _))

theorem NamespaceEntry.Precedes.asymm {left right : NamespaceEntry} (before : left.Precedes right) :
    ¬ right.Precedes left := by
  intro after
  rcases before with below | ⟨same, named⟩
  · rcases after with above | ⟨same, _⟩
    · exact lt_asymm below above
    · exact below.ne' same
  · rcases after with above | ⟨_, named'⟩
    · exact above.ne' same
    · exact List.lt_asymm named named'

instance : IsTrans NamespaceEntry NamespaceEntry.Precedes where
  trans first second third earlier later := by
    rcases earlier with below | ⟨same, named⟩
    · rcases later with below' | ⟨same', _⟩
      · exact .inl (below.trans below')
      · exact .inl (same' ▸ below)
    · rcases later with below' | ⟨same', named'⟩
      · exact .inl (same ▸ below')
      · exact .inr ⟨same.trans same', List.lt_trans named named'⟩

/-- A record header with its variable part, padded to eight bytes. -/
def alignedRecordLength (header length : ℕ) : Except MetadataFormatError ℕ := do
  let unaligned ← checkedAdd .arithmeticOverflow header length
  let padded ← checkedAdd .arithmeticOverflow unaligned 7
  return padded / 8 * 8

/-- Records are padded to eight bytes. -/
def entryRecordLength (nameLength : ℕ) : Except MetadataFormatError ℕ :=
  alignedRecordLength NAMESPACE_ENTRY_HEADER_BYTES nameLength

def posixMetadataRecordLength (targetLength : ℕ) : Except MetadataFormatError ℕ :=
  alignedRecordLength POSIX_METADATA_RECORD_HEADER_BYTES targetLength

def xattrRecordLength (nameLength valueLength : ℕ) : Except MetadataFormatError ℕ := do
  let named ← checkedAdd .arithmeticOverflow XATTR_RECORD_HEADER_BYTES nameLength
  alignedRecordLength named valueLength

/-- The lengths of records one after the other, checked. -/
def addRecordLengths {α : Type} (size : α → Except MetadataFormatError ℕ) (length : ℕ)
    (records : List α) : Except MetadataFormatError ℕ :=
  records.foldlM
    (fun total record => do
      let next ← size record
      checkedAdd .arithmeticOverflow total next)
    length

def DurableXattr.recordLength (xattr : DurableXattr) : Except MetadataFormatError ℕ :=
  xattrRecordLength xattr.name.length xattr.value.length

def DurableInode.posixRecordLength (inode : DurableInode ObjectId) :
    Except MetadataFormatError ℕ :=
  posixMetadataRecordLength (inode.symlinkTarget.elim 0 List.length)

/-- The length of the canonical state, which has to be a machine number. -/
def payloadLength (rootMetadata : DurableRootMetadata) (entries : List NamespaceEntry)
    (inodes : List (DurableInode ObjectId)) : Except MetadataFormatError ℕ := do
  require (inodes.length * DURABLE_INODE_BYTES ≥ 2 ^ 64) .arithmeticOverflow
  let header ← checkedAdd .arithmeticOverflow NAMESPACE_ROOT_HEADER_BYTES
    (inodes.length * DURABLE_INODE_BYTES)
  let entriesEnd ← addRecordLengths (fun entry => entryRecordLength entry.name.length) header
    entries
  let rootXattrs ← addRecordLengths DurableXattr.recordLength entriesEnd rootMetadata.xattrs
  let xattrs ← addRecordLengths DurableXattr.recordLength rootXattrs
    (inodes.flatMap DurableInode.xattrs)
  let rootPosix ← posixMetadataRecordLength 0
  let posix ← checkedAdd .arithmeticOverflow xattrs rootPosix
  addRecordLengths DurableInode.posixRecordLength posix inodes

/-- An entry has inodes and a proper name. -/
def validateEntryFields (entry : NamespaceEntry) : Except MetadataFormatError Unit :=
  require (entry.parentInode = 0 ∨ entry.targetInode ≤ ROOT_INODE ∨ entry.name = [] ∨
    entry.name.length > MAX_NAME_BYTES ∨ entry.name = [0x2e] ∨ entry.name = [0x2e, 0x2e] ∨
    0 ∈ entry.name ∨ 0x2f ∈ entry.name) .invalidPayload

/-- The position of an inode number. The source searches by bisection, which on strictly
sorted inodes finds the only position there is. -/
def inodeIndex (inodes : List (DurableInode ObjectId)) (inode : ℕ) : Option ℕ :=
  inodes.findIdx? fun candidate => candidate.inode == inode

def kindAt (inodes : List (DurableInode ObjectId)) (index : ℕ) : Option DurableInodeKind :=
  inodes[index]?.map DurableInode.kind

/-- The links into each inode and the directories below each inode, by position. -/
structure LinkTally where
  observedLinks : List ℕ
  directoryChildren : List ℕ

/-- A 32-bit counter that reports overflow. -/
def incrementAt (counters : List ℕ) (index : ℕ) : Except MetadataFormatError (List ℕ) := do
  require (counters.getD index 0 + 1 ≥ 2 ^ 32) .arithmeticOverflow
  return counters.modify index (· + 1)

/-- The position of a parent that is not the root; it has to be a directory. -/
def parentIndex (inodes : List (DurableInode ObjectId)) (parent : ℕ) :
    Except MetadataFormatError (Option ℕ) :=
  if parent = ROOT_INODE then .ok none
  else
    match inodeIndex inodes parent with
    | none => .error .invalidPayload
    | some index =>
      if kindAt inodes index = some .directory then .ok (some index) else .error .invalidPayload

/-- A child directory counts as a link of its parent. -/
def tallyDirectoryChild (inodes : List (DurableInode ObjectId)) (parent : Option ℕ) (target : ℕ)
    (children : List ℕ) : Except MetadataFormatError (List ℕ) :=
  match parent with
  | some parent =>
    if kindAt inodes target = some .directory then incrementAt children parent else .ok children
  | none => .ok children

/-- Checks an entry and counts it for both of its ends. -/
def tallyEntry (inodes : List (DurableInode ObjectId)) (tally : LinkTally)
    (entry : NamespaceEntry) : Except MetadataFormatError LinkTally := do
  validateEntryFields entry
  let parent ← parentIndex inodes entry.parentInode
  match inodeIndex inodes entry.targetInode with
  | none => .error .invalidPayload
  | some target =>
    let observedLinks ← incrementAt tally.observedLinks target
    let directoryChildren ← tallyDirectoryChild inodes parent target tally.directoryChildren
    return { observedLinks, directoryChildren }

/-- The link count of an inode has to be the one its entries give it. -/
def validateLinks (tally : LinkTally) (index : ℕ) (inode : DurableInode ObjectId) :
    Except MetadataFormatError Unit :=
  let incoming := tally.observedLinks.getD index 0
  match inode.kind with
  | .directory => do
      let children := tally.directoryChildren.getD index 0
      require (2 + children ≥ 2 ^ 32) .arithmeticOverflow
      require (incoming ≠ 1 ∨ inode.linkCount ≠ 2 + children) .invalidPayload
  | .regular => require (incoming ≠ inode.linkCount) .invalidPayload
  | .symlink => require (incoming ≠ inode.linkCount) .invalidPayload

/-- One entry of a visited directory: its target is marked, and a directory is visited next. A
directory that is reached twice is refused. -/
def reachEntry (inodes : List (DurableInode ObjectId)) (state : List ℕ × List ℕ)
    (entry : NamespaceEntry) : Except MetadataFormatError (List ℕ × List ℕ) :=
  match inodeIndex inodes entry.targetInode with
  | none => .error .invalidPayload
  | some index =>
    let isDirectory := decide (kindAt inodes index = some .directory)
    if index ∈ state.1 then
      if isDirectory then .error .invalidPayload else .ok state
    else .ok (index :: state.1, if isDirectory then entry.targetInode :: state.2 else state.2)

/-- Visits the pending directories. Every directory is pushed at most once, so the number of
inodes bounds the visits. -/
def reachableInodes (inodes : List (DurableInode ObjectId)) (entries : List NamespaceEntry) :
    ℕ → List ℕ → List ℕ → Except MetadataFormatError (List ℕ)
  | _, reached, [] => .ok reached
  | 0, _, _ :: _ => .error .invalidPayload
  | fuel + 1, reached, parent :: pending => do
      -- The entries are sorted by parent, so those of one directory are a contiguous run.
      let children := (entries.dropWhile fun entry => entry.parentInode < parent).takeWhile
        fun entry => entry.parentInode == parent
      let (reached, pending) ← children.foldlM (reachEntry inodes) (reached, pending)
      reachableInodes inodes entries fuel reached pending

/-- The checks of a namespace before it is encoded and after it is decoded. -/
def validateNamespace (inodeReservationEnd inodeAllocationCursor : ℕ)
    (inodes : List (DurableInode ObjectId)) (entries : List NamespaceEntry) :
    Except MetadataFormatError Unit := do
  require (inodeReservationEnd < 2 ∨ inodeAllocationCursor < 2 ∨
    inodeAllocationCursor > inodeReservationEnd ∨
    (∃ last ∈ inodes.getLast?, last.inode ≥ inodeAllocationCursor) ∨
    ¬ (inodes.map DurableInode.inode).IsChain (· < ·) ∨
    ¬ entries.IsChain NamespaceEntry.Precedes) .invalidPayload
  let tally ← entries.foldlM (tallyEntry inodes)
    { observedLinks := List.replicate inodes.length 0,
      directoryChildren := List.replicate inodes.length 0 }
  inodes.zipIdx.forM fun (inode, index) => validateLinks tally index inode
  let reached ← reachableInodes inodes entries (inodes.length + 1) [] [ROOT_INODE]
  require (reached.length ≠ inodes.length) .invalidPayload

/-- The whole namespace of a generation, with its allocation cursors. -/
structure NamespaceRoot (ObjectId : Type) where
  inodeReservationEnd : ℕ
  inodeAllocationCursor : ℕ
  namespaceMutationSequence : ℕ
  rootMetadata : DurableRootMetadata
  inodes : List (DurableInode ObjectId)
  entries : List NamespaceEntry
  validated : validateNamespace inodeReservationEnd inodeAllocationCursor inodes entries = .ok ()
  deriving DecidableEq

namespace NamespaceRoot

def sortedInodes (inodes : List (DurableInode ObjectId)) : List (DurableInode ObjectId) :=
  inodes.insertionSort fun left right => left.inode ≤ right.inode

def sortedEntries (entries : List NamespaceEntry) : List NamespaceEntry :=
  entries.insertionSort fun left right => ¬ right.Precedes left

/-- Sorts the records and checks the whole. -/
def newWithRootMetadata (inodeReservationEnd inodeAllocationCursor namespaceMutationSequence : ℕ)
    (rootMetadata : DurableRootMetadata) (inodes : List (DurableInode ObjectId))
    (entries : List NamespaceEntry) : Except MetadataFormatError (NamespaceRoot ObjectId) :=
  match validated : validateNamespace inodeReservationEnd inodeAllocationCursor
      (sortedInodes inodes) (sortedEntries entries) with
  | .error error => .error error
  | .ok _ => do
      let _ ← payloadLength rootMetadata (sortedEntries entries) (sortedInodes inodes)
      return { inodeReservationEnd, inodeAllocationCursor, namespaceMutationSequence, rootMetadata,
               inodes := sortedInodes inodes, entries := sortedEntries entries, validated }

/-- The inodes that have a Manifest. -/
def fileInodes (root : NamespaceRoot ObjectId) : List (DurableInode ObjectId) :=
  root.inodes.filter fun inode => inode.kind == .regular

end NamespaceRoot

end Fastdup.Format
