import Fastdup.Library.LinkGraph.Search
import Fastdup.Posix.DenseFile
import Fastdup.Posix.InodeMetadata

/-!
# The Namespace

The catalog of the live file system: inodes, directory entries, open handles and the references
that lookups have handed out. An inode whose last name is removed stays in the catalog while a
handle or a lookup refers to it.

The operations run under the catalog lock, one after the other. What they ask of their
surroundings (the clock, capacity and quota reservations, share and authority policies) is part
of the request. An assertion that fails ends the run.
-/

namespace Fastdup.Posix

open Library Checked

def ROOT_INODE : ℕ := 1
def MAX_DIRECTORY_ENTRIES_PER_REPLY : ℕ := 256
def MAXIMUM_SYMLINK_TARGET_BYTES : ℕ := 4096

/-- The limits the catalog is mounted with. -/
structure NamespaceConfig where
  maximumNameBytes : ℕ
  maximumFileBytes : ℕ

/-- Who makes the request. -/
structure RequestContext where
  uid : ℕ
  gid : ℕ
  deriving DecidableEq, Repr

/-- A time as the requests carry it. -/
structure PosixTimestamp where
  seconds : ℤ
  nanoseconds : ℕ
  deriving DecidableEq, Repr

/-- The order of times, seconds first. -/
def PosixTimestamp.NotAfter (left right : PosixTimestamp) : Prop :=
  left.seconds < right.seconds ∨ left.seconds = right.seconds ∧ left.nanoseconds ≤ right.nanoseconds

instance (left right : PosixTimestamp) : Decidable (left.NotAfter right) :=
  inferInstanceAs (Decidable (_ ∨ _))

/-- The three times of an inode. -/
structure PosixTimes where
  atime : PosixTimestamp
  mtime : PosixTimestamp
  ctime : PosixTimestamp
  deriving DecidableEq, Repr

/-- The content of a file, and whether it has changed since the last cut. -/
structure VersionedFile where
  cells : DenseFile
  activeMutations : Bool
  deriving DecidableEq, Repr

/-- An inode of the catalog with its current data. -/
structure Inode where
  kind : FileKind
  mode : ℕ
  uid : ℕ
  gid : ℕ
  linkCount : ℕ
  mutationSequence : ℕ
  metadata : InodeMetadata
  times : PosixTimes
  symlinkTarget : Option Bytes
  data : VersionedFile
  deriving DecidableEq

/-- What a file is opened for. -/
structure OpenOptions where
  access : AccessMode
  append : Bool
  deriving DecidableEq, Repr

/-- An open file. -/
structure OpenHandle where
  inode : ℕ
  options : OpenOptions
  deriving DecidableEq, Repr

/-- The place of a directory entry. Entries are sorted by parent and then by name. -/
structure EntryKey where
  parent : ℕ
  name : Bytes
  deriving DecidableEq, Repr

namespace EntryKey

instance : LT EntryKey where
  lt left right := left.parent < right.parent ∨ left.parent = right.parent ∧ left.name < right.name

instance : DecidableLT EntryKey := fun _ _ => inferInstanceAs (Decidable (_ ∨ _))

instance : Std.Irrefl (fun left right : EntryKey => left < right) where
  irrefl key := by
    rintro (below | ⟨_, below⟩)
    · exact Nat.lt_irrefl _ below
    · exact List.lt_irrefl _ below

instance : Trans (fun left right : EntryKey => left < right)
    (fun left right : EntryKey => left < right) (fun left right : EntryKey => left < right) where
  trans := by
    rintro first second third (below | ⟨same, below⟩) (below' | ⟨same', below'⟩)
    · exact .inl (Nat.lt_trans below below')
    · exact .inl (same' ▸ below)
    · exact .inl (same ▸ below')
    · exact .inr ⟨same.trans same', List.lt_trans below below'⟩

instance : Std.Trichotomous (fun left right : EntryKey => left < right) where
  trichotomous left right notBefore notAfter := by
    have parent : left.parent = right.parent := by
      apply Nat.le_antisymm
      · exact Nat.le_of_not_lt fun above => notAfter (.inl above)
      · exact Nat.le_of_not_lt fun below => notBefore (.inl below)
    have name : left.name = right.name := by
      apply List.le_antisymm
      · exact List.not_lt.mp fun above => notAfter (.inr ⟨parent.symm, above⟩)
      · exact List.not_lt.mp fun below => notBefore (.inr ⟨parent, below⟩)
    cases left
    cases right
    cases parent
    cases name
    rfl

end EntryKey

/-- What a commit takes of a regular file. -/
structure CommitInode where
  inode : ℕ
  mode : ℕ
  uid : ℕ
  gid : ℕ
  linkCount : ℕ
  mutationSequence : ℕ
  metadata : InodeMetadata
  times : PosixTimes
  cells : DenseFile
  deriving DecidableEq

/-- What a commit takes of a directory. -/
structure CommitDirectory where
  inode : ℕ
  mode : ℕ
  uid : ℕ
  gid : ℕ
  linkCount : ℕ
  mutationSequence : ℕ
  metadata : InodeMetadata
  times : PosixTimes
  deriving DecidableEq

/-- What a commit takes of a symbolic link. -/
structure CommitSymlink where
  inode : ℕ
  uid : ℕ
  gid : ℕ
  linkCount : ℕ
  mutationSequence : ℕ
  times : PosixTimes
  target : Bytes
  deriving DecidableEq

/-- The namespace as a commit freezes it. -/
structure NamespaceCommit where
  inodeReservationEnd : ℕ
  inodeAllocationCursor : ℕ
  namespaceMutationSequence : ℕ
  root : CommitDirectory
  inodes : List CommitInode
  directories : List CommitDirectory
  symlinks : List CommitSymlink
  entries : List (EntryKey × ℕ)
  deriving DecidableEq

/-- The state behind the catalog lock. -/
structure Catalog where
  nextInode : ℕ
  inodeReservationEnd : ℕ
  nextHandle : ℕ
  committedNamespaceMutationSequence : ℕ
  inflightCommit : Option NamespaceCommit
  inodes : SortedMap ℕ Inode
  entries : SortedMap EntryKey ℕ
  handles : SortedMap ℕ OpenHandle
  lookupCounts : SortedMap ℕ ℕ
  deriving DecidableEq

/-- Who may change the flags of an inode and hand it over. -/
structure ImmutabilityAuthority where
  authorityUid : ℕ
  authorityGid : ℕ
  writerUid : ℕ
  writerGid : ℕ
  repositoryUid : ℕ
  repositoryGid : ℕ
  deriving DecidableEq, Repr

/-- What an operation learns from its surroundings. -/
structure Ambient where
  now : PosixTimestamp
  /-- Why commit capacity is refused. -/
  capacity : Option PosixError
  /-- Why logical quota is refused. -/
  quota : Option PosixError
  /-- Why bytes cannot be read or kept. -/
  memory : Option PosixError
  /-- Why a range cannot be cloned. -/
  prepared : Option PosixError
  /-- The inode and the directory have the same quota, reduction and immutability domains. -/
  sameDomain : Bool
  /-- The rules by inode, as the request finds them. -/
  immutabilityAuthority : SortedMap ℕ ImmutabilityAuthority
  deriving DecidableEq

/-- The memory, capacity and quota reservations of a request, as the environment answers them. -/
def reserve : Option PosixError → Except Failure Unit
  | none => .ok ()
  | some error => .error (.refused error)

/-- The next sequence number, in 64 bits. -/
def next (sequence : ℕ) : Except Failure ℕ :=
  checkedAdd (.refused .noSpace) sequence 1

/-- One more link, counted in 32 bits. -/
def nextLinks (linkCount : ℕ) : Except Failure ℕ := do
  refuse (linkCount + 1 ≥ 2 ^ 32) .noSpace
  return linkCount + 1

namespace Inode

def isImmutable (inode : Inode) : Bool :=
  inode.metadata.isImmutable

/-- The inode after a change of its metadata, which for a file is a mutation of this epoch. -/
def advance (sequence : ℕ) (inode : Inode) : Inode :=
  { inode with
    mutationSequence := sequence
    data := { inode.data with
              activeMutations := inode.data.activeMutations || inode.kind = .regular } }

/-- A change of the inode that is not one of its content. -/
def changed (now : PosixTimestamp) (inode : Inode) : Inode :=
  { inode with times := { inode.times with ctime := now } }

/-- The file with another content. -/
def written (now : PosixTimestamp) (sequence : ℕ) (cells : DenseFile) (inode : Inode) : Inode :=
  { inode with
    data := { cells, activeMutations := true }
    mutationSequence := sequence
    times := { inode.times with mtime := now, ctime := now } }

end Inode

def newFile : VersionedFile where
  cells := []
  activeMutations := false

def newTimes (now : PosixTimestamp) : PosixTimes where
  atime := now
  mtime := now
  ctime := now

namespace Catalog

variable (config : NamespaceConfig) (ambient : Ambient) (catalog : Catalog)

def edges : List (Edge ℕ Bytes) :=
  catalog.entries.pairs.map fun entry =>
    { parent := entry.1.parent, name := entry.1.name, target := entry.2 }

/-- Changes an inode that exists. -/
def update (id : ℕ) (change : Inode → Inode) : Catalog :=
  match catalog.inodes.get? id with
  | none => catalog
  | some inode => { catalog with inodes := catalog.inodes.insert id (change inode) }

/-- The root carries the sequence number of the namespace. -/
def rootMutationSequence : ℕ :=
  (catalog.inodes.get? ROOT_INODE).elim 0 Inode.mutationSequence

def nextRootMutationSequence : Except Failure ℕ :=
  next catalog.rootMutationSequence

def installRootMutationSequence (sequence : ℕ) : Catalog :=
  catalog.update ROOT_INODE fun root => { root with mutationSequence := sequence }

/-- The next sequence numbers of the namespace and of an inode. The root has the sequence number
of the namespace. -/
def nextMutationSequences (id sequence : ℕ) : Except Failure (ℕ × ℕ) := do
  let inodeSequence ← next sequence
  if id = ROOT_INODE then return (inodeSequence, inodeSequence)
  else do
    let namespaceSequence ← catalog.nextRootMutationSequence
    return (namespaceSequence, inodeSequence)

/-- Installs a changed inode with the sequence numbers drawn for it. -/
def mutate (id : ℕ) (change : Inode → Inode) (sequences : ℕ × ℕ) : Catalog :=
  let changed := catalog.update id fun inode => (change inode).advance sequences.2
  if id = ROOT_INODE then changed else changed.installRootMutationSequence sequences.1

/-- What may stand between two slashes of a path. -/
def validateComponent (name : Bytes) : Except Failure Unit := do
  refuse (name.length > config.maximumNameBytes) .nameTooLong
  refuse (name = [] ∨ name = [0x2e] ∨ name = [0x2e, 0x2e] ∨ 0x2f ∈ name ∨ 0 ∈ name) .invalidName

def validateDirectory (id : ℕ) : Except Failure Unit := do
  let inode ← found .noEntry (catalog.inodes.get? id)
  refuse (inode.kind ≠ .directory) .notDirectory

def validateMutableDirectory (id : ℕ) : Except Failure Unit := do
  let inode ← found .noEntry (catalog.inodes.get? id)
  refuse (inode.kind ≠ .directory) .notDirectory
  refuse (inode.isImmutable) .permissionDenied

/-- The next inode number, within the reservation. -/
def allocateInode : Except Failure (ℕ × Catalog) := do
  refuse (catalog.nextInode ≥ catalog.inodeReservationEnd) .noSpace
  let nextInode ← next catalog.nextInode
  return (catalog.nextInode, { catalog with nextInode })

/-- The references that the kernel holds from earlier replies. -/
def lookupCount (id : ℕ) : ℕ :=
  (catalog.lookupCounts.get? id).getD 0

/-- Counts the references that a reply hands out. The source refuses with no space when a 64-bit
counter is full; the model counts on. -/
def acquireLookup (id count : ℕ) : Catalog :=
  { catalog with lookupCounts := catalog.lookupCounts.insert id (catalog.lookupCount id + count) }

/-- Opens a handle under the next number. The source refuses with no space after the last 64-bit
number; the model counts on. -/
def addHandle (id : ℕ) (options : OpenOptions) : Catalog :=
  { catalog with
    nextHandle := catalog.nextHandle + 1
    handles := catalog.handles.insert catalog.nextHandle { inode := id, options } }

def hasHandle (id : ℕ) : Bool :=
  catalog.handles.pairs.any fun open_ => open_.2.inode = id

/-- Drops an inode without a name once nothing refers to it. -/
def dropOrphan (id : ℕ) : Catalog :=
  if (catalog.inodes.get? id).any (·.linkCount = 0) ∧ catalog.lookupCount id = 0 ∧
      ¬ catalog.hasHandle id then
    { catalog with inodes := catalog.inodes.remove id }
  else catalog

/-- Drops a removed directory once no lookup refers to it. -/
def dropDirectory (id : ℕ) : Catalog :=
  if catalog.lookupCount id = 0 then { catalog with inodes := catalog.inodes.remove id }
  else catalog

def insertEntry (key : EntryKey) (id : ℕ) : Catalog :=
  { catalog with entries := catalog.entries.insert key id }

def removeEntry (key : EntryKey) : Catalog :=
  { catalog with entries := catalog.entries.remove key }

def isEmptyDirectory (id : ℕ) : Bool :=
  catalog.entries.pairs.all fun entry => entry.1.parent ≠ id

/-- Puts a new inode into the catalog, with its first name and the lookup of the reply. -/
def addInode (key : EntryKey) (id : ℕ) (inode : Inode) : Catalog :=
  { catalog with
    inodes := catalog.inodes.insert id inode
    lookupCounts := catalog.lookupCounts.insert id 1
    entries := catalog.entries.insert key id }

/-- Finds a name and counts the reply as a reference. -/
def lookup (parent : ℕ) (name : Bytes) : Except Failure Catalog := do
  validateComponent config name
  catalog.validateDirectory parent
  let id ← found .noEntry (catalog.entries.get? { parent, name })
  let inode ← expect (catalog.inodes.get? id)
  assertThat (inode.linkCount > 0)
  return catalog.acquireLookup id 1

/-- A directory entry with the offset after it. -/
structure ListedEntry where
  inode : ℕ
  name : Bytes
  nextOffset : ℕ
  deriving DecidableEq

/-- The directory that a directory is listed under. -/
def parentOf (id : ℕ) : Except Failure ℕ :=
  if id = ROOT_INODE then .ok ROOT_INODE
  else do
    let entry ← expect (catalog.entries.pairs.find? fun entry => entry.2 = id)
    return entry.1.parent

def listedSelf (id start : ℕ) : List ListedEntry :=
  if start = 0 then [{ inode := id, name := [0x2e], nextOffset := 1 }] else []

def listedParent (id start : ℕ) : Except Failure (List ListedEntry) :=
  if start ≤ 1 then do
    let parent ← catalog.parentOf id
    let _ ← expect (catalog.inodes.get? parent)
    return [{ inode := parent, name := [0x2e, 0x2e], nextOffset := 2 }]
  else .ok []

/-- The children in name order, each with the offset that continues after it. -/
def listedChildren (id : ℕ) : List ListedEntry :=
  (catalog.entries.pairs.filter fun entry => entry.1.parent = id).zipIdx.map fun indexed =>
    { inode := indexed.1.2, name := indexed.1.1.name, nextOffset := indexed.2 + 3 }

/-- The directory itself, its parent and its children from the position `start` on. -/
def listed (id start : ℕ) : Except Failure (List ListedEntry) := do
  let parent ← catalog.listedParent id start
  let dots := listedSelf id start ++ parent
  let shown := ((catalog.listedChildren id).drop (start - 2)).take
    (MAX_DIRECTORY_ENTRIES_PER_REPLY - dots.length)
  shown.forM fun entry => do
    let _ ← expect (catalog.inodes.get? entry.inode)
  return dots ++ shown

/-- One reply of a directory listing, from the offset on. -/
def readDirectory (id : ℕ) (offset : ℤ) (acquireLookups : Bool) :
    Except Failure (Catalog × List ListedEntry) := do
  refuse (offset < 0) .invalidArgument
  catalog.validateDirectory id
  let entries ← catalog.listed id offset.toNat
  if acquireLookups then
    return (entries.foldl (fun catalog entry => catalog.acquireLookup entry.inode 1) catalog,
      entries)
  else return (catalog, entries)

/-- Gives back references; the last one may drop the inode. -/
def forget (id lookupCount : ℕ) : Catalog :=
  if lookupCount = 0 then catalog
  else
    match catalog.lookupCounts.get? id with
    | none => catalog
    | some current =>
      let counts := if lookupCount ≥ current then catalog.lookupCounts.remove id
        else catalog.lookupCounts.insert id (current - lookupCount)
      { catalog with lookupCounts := counts }.dropOrphan id

/-- The sequence number of a truncation that changes something. -/
def truncation (inode : Inode) (truncate : Bool) : Except Failure (Option ℕ) :=
  if truncate ∧ inode.data.cells.length ≠ 0 then do
    let sequence ← next inode.mutationSequence
    return some sequence
  else .ok none

/-- What may be opened, and for what. -/
def validateOpen (inode : Inode) (access : AccessMode) (truncate : Bool) : Except Failure Unit := do
  refuse (inode.kind = .directory) .isDirectory
  refuse (inode.kind ≠ .regular) .invalidArgument
  refuse ((access ≠ .readOnly ∨ truncate) ∧ inode.isImmutable) .permissionDenied
  refuse (truncate ∧ access = .readOnly) .badHandle

def truncated (id : ℕ) : Option ℕ → Catalog
  | none => catalog
  | some sequence => catalog.update id (Inode.written ambient.now sequence [])

def reserveTruncation : Option ℕ → Except Failure Unit
  | none => .ok ()
  | some _ => reserve ambient.quota

/-- Opens a file, which `truncate` also empties. -/
def openFile (id : ℕ) (options : OpenOptions) (truncate : Bool) : Except Failure Catalog := do
  let inode ← found .noEntry (catalog.inodes.get? id)
  validateOpen inode options.access truncate
  let sequence ← truncation inode truncate
  reserveTruncation ambient sequence
  return (truncated ambient catalog id sequence).addHandle id options

/-- Closes a handle; the last one may drop the inode. -/
def release (id handle : ℕ) : Except Failure Catalog := do
  let file ← found .badHandle (catalog.handles.get? handle)
  refuse (file.inode ≠ id) .badHandle
  let _ ← expect (catalog.inodes.get? id)
  return { catalog with handles := catalog.handles.remove handle }.dropOrphan id

/-- The arguments of a create. -/
structure CreateRequest where
  parent : ℕ
  name : Bytes
  mode : ℕ
  umask : ℕ
  options : OpenOptions
  exclusive : Bool
  truncate : Bool
  deriving DecidableEq

/-- A create of an existing name opens the file. -/
def openExistingForCreate (id : ℕ) (request : CreateRequest) : Except Failure Catalog := do
  let inode ← expect (catalog.inodes.get? id)
  validateOpen inode request.options.access request.truncate
  let sequence ← truncation inode request.truncate
  reserveTruncation ambient sequence
  assertThat (sequence = none ∨ inode.linkCount > 0)
  return ((truncated ambient catalog id sequence).addHandle id request.options).acquireLookup id 1

/-- A new inode with no more than its first name. -/
def newInode (context : RequestContext) (kind : FileKind) (mode linkCount : ℕ)
    (metadata : InodeMetadata) (symlinkTarget : Option Bytes) : Inode where
  kind := kind
  mode := mode
  uid := context.uid
  gid := context.gid
  linkCount := linkCount
  mutationSequence := 0
  metadata := metadata
  times := newTimes ambient.now
  symlinkTarget := symlinkTarget
  data := newFile

def withFile (key : EntryKey) (id : ℕ) (inode : Inode) (options : OpenOptions) (sequence : ℕ) :
    Catalog :=
  ((catalog.addInode key id inode).addHandle id options).installRootMutationSequence sequence

/-- A create of a new name; the parent has a say in the mode and the attributes. -/
def createNewFile (context : RequestContext) (request : CreateRequest) :
    Except Failure Catalog := do
  let sequence ← catalog.nextRootMutationSequence
  let parent ← expect (catalog.inodes.get? request.parent)
  let (mode, metadata) ←
    (parent.metadata.forChild .regular request.mode request.umask).mapError .refused
  let (id, allocated) ← catalog.allocateInode
  return allocated.withFile { parent := request.parent, name := request.name } id
    (newInode ambient context .regular mode 1 metadata none) request.options sequence

/-- Opens the file of this name, or makes it. -/
def create (context : RequestContext) (request : CreateRequest) : Except Failure Catalog := do
  validateComponent config request.name
  catalog.validateDirectory request.parent
  match catalog.entries.get? { parent := request.parent, name := request.name } with
  | some id => do
      refuse (request.exclusive) .exists
      openExistingForCreate ambient catalog id request
  | none => do
      catalog.validateMutableDirectory request.parent
      reserve ambient.capacity
      createNewFile ambient catalog context request

/-- One link more or less and the next sequence number for a parent. The root has the sequence
number of the namespace. -/
def adjustParent (id links sequence namespaceSequence : ℕ) : Catalog :=
  catalog.update id fun parent =>
    { parent with linkCount := links,
                  mutationSequence := if id = ROOT_INODE then namespaceSequence else sequence }

/-- The next sequence number of a parent that is not the root. -/
def nextParentSequence (id : ℕ) (parent : Inode) (namespaceSequence : ℕ) : Except Failure ℕ :=
  if id = ROOT_INODE then .ok namespaceSequence else next parent.mutationSequence

/-- The catalog with a new directory; the parent counts it as a link. -/
def withDirectory (key : EntryKey) (id : ℕ) (inode : Inode) (links parentSequence
    namespaceSequence : ℕ) : Catalog :=
  ((catalog.addInode key id inode).adjustParent key.parent links parentSequence
    namespaceSequence).installRootMutationSequence namespaceSequence

/-- Makes an empty directory. -/
def mkdir (context : RequestContext) (parent : ℕ) (name : Bytes) (mode umask : ℕ) :
    Except Failure Catalog := do
  validateComponent config name
  catalog.validateDirectory parent
  refuse ((catalog.entries.get? { parent, name }).isSome) .exists
  catalog.validateMutableDirectory parent
  let namespaceSequence ← catalog.nextRootMutationSequence
  let above ← expect (catalog.inodes.get? parent)
  let links ← nextLinks above.linkCount
  let parentSequence ← nextParentSequence parent above namespaceSequence
  let (mode, metadata) ← (above.metadata.forChild .directory mode umask).mapError .refused
  reserve ambient.capacity
  let (id, allocated) ← catalog.allocateInode
  return allocated.withDirectory { parent, name } id
    (newInode ambient context .directory mode 2 metadata none) links parentSequence
    namespaceSequence

def withSymlink (key : EntryKey) (id : ℕ) (inode : Inode) (sequence : ℕ) : Catalog :=
  (catalog.addInode key id inode).installRootMutationSequence sequence

/-- Makes a symbolic link. -/
def symlink (context : RequestContext) (parent : ℕ) (name target : Bytes) :
    Except Failure Catalog := do
  validateComponent config name
  refuse (target = [] ∨ target.length > MAXIMUM_SYMLINK_TARGET_BYTES) .invalidArgument
  catalog.validateDirectory parent
  catalog.validateMutableDirectory parent
  refuse ((catalog.entries.get? { parent, name }).isSome) .exists
  let sequence ← catalog.nextRootMutationSequence
  reserve ambient.capacity
  let (id, allocated) ← catalog.allocateInode
  return allocated.withSymlink { parent, name } id
    (newInode ambient context .symlink 0o777 1 .default (some target)) sequence

/-- Counts the names of an inode that is not a directory. -/
def setLinks (id links sequence : ℕ) : Catalog :=
  catalog.update id fun inode =>
    ({ inode with linkCount := links }.changed ambient.now).advance sequence

def withLink (key : EntryKey) (id links sequence namespaceSequence : ℕ) : Catalog :=
  (((catalog.setLinks ambient id links sequence).insertEntry key id).installRootMutationSequence
    namespaceSequence).acquireLookup id 1

/-- Gives a file another name. -/
def link (context : RequestContext) (id newParent : ℕ) (newName : Bytes) :
    Except Failure Catalog := do
  validateComponent config newName
  catalog.validateDirectory newParent
  catalog.validateMutableDirectory newParent
  refuse ((catalog.entries.get? { parent := newParent, name := newName }).isSome) .exists
  let inode ← found .noEntry (catalog.inodes.get? id)
  refuse (inode.kind = .directory) .permissionDenied
  refuse (¬ ambient.sameDomain) .crossDevice
  refuse (context.uid ≠ 0 ∧ context.uid ≠ inode.uid) .permissionDenied
  refuse (inode.isImmutable) .permissionDenied
  let namespaceSequence ← catalog.nextRootMutationSequence
  let sequence ← next inode.mutationSequence
  let links ← nextLinks inode.linkCount
  return catalog.withLink ambient { parent := newParent, name := newName } id links sequence
    namespaceSequence

def withoutName (key : EntryKey) (id links sequence namespaceSequence : ℕ) : Catalog :=
  (((catalog.setLinks ambient id links sequence).removeEntry key).installRootMutationSequence
    namespaceSequence).dropOrphan id

/-- Removes a name of a file or a symbolic link. -/
def unlink (parent : ℕ) (name : Bytes) : Except Failure Catalog := do
  validateComponent config name
  catalog.validateDirectory parent
  catalog.validateMutableDirectory parent
  let namespaceSequence ← catalog.nextRootMutationSequence
  let id ← found .noEntry (catalog.entries.get? { parent, name })
  let inode ← expect (catalog.inodes.get? id)
  refuse (inode.kind = .directory) .isDirectory
  refuse (inode.isImmutable) .permissionDenied
  let sequence ← next inode.mutationSequence
  return catalog.withoutName ambient { parent, name } id (inode.linkCount - 1) sequence
    namespaceSequence

/-- The removed directory keeps its record with the links taken off. -/
def removeDirectory (id sequence : ℕ) : Catalog :=
  catalog.update id fun inode => { inode with linkCount := 0, mutationSequence := sequence }

def withoutDirectory (key : EntryKey) (id sequence links parentSequence namespaceSequence : ℕ) :
    Catalog :=
  ((((catalog.removeDirectory id sequence).adjustParent key.parent links parentSequence
    namespaceSequence).removeEntry key).installRootMutationSequence
    namespaceSequence).dropDirectory id

/-- Removes an empty directory. -/
def rmdir (parent : ℕ) (name : Bytes) : Except Failure Catalog := do
  validateComponent config name
  catalog.validateDirectory parent
  catalog.validateMutableDirectory parent
  let id ← found .noEntry (catalog.entries.get? { parent, name })
  let inode ← expect (catalog.inodes.get? id)
  refuse (inode.kind ≠ .directory) .notDirectory
  refuse (inode.isImmutable) .permissionDenied
  refuse (¬ catalog.isEmptyDirectory id) .notEmpty
  assertThat (inode.linkCount = 2)
  let sequence ← next inode.mutationSequence
  let namespaceSequence ← catalog.nextRootMutationSequence
  let above ← expect (catalog.inodes.get? parent)
  assertThat (above.linkCount ≥ 1)
  let parentSequence ← nextParentSequence parent above namespaceSequence
  return catalog.withoutDirectory { parent, name } id sequence (above.linkCount - 1) parentSequence
    namespaceSequence

/-- Climbs from a directory to the root. A climb that ends leads over another entry with every step,
so the number of entries bounds it. On a cycle the source climbs for ever. -/
def directoryIsAncestorOrSelf (ancestor candidate : ℕ) : Except Failure Bool :=
  match LinkGraph.climb catalog.edges ROOT_INODE ancestor (catalog.edges.length + 1) candidate with
  | some (some result) => .ok result
  | some none => .error (.refused .io)
  | none => .error .panicked

/-- The links that a parent of a renamed directory gains and loses. -/
def linkDelta (oldParent newParent : ℕ) (replaces : Bool) (id : ℕ) : ℤ :=
  (if oldParent ≠ newParent ∧ id = newParent then 1 else 0) -
    (if oldParent ≠ newParent ∧ id = oldParent then 1 else 0) -
    if replaces ∧ id = newParent then 1 else 0

/-- The new link count and sequence number of a parent of a renamed directory. -/
def parentUpdate (namespaceSequence : ℕ) (delta : ℤ) (id : ℕ) : Except Failure (ℕ × ℕ) := do
  let parent ← expect (catalog.inodes.get? id)
  let links := (parent.linkCount : ℤ) + delta
  refuse (links < 0 ∨ links ≥ 2 ^ 32) .noSpace
  let sequence ← nextParentSequence id parent namespaceSequence
  return (links.toNat, sequence)

/-- The directory that a renamed directory replaces has to be empty. -/
def validateReplacedDirectory (replaced : Option ℕ) : Except Failure Unit :=
  match replaced with
  | none => .ok ()
  | some target => do
      let inode ← expect (catalog.inodes.get? target)
      refuse (inode.kind ≠ .directory) .notDirectory
      refuse (¬ catalog.isEmptyDirectory target) .notEmpty
      assertThat (inode.linkCount = 2)

/-- A replaced directory is a mutation of its own. -/
def nextReplacedSequence (replaced : Option ℕ) : Except Failure ℕ :=
  match replaced with
  | none => .ok 0
  | some target => do
      let inode ← expect (catalog.inodes.get? target)
      next inode.mutationSequence

def finishReplacedDirectory (replaced : Option ℕ) (sequence : ℕ) : Catalog :=
  match replaced with
  | none => catalog
  | some target => (catalog.removeDirectory target sequence).dropDirectory target

/-- Installs the link count and sequence number of a parent. -/
def applyParentUpdate (id : ℕ) (links : ℕ × ℕ) : Catalog :=
  catalog.update id fun parent => { parent with linkCount := links.1, mutationSequence := links.2 }

/-- The root and both parents with their new link counts. -/
def withParents (oldParent newParent : ℕ) (rootUpdate oldUpdate newUpdate : ℕ × ℕ) : Catalog :=
  ((catalog.applyParentUpdate ROOT_INODE rootUpdate).applyParentUpdate oldParent
    oldUpdate).applyParentUpdate newParent newUpdate

def withMovedDirectory (oldKey newKey : EntryKey) (source : ℕ) (replaced : Option ℕ)
    (rootUpdate oldUpdate newUpdate : ℕ × ℕ) (sequence : ℕ) : Catalog :=
  (((catalog.removeEntry oldKey).insertEntry newKey source).withParents oldKey.parent newKey.parent
    rootUpdate oldUpdate newUpdate).finishReplacedDirectory replaced sequence

/-- Moves a directory, which must not go below itself. -/
def renameDirectory (oldKey newKey : EntryKey) (source : ℕ) (replaced : Option ℕ) :
    Except Failure Catalog := do
  let below ← catalog.directoryIsAncestorOrSelf source newKey.parent
  refuse below .invalidArgument
  catalog.validateReplacedDirectory replaced
  let namespaceSequence ← catalog.nextRootMutationSequence
  let rootUpdate ← catalog.parentUpdate namespaceSequence
    (linkDelta oldKey.parent newKey.parent replaced.isSome ROOT_INODE) ROOT_INODE
  let oldUpdate ← catalog.parentUpdate namespaceSequence
    (linkDelta oldKey.parent newKey.parent replaced.isSome oldKey.parent) oldKey.parent
  let newUpdate ← catalog.parentUpdate namespaceSequence
    (linkDelta oldKey.parent newKey.parent replaced.isSome newKey.parent) newKey.parent
  let sequence ← catalog.nextReplacedSequence replaced
  return catalog.withMovedDirectory oldKey newKey source replaced rootUpdate oldUpdate newUpdate
    sequence

/-- The file that a renamed file replaces loses a name. -/
def replaceFile (replaced : Option ℕ) : Except Failure Catalog :=
  match replaced with
  | none => .ok catalog
  | some target => do
      let inode ← expect (catalog.inodes.get? target)
      refuse (inode.kind = .directory) .isDirectory
      let sequence ← next inode.mutationSequence
      return catalog.setLinks ambient target (inode.linkCount - 1) sequence

def finishReplacedFile (replaced : Option ℕ) : Catalog :=
  match replaced with
  | none => catalog
  | some target => catalog.dropOrphan target

def withMovedFile (oldKey newKey : EntryKey) (source : ℕ) (replaced : Option ℕ)
    (namespaceSequence : ℕ) : Catalog :=
  let touched := catalog.update source (Inode.changed ambient.now)
  (((touched.removeEntry oldKey).insertEntry newKey source).installRootMutationSequence
    namespaceSequence).finishReplacedFile replaced

/-- Moves a name of a file or a symbolic link. -/
def renameFile (oldKey newKey : EntryKey) (source : ℕ) (replaced : Option ℕ) :
    Except Failure Catalog := do
  let namespaceSequence ← catalog.nextRootMutationSequence
  let replacing ← catalog.replaceFile ambient replaced
  return replacing.withMovedFile ambient oldKey newKey source replaced namespaceSequence

def validateReplaceable (replaced : Option ℕ) : Except Failure Unit :=
  match replaced with
  | none => .ok ()
  | some target => do
      let inode ← expect (catalog.inodes.get? target)
      refuse (inode.isImmutable) .permissionDenied

/-- Moves an entry to another place, over the entry that is there. -/
def moveEntry (oldKey newKey : EntryKey) (source : ℕ) (replaced : Option ℕ) :
    Except Failure Catalog := do
  refuse (¬ ambient.sameDomain) .crossDevice
  let inode ← expect (catalog.inodes.get? source)
  refuse (inode.isImmutable) .permissionDenied
  catalog.validateReplaceable replaced
  reserve ambient.capacity
  if inode.kind = .directory then catalog.renameDirectory oldKey newKey source replaced
  else catalog.renameFile ambient oldKey newKey source replaced

/-- Moves a name, over an existing one unless this is refused. -/
def rename (parent : ℕ) (name : Bytes) (newParent : ℕ) (newName : Bytes) (noReplace : Bool) :
    Except Failure Catalog := do
  validateComponent config name
  validateComponent config newName
  catalog.validateDirectory parent
  catalog.validateDirectory newParent
  catalog.validateMutableDirectory parent
  catalog.validateMutableDirectory newParent
  let source ← found .noEntry (catalog.entries.get? { parent, name })
  if parent = newParent ∧ name = newName then return catalog
  else do
    let replaced := catalog.entries.get? { parent := newParent, name := newName }
    refuse (noReplace ∧ replaced.isSome) .exists
    if replaced = some source then return catalog
    else
      catalog.moveEntry ambient { parent, name } { parent := newParent, name := newName } source
        replaced

def VEEAM_RETENTION_XATTR : Bytes :=
  ascii ['u', 's', 'e', 'r', '.', 'i', 'm', 'm', 'u', 't', 'a', 'b', 'l', 'e', '.', 'u', 'n', 't',
    'i', 'l']

/-- Who may change an attribute, by the prefix of its name. -/
def authorizeXattrMutation (context : RequestContext) (inode : Inode) (name : Bytes) :
    Except Failure Unit := do
  refuse ((TRUSTED_NAMESPACE <+: name ∨ SECURITY_NAMESPACE <+: name) ∧ context.uid ≠ 0)
    .permissionDenied
  refuse (context.uid ≠ 0 ∧ context.uid ≠ inode.uid) .permissionDenied

/-- Root, or the authority that a rule names for the inode. -/
def mayChangeFileFlags (uid id : ℕ) : Prop :=
  uid = 0 ∨ ∃ rule ∈ ambient.immutabilityAuthority.get? id, rule.authorityUid = uid

instance (uid id : ℕ) : Decidable (mayChangeFileFlags ambient uid id) :=
  inferInstanceAs (Decidable (_ ∨ _))

/-- The owner and group that the authority may take an inode over from. -/
def ImmutabilityAuthority.owns (rule : ImmutabilityAuthority) (uid gid : ℕ) : Prop :=
  (uid = rule.writerUid ∧ gid = rule.writerGid) ∨
    (uid = rule.authorityUid ∧ gid = rule.authorityGid) ∨
    (uid = rule.repositoryUid ∧ gid = rule.repositoryGid) ∨
    (uid = rule.repositoryUid ∧ gid = rule.writerGid) ∨
    (uid = rule.writerUid ∧ gid = rule.repositoryGid) ∨
    (uid = rule.repositoryUid ∧ gid = rule.authorityGid) ∨
    (uid = rule.authorityUid ∧ gid = rule.repositoryGid)

instance (rule : ImmutabilityAuthority)
    (uid gid : ℕ) : Decidable (ImmutabilityAuthority.owns rule uid gid) :=
  inferInstanceAs (Decidable (_ ∨ _))

def mayHandoffAuthorityOwnedInode (uid id : ℕ) (inode : Inode)
    (requestedUid requestedGid : Option ℕ) : Prop :=
  ∃ rule ∈ ambient.immutabilityAuthority.get? id,
    uid = rule.authorityUid ∧ ImmutabilityAuthority.owns rule inode.uid inode.gid ∧
      (∀ requested ∈ requestedUid, requested = rule.repositoryUid) ∧
      (∀ requested ∈ requestedGid, requested = rule.repositoryGid) ∧
      (requestedUid.isSome ∨ requestedGid.isSome)

instance (uid id : ℕ) (inode : Inode) (requestedUid requestedGid : Option ℕ) :
    Decidable (mayHandoffAuthorityOwnedInode ambient uid id inode requestedUid requestedGid) :=
  inferInstanceAs (Decidable (∃ rule ∈ ambient.immutabilityAuthority.get? id, _))

/-- The authority may set how long an inode is retained. -/
def authorizeMetadata (context : RequestContext) (id : ℕ) (inode : Inode) (name : Bytes) :
    Except Failure Unit :=
  if name = VEEAM_RETENTION_XATTR ∧ mayChangeFileFlags ambient context.uid id then .ok ()
  else authorizeXattrMutation context inode name

/-- The frame of the attribute changes: checks, reservation, installation. -/
def mutateMetadata (context : RequestContext) (id : ℕ) (name : Bytes)
    (mutation : Inode → Except PosixError Inode) : Except Failure Catalog := do
  let inode ← found .noEntry (catalog.inodes.get? id)
  authorizeMetadata ambient context id inode name
  refuse (inode.isImmutable) .permissionDenied
  let sequences ← catalog.nextMutationSequences id inode.mutationSequence
  let mutated ← (mutation inode).mapError .refused
  return catalog.mutate id (fun _ => mutated.changed ambient.now) sequences

/-- The mode with the permission bits of an access list. -/
def projectMode (mode : ℕ) : Option ℕ → ℕ
  | none => mode
  | some access => mode &&& (0xffff ^^^ 0o777) ||| access

def setXattr (context : RequestContext) (id : ℕ) (name value : Bytes) (mode : XattrSetMode) :
    Except Failure Catalog :=
  catalog.mutateMetadata ambient context id name fun inode => do
    let (metadata, access) ← inode.metadata.setXattr inode.kind name value mode
    return { inode with metadata, mode := projectMode inode.mode access }

def removeXattr (context : RequestContext) (id : ℕ) (name : Bytes) : Except Failure Catalog :=
  catalog.mutateMetadata ambient context id name fun inode => do
    let metadata ← inode.metadata.removeXattr name
    return { inode with metadata }

/-- Sets the file flags. They are changed before the change is numbered, so a request that is
refused for want of a number leaves the new flags behind. -/
def setFileFlags (context : RequestContext) (id flags : ℕ) :
    Except Failure (Catalog × Option PosixError) := do
  refuse (¬ mayChangeFileFlags ambient context.uid id) .permissionDenied
  let inode ← found .noEntry (catalog.inodes.get? id)
  if inode.metadata.fileFlags = flags then return (catalog, none)
  else do
    reserve ambient.capacity
    let metadata ← (inode.metadata.setFileFlags flags).mapError .refused
    let change : Inode → Inode := fun inode => { inode with metadata }.changed ambient.now
    match catalog.nextMutationSequences id inode.mutationSequence with
    | .error _ => return (catalog.update id change, some .noSpace)
    | .ok sequences => return (catalog.mutate id change sequences, none)

/-- Changes the permission bits, and with them the access list. -/
def setMode (context : RequestContext) (id mode : ℕ) : Except Failure Catalog := do
  let inode ← found .noEntry (catalog.inodes.get? id)
  refuse (context.uid ≠ 0 ∧ context.uid ≠ inode.uid) .permissionDenied
  refuse (inode.isImmutable) .permissionDenied
  let sequences ← catalog.nextMutationSequences id inode.mutationSequence
  let (metadata, mode) ← (inode.metadata.chmod mode).mapError .refused
  return catalog.mutate id (fun inode => { inode with metadata, mode }.changed ambient.now)
    sequences

/-- The attributes a request sets, of those it may set. -/
structure InodeAttributesUpdate where
  mode : Option ℕ
  uid : Option ℕ
  gid : Option ℕ
  atime : Option PosixTimestamp
  mtime : Option PosixTimestamp
  deriving DecidableEq

/-- The metadata and mode after an update, which may leave the mode alone. -/
def updateMode (inode : Inode) : Option ℕ → Except PosixError (InodeMetadata × ℕ)
  | none => .ok (inode.metadata, inode.mode)
  | some mode => inode.metadata.chmod mode

/-- A change of the owner takes the set-id bits away. -/
def ownedMode (update : InodeAttributesUpdate) (mode : ℕ) : ℕ :=
  if update.uid.isSome ∨ update.gid.isSome then mode &&& (0xffff ^^^ 0o6000) else mode

/-- The update only gives the inode another owner, and the authority asks for it. -/
def authorityHandoff (context : RequestContext) (id : ℕ) (inode : Inode)
    (update : InodeAttributesUpdate) : Prop :=
  update.mode = none ∧ update.atime = none ∧ update.mtime = none ∧
    mayHandoffAuthorityOwnedInode ambient context.uid id inode update.uid update.gid

instance (context : RequestContext) (id : ℕ) (inode : Inode) (update : InodeAttributesUpdate) :
    Decidable (authorityHandoff ambient context id inode update) :=
  inferInstanceAs (Decidable (_ ∧ _))

/-- Changes owner, mode and times together. -/
def setAttributes (context : RequestContext) (id : ℕ) (update : InodeAttributesUpdate) :
    Except Failure Catalog :=
  if update.mode = none ∧ update.uid = none ∧ update.gid = none ∧ update.atime = none ∧
      update.mtime = none then do
    let _ ← found .noEntry (catalog.inodes.get? id)
    return catalog
  else do
    refuse ((∃ time ∈ update.atime, time.nanoseconds ≥ 1000000000) ∨
      ∃ time ∈ update.mtime, time.nanoseconds ≥ 1000000000) .invalidArgument
    let inode ← found .noEntry (catalog.inodes.get? id)
    refuse (inode.isImmutable ∧ ¬ authorityHandoff ambient context id inode update)
      .permissionDenied
    refuse (context.uid ≠ 0 ∧ (context.uid ≠ inode.uid ∨ update.uid.isSome) ∧
      ¬ authorityHandoff ambient context id inode update) .permissionDenied
    refuse (context.uid ≠ 0 ∧ (∃ gid ∈ update.gid, gid ≠ context.gid) ∧
      ¬ authorityHandoff ambient context id inode update) .permissionDenied
    reserve ambient.capacity
    let sequences ← catalog.nextMutationSequences id inode.mutationSequence
    let (metadata, mode) ← (updateMode inode update.mode).mapError .refused
    return catalog.mutate id
      (fun inode =>
        { inode with
          metadata
          mode := ownedMode update mode
          uid := update.uid.getD inode.uid
          gid := update.gid.getD inode.gid
          times := { atime := update.atime.getD inode.times.atime
                     mtime := update.mtime.getD inode.times.mtime
                     ctime := ambient.now } })
      sequences

/-- Whether a read moves the access time. -/
def relatimeDue (times : PosixTimes) (now : PosixTimestamp) : Prop :=
  times.atime.NotAfter times.mtime ∨ times.atime.NotAfter times.ctime ∨
    times.atime.seconds ≤ now.seconds - 24 * 60 * 60

instance (times : PosixTimes) (now : PosixTimestamp) : Decidable (relatimeDue times now) :=
  inferInstanceAs (Decidable (_ ∨ _))

/-- Notes that an inode has been read. Nobody learns why it could not. -/
def updateRelatime (id : ℕ) : Catalog :=
  match catalog.inodes.get? id with
  | none => catalog
  | some inode =>
    if relatimeDue inode.times ambient.now ∧ ambient.capacity = none then
      match catalog.nextMutationSequences id inode.mutationSequence with
      | .error _ => catalog
      | .ok sequences =>
        catalog.mutate id
          (fun inode => { inode with times := { inode.times with atime := ambient.now } })
          sequences
    else catalog

def readlink (id : ℕ) : Except Failure Catalog := do
  let inode ← found .noEntry (catalog.inodes.get? id)
  refuse (inode.symlinkTarget = none) .invalidArgument
  return catalog.updateRelatime ambient id

/-- The handle must be open and belong to the inode. -/
def resolveOpenFile (id handle : ℕ) : Except Failure (OpenHandle × Inode) := do
  let file ← found .badHandle (catalog.handles.get? handle)
  refuse (file.inode ≠ id) .badHandle
  let inode ← expect (catalog.inodes.get? id)
  return (file, inode)

/-- A request for the attributes, like the next four, changes nothing. -/
def getattr (id : ℕ) : Except Failure Catalog := do
  let _ ← found .noEntry (catalog.inodes.get? id)
  return catalog

def getFileFlags (id : ℕ) : Except Failure Catalog := catalog.getattr id

def getXattr (id : ℕ) (name : Bytes) : Except Failure Catalog := do
  let inode ← found .noEntry (catalog.inodes.get? id)
  (validateXattrName name).mapError .refused
  refuse (inode.metadata.getXattr name = none) .noData
  return catalog

def listXattrs (id : ℕ) : Except Failure Catalog := do
  let _ ← found .noEntry (catalog.inodes.get? id)
  reserve ambient.memory
  return catalog

/-- The end of the file counts as a hole, and not as data. -/
def seek (id handle offset : ℕ) (kind : SeekKind) : Except Failure Catalog := do
  let (_, inode) ← catalog.resolveOpenFile id handle
  refuse (inode.kind ≠ .regular) .isDirectory
  refuse (inode.data.cells.length ≤ offset ∨
    kind = .data ∧ (inode.data.cells.drop offset).all (!·.allocated)) .noSuchAddress
  return catalog

/-- Waits for the observer, which is not part of the catalog. -/
def sync (id handle : ℕ) : Except Failure Catalog := do
  let _ ← catalog.resolveOpenFile id handle
  return catalog

/-- A read of a file, of which the catalog sees only the access time. -/
def read (id handle : ℕ) : Except Failure Catalog := do
  let (file, inode) ← catalog.resolveOpenFile id handle
  refuse (file.options.access = .writeOnly) .badHandle
  assertThat (inode.kind = .regular)
  reserve ambient.memory
  return catalog.updateRelatime ambient id

/-- Gives a file another content once everything has been reserved. -/
def acceptContent (id : ℕ) (inode : Inode) (cells : DenseFile) : Except Failure Catalog := do
  reserve ambient.capacity
  reserve ambient.quota
  let sequence ← next inode.mutationSequence
  reserve ambient.memory
  return catalog.update id (Inode.written ambient.now sequence cells)

def writeOffset (file : OpenHandle) (inode : Inode) (offset : ℕ) : ℕ :=
  if file.options.append then inode.data.cells.length else offset

/-- A write through a handle. -/
def writePayload (id handle requestedOffset : ℕ) (payload : Bytes) : Except Failure Catalog := do
  refuse (payload.length ≥ 2 ^ 32) .fileTooLarge
  let (file, inode) ← catalog.resolveOpenFile id handle
  refuse (file.options.access = .readOnly) .badHandle
  assertThat (inode.kind = .regular)
  if payload = [] then return catalog
  else do
    refuse (inode.isImmutable) .permissionDenied
    let last ← checkedAdd (.refused .fileTooLarge) (writeOffset file inode requestedOffset)
      payload.length
    refuse (last > config.maximumFileBytes) .fileTooLarge
    catalog.acceptContent ambient id inode
      (inode.data.cells.write (writeOffset file inode requestedOffset) payload)

/-- The file that a change of length names, with or without a handle. -/
def resolveResized (id : ℕ) (handle : Option ℕ) : Except Failure Inode :=
  match handle with
  | none => found .noEntry (catalog.inodes.get? id)
  | some handle => do
      let (file, inode) ← catalog.resolveOpenFile id handle
      refuse (file.options.access = .readOnly) .badHandle
      return inode

/-- Truncates or extends a file, with or without a handle. -/
def setLength (id : ℕ) (handle : Option ℕ) (length : ℕ) : Except Failure Catalog := do
  refuse (length > config.maximumFileBytes) .fileTooLarge
  let inode ← catalog.resolveResized id handle
  refuse (inode.kind = .directory) .isDirectory
  refuse (inode.kind ≠ .regular) .invalidArgument
  refuse (inode.isImmutable) .permissionDenied
  if length = inode.data.cells.length then return catalog
  else catalog.acceptContent ambient id inode (inode.data.cells.resize length)

/-- Preallocates, punches, zeroes, collapses or inserts a range. -/
def fallocate (id handle offset length : ℕ) (mode : FallocateMode) : Except Failure Catalog := do
  refuse (length = 0) .invalidArgument
  let _ ← checkedAdd (.refused .fileTooLarge) offset length
  let (file, inode) ← catalog.resolveOpenFile id handle
  refuse (file.options.access = .readOnly) .badHandle
  refuse (inode.kind ≠ .regular) .isDirectory
  refuse (inode.isImmutable) .permissionDenied
  let size ← (inode.data.cells.fallocateSize mode offset length).mapError .refused
  refuse (size > config.maximumFileBytes) .fileTooLarge
  catalog.acceptContent ambient id inode (inode.data.cells.fallocate mode offset length size)

/-- The arguments of a clone range. -/
structure CloneRequest where
  sourceInode : ℕ
  sourceHandle : ℕ
  sourceOffset : ℕ
  targetInode : ℕ
  targetHandle : ℕ
  targetOffset : ℕ
  length : ℕ
  deriving DecidableEq

/-- The ranges of a clone lie within the bounds and apart from each other. -/
def validateClone (request : CloneRequest) : Except Failure Unit := do
  let sourceEnd ← checkedAdd (.refused .fileTooLarge) request.sourceOffset request.length
  let targetEnd ← checkedAdd (.refused .fileTooLarge) request.targetOffset request.length
  refuse (targetEnd > config.maximumFileBytes) .fileTooLarge
  refuse (request.sourceInode = request.targetInode ∧ request.sourceOffset < targetEnd ∧
    request.targetOffset < sourceEnd ∧ request.length ≠ 0) .unsupported

/-- Copies a range between open files. -/
def cloneRange (request : CloneRequest) : Except Failure Catalog := do
  let (sourceFile, source) ← catalog.resolveOpenFile request.sourceInode request.sourceHandle
  let (targetFile, target) ← catalog.resolveOpenFile request.targetInode request.targetHandle
  refuse (sourceFile.options.access = .writeOnly ∨ targetFile.options.access = .readOnly) .badHandle
  validateClone config request
  if request.length = 0 then return catalog
  else do
    refuse (source.kind ≠ .regular ∨
      request.sourceOffset + request.length > source.data.cells.length) .invalidArgument
    reserve ambient.prepared
    assertThat (target.kind = .regular)
    refuse (target.isImmutable) .permissionDenied
    catalog.acceptContent ambient request.targetInode target
      (target.data.cells.cloneRange request.targetOffset source.data.cells request.sourceOffset
        request.length)

/-- The requests but those for locks, which have a table of their own. -/
inductive Operation where
  | lookup (parent : ℕ) (name : Bytes)
  | readDirectory (inode : ℕ) (offset : ℤ) (acquireLookups : Bool)
  | forget (inode lookupCount : ℕ)
  | openFile (inode : ℕ) (options : OpenOptions) (truncate : Bool)
  | release (inode handle : ℕ)
  | create (request : CreateRequest)
  | mkdir (parent : ℕ) (name : Bytes) (mode umask : ℕ)
  | symlink (parent : ℕ) (name target : Bytes)
  | link (inode newParent : ℕ) (newName : Bytes)
  | unlink (parent : ℕ) (name : Bytes)
  | rmdir (parent : ℕ) (name : Bytes)
  | rename (parent : ℕ) (name : Bytes) (newParent : ℕ) (newName : Bytes) (noReplace : Bool)
  | setXattr (inode : ℕ) (name value : Bytes) (mode : XattrSetMode)
  | removeXattr (inode : ℕ) (name : Bytes)
  | setFileFlags (inode flags : ℕ)
  | setMode (inode mode : ℕ)
  | setAttributes (inode : ℕ) (update : InodeAttributesUpdate)
  | readlink (inode : ℕ)
  | getattr (inode : ℕ)
  | getFileFlags (inode : ℕ)
  | getXattr (inode : ℕ) (name : Bytes)
  | listXattrs (inode : ℕ)
  | seek (inode handle offset : ℕ) (kind : SeekKind)
  | sync (inode handle : ℕ)
  | read (inode handle : ℕ)
  | write (inode handle offset : ℕ) (data : Bytes)
  | setLength (inode : ℕ) (handle : Option ℕ) (length : ℕ)
  | fallocate (inode handle offset length : ℕ) (mode : FallocateMode)
  | cloneRange (request : CloneRequest)
  deriving DecidableEq

/-- Serves one request. -/
def dispatch (context : RequestContext) : Operation → Except Failure Catalog
  | .lookup parent name => catalog.lookup config parent name
  | .readDirectory inode offset acquireLookups =>
    (catalog.readDirectory inode offset acquireLookups).map Prod.fst
  | .forget inode lookupCount => .ok (catalog.forget inode lookupCount)
  | .openFile inode options truncate => catalog.openFile ambient inode options truncate
  | .release inode handle => catalog.release inode handle
  | .create request => catalog.create config ambient context request
  | .mkdir parent name mode umask => catalog.mkdir config ambient context parent name mode umask
  | .symlink parent name target => catalog.symlink config ambient context parent name target
  | .link inode newParent newName => catalog.link config ambient context inode newParent newName
  | .unlink parent name => catalog.unlink config ambient parent name
  | .rmdir parent name => catalog.rmdir config parent name
  | .rename parent name newParent newName noReplace =>
    catalog.rename config ambient parent name newParent newName noReplace
  | .setXattr inode name value mode => catalog.setXattr ambient context inode name value mode
  | .removeXattr inode name => catalog.removeXattr ambient context inode name
  | .setFileFlags inode flags => (catalog.setFileFlags ambient context inode flags).map Prod.fst
  | .setMode inode mode => catalog.setMode ambient context inode mode
  | .setAttributes inode update => catalog.setAttributes ambient context inode update
  | .readlink inode => catalog.readlink ambient inode
  | .getattr inode => catalog.getattr inode
  | .getFileFlags inode => catalog.getFileFlags inode
  | .getXattr inode name => catalog.getXattr inode name
  | .listXattrs inode => catalog.listXattrs ambient inode
  | .seek inode handle offset kind => catalog.seek inode handle offset kind
  | .sync inode handle => catalog.sync inode handle
  | .read inode handle => catalog.read ambient inode handle
  | .write inode handle offset data =>
    catalog.writePayload config ambient inode handle offset data
  | .setLength inode handle length => catalog.setLength config ambient inode handle length
  | .fallocate inode handle offset length mode =>
    catalog.fallocate config ambient inode handle offset length mode
  | .cloneRange request => catalog.cloneRange config ambient request

end Catalog

end Fastdup.Posix
