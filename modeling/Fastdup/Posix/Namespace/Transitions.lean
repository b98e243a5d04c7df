import Fastdup.Posix.Namespace.Moves
import Fastdup.Posix.Namespace.Refusals

/-!
# What an operation does

Every operation is inverted once: if it succeeds, the checks that it made have passed and the
catalog has changed in one of a few ways. The operations that name, move or remove something are
told apart; the changes of attributes have one case, and so have the changes of content.

An operation panics only when it meets something that a tree does not have, or when it lists a
removed directory.
-/

namespace Fastdup.Posix

open Library Checked Option

variable {catalog : Catalog} {id newParent : ℕ} {request : CreateRequest} {newName : Bytes}

namespace Catalog

/-- The directory that an operation gives a name in. -/
def Operation.directory? : Operation → Option ℕ
  | .create request => some request.parent
  | .mkdir parent _ _ _ => some parent
  | .symlink parent _ _ => some parent
  | .link _ newParent _ => some newParent
  | .rename _ _ newParent _ _ => some newParent
  | _ => none

/-- A change of attributes: neither the kind nor the names nor the content of an inode. -/
structure Attributes (id : ℕ) (inode changed : Inode) : Prop where
  kind : changed.kind = inode.kind
  linkCount : changed.linkCount = inode.linkCount
  mutationSequence : changed.mutationSequence = inode.mutationSequence
  symlinkTarget : changed.symlinkTarget = inode.symlinkTarget
  data : changed.data = inode.data
  metadata : inode.metadata.Valid inode.kind → changed.metadata.Valid inode.kind
  mode : inode.mode ≤ 0o7777 → changed.mode ≤ 0o7777

section Transition

variable (config : NamespaceConfig) (ambient : Ambient) (context : RequestContext)
  (catalog : Catalog)

/-- The operation gives a name that is free, in a directory that can be changed. -/
structure FreeName (operation : Operation) (key : EntryKey) : Prop where
  at_ : operation.directory? = some key.parent
  valid : validateComponent config key.name = .ok ()
  parent : catalog.validateMutableDirectory key.parent = .ok ()
  absent : catalog.entries.get? key = none

/-- What a rename has checked before it tells files from directories. -/
structure Moves (operation : Operation) (oldKey newKey : EntryKey) (source : ℕ) (inode : Inode) :
    Prop where
  at_ : operation.directory? = some newKey.parent
  valid : validateComponent config newKey.name = .ok ()
  oldParent : catalog.validateMutableDirectory oldKey.parent = .ok ()
  parent : catalog.validateMutableDirectory newKey.parent = .ok ()
  named : catalog.entries.get? oldKey = some source
  other : oldKey ≠ newKey
  notSource : catalog.entries.get? newKey ≠ some source
  present : catalog.inodes.get? source = some inode
  mutable : ¬ inode.isImmutable
  replaceable : catalog.validateReplaceable (catalog.entries.get? newKey) = .ok ()

/-- The ways in which an operation that succeeds changes the catalog. -/
inductive Transition (operation : Operation) : Catalog → Prop where
  | same : Transition operation catalog
  | looked {counts : SortedMap ℕ ℕ} : Transition operation { catalog with lookupCounts := counts }
  | forgot {counts : SortedMap ℕ ℕ} {id count : ℕ} (isForget : operation = .forget id count) :
      Transition operation ({ catalog with lookupCounts := counts }.dropOrphan id)
  | released {handle id : ℕ} (isRelease : operation = .release id handle) :
      Transition operation ({ catalog with handles := catalog.handles.remove handle }.dropOrphan id)
  | opened {id : ℕ} {inode : Inode} {options : OpenOptions} {truncate : Bool} {sequence : Option ℕ}
      (present : catalog.inodes.get? id = some inode)
      (accepted : validateOpen inode options.access truncate = .ok ())
      (numbered : truncation inode truncate = .ok sequence) :
      Transition operation ((truncated ambient catalog id sequence).addHandle id options)
  | openedExisting {id : ℕ} {inode : Inode} {options : OpenOptions} {truncate : Bool}
      {sequence : Option ℕ} (present : catalog.inodes.get? id = some inode)
      (accepted : validateOpen inode options.access truncate = .ok ())
      (numbered : truncation inode truncate = .ok sequence) :
      Transition operation
        (((truncated ambient catalog id sequence).addHandle id options).acquireLookup id 1)
  | created {key : EntryKey} {id : ℕ} {above : Inode} {allocated : Catalog}
      {requested umask mode sequence : ℕ} {metadata : InodeMetadata} {options : OpenOptions}
      (free : FreeName config catalog operation key)
      (present : catalog.inodes.get? key.parent = some above)
      (inherited : above.metadata.forChild .regular requested umask = .ok (mode, metadata))
      (numbered : catalog.nextRootMutationSequence = .ok sequence)
      (allocation : catalog.allocateInode = .ok (id, allocated)) :
      Transition operation (allocated.withFile key id
        (newInode ambient context .regular mode 1 metadata none) options sequence)
  | madeDirectory {key : EntryKey} {id : ℕ} {above : Inode} {allocated : Catalog}
      {requested umask mode links parentSequence namespaceSequence : ℕ} {metadata : InodeMetadata}
      (free : FreeName config catalog operation key)
      (present : catalog.inodes.get? key.parent = some above)
      (inherited : above.metadata.forChild .directory requested umask = .ok (mode, metadata))
      (counted : nextLinks above.linkCount = .ok links)
      (numbered : catalog.nextRootMutationSequence = .ok namespaceSequence)
      (parentNumbered : nextParentSequence key.parent above namespaceSequence = .ok parentSequence)
      (allocation : catalog.allocateInode = .ok (id, allocated)) :
      Transition operation (allocated.withDirectory key id
        (newInode ambient context .directory mode 2 metadata none) links parentSequence
        namespaceSequence)
  | madeSymlink {key : EntryKey} {id : ℕ} {target : Bytes} {allocated : Catalog} {sequence : ℕ}
      (free : FreeName config catalog operation key)
      (bounded : ¬ (target = [] ∨ target.length > MAXIMUM_SYMLINK_TARGET_BYTES))
      (numbered : catalog.nextRootMutationSequence = .ok sequence)
      (allocation : catalog.allocateInode = .ok (id, allocated)) :
      Transition operation (allocated.withSymlink key id
        (newInode ambient context .symlink 0o777 1 .default (some target)) sequence)
  | linked {key : EntryKey} {id : ℕ} {inode : Inode} {links sequence namespaceSequence : ℕ}
      (free : FreeName config catalog operation key)
      (present : catalog.inodes.get? id = some inode) (leaf : inode.kind ≠ .directory)
      (mutable : ¬ inode.isImmutable)
      (counted : nextLinks inode.linkCount = .ok links)
      (numbered : next inode.mutationSequence = .ok sequence)
      (namespaceNumbered : catalog.nextRootMutationSequence = .ok namespaceSequence) :
      Transition operation (catalog.withLink ambient key id links sequence namespaceSequence)
  | unlinked {key : EntryKey} {id : ℕ} {inode : Inode} {sequence namespaceSequence : ℕ}
      (parent : catalog.validateMutableDirectory key.parent = .ok ())
      (named : catalog.entries.get? key = some id)
      (present : catalog.inodes.get? id = some inode) (leaf : inode.kind ≠ .directory)
      (mutable : ¬ inode.isImmutable)
      (numbered : next inode.mutationSequence = .ok sequence)
      (namespaceNumbered : catalog.nextRootMutationSequence = .ok namespaceSequence) :
      Transition operation
        (catalog.withoutName ambient key id (inode.linkCount - 1) sequence namespaceSequence)
  | removedDirectory {key : EntryKey} {id : ℕ} {inode above : Inode}
      {sequence parentSequence namespaceSequence : ℕ}
      (parent : catalog.validateMutableDirectory key.parent = .ok ())
      (named : catalog.entries.get? key = some id)
      (present : catalog.inodes.get? id = some inode) (directory : inode.kind = .directory)
      (mutable : ¬ inode.isImmutable) (empty : catalog.isEmptyDirectory id = true)
      (aboveFound : catalog.inodes.get? key.parent = some above)
      (numbered : next inode.mutationSequence = .ok sequence)
      (namespaceNumbered : catalog.nextRootMutationSequence = .ok namespaceSequence)
      (parentNumbered : nextParentSequence key.parent above namespaceSequence =
        .ok parentSequence) :
      Transition operation (catalog.withoutDirectory key id sequence (above.linkCount - 1)
        parentSequence namespaceSequence)
  | movedFile {oldKey newKey : EntryKey} {source : ℕ} {inode : Inode} {replacing : Catalog}
      {namespaceSequence : ℕ}
      (moves : Moves config catalog operation oldKey newKey source inode)
      (leaf : inode.kind ≠ .directory)
      (numbered : catalog.nextRootMutationSequence = .ok namespaceSequence)
      (replace : catalog.replaceFile ambient (catalog.entries.get? newKey) = .ok replacing) :
      Transition operation (replacing.withMovedFile ambient oldKey newKey source
        (catalog.entries.get? newKey) namespaceSequence)
  | movedDirectory {oldKey newKey : EntryKey} {source : ℕ} {inode : Inode}
      {rootUpdate oldUpdate newUpdate : ℕ × ℕ} {sequence namespaceSequence : ℕ}
      (moves : Moves config catalog operation oldKey newKey source inode)
      (directory : inode.kind = .directory)
      (climbed : catalog.directoryIsAncestorOrSelf source newKey.parent = .ok false)
      (replaced : catalog.validateReplacedDirectory (catalog.entries.get? newKey) = .ok ())
      (numbered : catalog.nextRootMutationSequence = .ok namespaceSequence)
      (rootUpdated : catalog.parentUpdate namespaceSequence
        (linkDelta oldKey.parent newKey.parent (catalog.entries.get? newKey).isSome ROOT_INODE)
        ROOT_INODE = .ok rootUpdate)
      (oldUpdated : catalog.parentUpdate namespaceSequence
        (linkDelta oldKey.parent newKey.parent (catalog.entries.get? newKey).isSome oldKey.parent)
        oldKey.parent = .ok oldUpdate)
      (newUpdated : catalog.parentUpdate namespaceSequence
        (linkDelta oldKey.parent newKey.parent (catalog.entries.get? newKey).isSome newKey.parent)
        newKey.parent = .ok newUpdate)
      (replacedNumbered : catalog.nextReplacedSequence (catalog.entries.get? newKey) =
        .ok sequence) :
      Transition operation (catalog.withMovedDirectory oldKey newKey source
        (catalog.entries.get? newKey) rootUpdate oldUpdate newUpdate sequence)
  | attributed {id : ℕ} {inode : Inode} {change : Inode → Inode} {sequences : ℕ × ℕ}
      (present : catalog.inodes.get? id = some inode) (mutable : ¬ inode.isImmutable)
      (attributes : Attributes id inode (change inode))
      (numbered : catalog.nextMutationSequences id inode.mutationSequence = .ok sequences) :
      Transition operation (catalog.mutate id change sequences)
  /-- The authority hands an inode over, even if it is immutable. -/
  | handedOver {id : ℕ} {inode : Inode} {update : InodeAttributesUpdate} {change : Inode → Inode}
      {sequences : ℕ × ℕ} (isHandoff : operation = .setAttributes id update)
      (present : catalog.inodes.get? id = some inode)
      (authority : authorityHandoff ambient context id inode update)
        (attributes : Attributes id inode (change inode))
      (numbered : catalog.nextMutationSequences id inode.mutationSequence = .ok sequences) :
      Transition operation (catalog.mutate id change sequences)
  | flagged {id flags : ℕ} {inode : Inode} {change : Inode → Inode} {sequences : ℕ × ℕ}
      (isFlags : operation = .setFileFlags id flags)
      (authority : mayChangeFileFlags ambient context.uid id)
      (present : catalog.inodes.get? id = some inode)
        (attributes : Attributes id inode (change inode))
      (numbered : catalog.nextMutationSequences id inode.mutationSequence = .ok sequences) :
      Transition operation (catalog.mutate id change sequences)
  | flaggedOnly {id flags : ℕ} {inode : Inode} {change : Inode → Inode}
      (isFlags : operation = .setFileFlags id flags)
      (authority : mayChangeFileFlags ambient context.uid id)
      (present : catalog.inodes.get? id = some inode)
        (attributes : Attributes id inode (change inode)) :
      Transition operation (catalog.update id change)
  | accessed {id : ℕ} {inode : Inode} {sequences : ℕ × ℕ}
      (present : catalog.inodes.get? id = some inode)
      (numbered : catalog.nextMutationSequences id inode.mutationSequence = .ok sequences) :
      Transition operation (catalog.mutate id
        (fun inode => { inode with times := { inode.times with atime := ambient.now } }) sequences)
  | written {id : ℕ} {inode : Inode} {sequence : ℕ} {cells : DenseFile}
      (present : catalog.inodes.get? id = some inode) (regular : inode.kind = .regular)
      (mutable : ¬ inode.isImmutable) (numbered : next inode.mutationSequence = .ok sequence) :
      Transition operation (catalog.update id (Inode.written ambient.now sequence cells))

/-- In a tree the program does not panic, and when it succeeds it makes such a change. -/
abbrev Performs (operation : Operation) (program : Except Failure Catalog) : Prop :=
  Runs (catalog.Tree True) program (Transition config ambient context catalog operation)

end Transition

section Present

variable {key : EntryKey} {inode : Inode}

section

variable (tree : catalog.Tree True) (named : catalog.entries.get? key = some id)

include tree named

theorem Tree.get?_ne_none : catalog.inodes.get? id ≠ none := by
  rw [Ne, ← kind_eq_none_iff]
  exact tree.forest.targets _ (mem_edges.mpr named)

theorem Tree.linkCount_pos (found : catalog.inodes.get? id = some inode) : inode.linkCount > 0 := by
  have links := tree.forest.links_target (mem_edges.mpr named)
  rw [show (key.edge id).target = id from rfl, links_of_get? found] at links
  omega

theorem Tree.linkCount_of_empty (found : catalog.inodes.get? id = some inode)
    (directory : inode.kind = .directory) (empty : catalog.isEmptyDirectory id = true) :
    inode.linkCount = 2 := by
  have counted := tree.forest.directoryLinks id
    (kind_eq_directory_iff.mpr ⟨inode, found, directory⟩)
    (tree.forest.rootFree _ (mem_edges.mpr named))
  have childless : catalog.graph.childDirectories id = 0 :=
    LinkGraph.childDirectories_eq_zero_iff.mpr fun edge mem same =>
      absurd same (isEmptyDirectory_iff.mp empty edge mem)
  rw [links_of_get? found, childless] at counted
  have positive := tree.linkCount_pos named found
  omega

theorem Tree.parent_ne_none :
    ∃ above, catalog.inodes.get? key.parent = some above ∧ above.kind = .directory :=
  kind_eq_directory_iff.mp
    (tree.forest.parent_directory (tree.attached trivial) (mem_edges.mpr named))

end

end Present

theorem validateDirectory_eq_ok {done : Unit} (valid : catalog.validateDirectory id = .ok done) :
    ∃ inode, catalog.inodes.get? id = some inode ∧ inode.kind = .directory := by
  rcases bind_ok.mp valid with ⟨inode, found, directory⟩
  rw [refuse_ok, not_not] at directory
  exact ⟨inode, found_ok.mp found, directory⟩

theorem validateMutableDirectory_eq_ok {done : Unit}
    (valid : catalog.validateMutableDirectory id = .ok done) :
    ∃ inode, catalog.inodes.get? id = some inode ∧ inode.kind = .directory ∧
      ¬ inode.isImmutable := by
  simp only [validateMutableDirectory, bind_ok, found_ok, refuse_ok, not_not] at valid
  rcases valid with ⟨inode, found, _, directory, mutable⟩
  exact ⟨inode, found, directory, mutable⟩

section Names

variable {config : NamespaceConfig} {ambient : Ambient} {context : RequestContext}
  {operation : Operation} {parent : ℕ} {name : Bytes}

theorem runs_lookup :
    Performs config ambient context catalog operation (catalog.lookup config parent name) := by
  refine .step refusing_validateComponent fun _ _ => ?_
  refine .step refusing_validateDirectory fun _ _ => ?_
  refine .found fun id named => ?_
  refine .expect (fun tree => tree.get?_ne_none named) fun inode present => ?_
  refine .assertThat (fun tree => tree.linkCount_pos named present) fun _ => ?_
  exact .ok .looked

theorem transition_forget {count : ℕ} :
    Transition config ambient context catalog (.forget id count) (catalog.forget id count) := by
  unfold forget
  split
  · exact .same
  · split
    · exact .same
    · exact .forgot rfl

theorem runs_openFile {options : OpenOptions} {truncate : Bool} :
    Performs config ambient context catalog operation
      (catalog.openFile ambient id options truncate) := by
  refine .found fun inode present => ?_
  refine .step refusing_validateOpen fun _ accepted => ?_
  refine .step refusing_truncation fun sequence numbered => ?_
  refine .step refusing_reserveTruncation fun _ _ => ?_
  exact .ok (.opened present accepted numbered)

theorem runs_release {handle : ℕ} :
    Performs config ambient context catalog (.release id handle) (catalog.release id handle) := by
  refine .found fun file opened => ?_
  refine .demand fun same => ?_
  refine .expect (fun tree => ?_) fun inode _ => ?_
  · rcases tree.held.handles handle file opened with ⟨inode, present, _⟩
    rw [← same, present]
    simp
  · exact .ok (.released rfl)

theorem runs_openExistingForCreate {key : EntryKey} (named : catalog.entries.get? key = some id) :
    Performs config ambient context catalog operation
      (openExistingForCreate ambient catalog id request) := by
  refine .expect (fun tree => tree.get?_ne_none named) fun inode found => ?_
  refine .step refusing_validateOpen fun _ accepted => ?_
  refine .step refusing_truncation fun sequence numbered => ?_
  refine .step refusing_reserveTruncation fun _ _ => ?_
  refine .assertThat (fun tree => .inr (tree.linkCount_pos named found)) fun _ => ?_
  exact .ok (.openedExisting found accepted numbered)

theorem runs_create :
    Performs config ambient context catalog (.create request)
      (catalog.create config ambient context request) := by
  refine .step refusing_validateComponent fun _ valid => ?_
  refine .step refusing_validateDirectory fun _ isDirectory => ?_
  rcases validateDirectory_eq_ok isDirectory with ⟨parent, found, _⟩
  cases named : catalog.entries.get? { parent := request.parent, name := request.name } with
  | some id => exact .refuse fun _ => runs_openExistingForCreate named
  | none =>
    refine .step refusing_validateMutableDirectory fun _ mutable => ?_
    refine .step .reserve fun _ _ => ?_
    refine .step .next fun sequence numbered => ?_
    refine .expect (fun _ => by simp [found]) fun above aboveFound => ?_
    refine .step .mapError fun inherited childOf => ?_
    rw [mapError_ok] at childOf
    refine .step refusing_allocateInode fun allocated allocation => ?_
    exact .ok (.created ⟨rfl, valid, mutable, named⟩ aboveFound childOf numbered allocation)

theorem runs_mkdir {mode umask : ℕ} :
    Performs config ambient context catalog (.mkdir parent name mode umask)
      (catalog.mkdir config ambient context parent name mode umask) := by
  refine .step refusing_validateComponent fun _ valid => ?_
  refine .step refusing_validateDirectory fun _ isDirectory => ?_
  rcases validateDirectory_eq_ok isDirectory with ⟨_, found, _⟩
  refine .refuse fun absent => ?_
  rw [not_isSome_iff_eq_none] at absent
  refine .step refusing_validateMutableDirectory fun _ mutable => ?_
  refine .step .next fun namespaceSequence numbered => ?_
  refine .expect (fun _ => by simp [found]) fun above aboveFound => ?_
  refine .step .nextLinks fun links counted => ?_
  refine .step refusing_nextParentSequence fun parentSequence parentNumbered => ?_
  refine .step .mapError fun inherited childOf => ?_
  rw [mapError_ok] at childOf
  refine .step .reserve fun _ _ => ?_
  refine .step refusing_allocateInode fun allocated allocation => ?_
  exact .ok (.madeDirectory ⟨rfl, valid, mutable, absent⟩ aboveFound childOf counted numbered
    parentNumbered allocation)

theorem runs_symlink {name target : Bytes} :
    Performs config ambient context catalog (.symlink parent name target)
      (catalog.symlink config ambient context parent name target) := by
  refine .step refusing_validateComponent fun _ valid => ?_
  refine .refuse fun bounded => ?_
  refine .step refusing_validateDirectory fun _ _ => ?_
  refine .step refusing_validateMutableDirectory fun _ mutable => ?_
  refine .refuse fun absent => ?_
  rw [not_isSome_iff_eq_none] at absent
  refine .step .next fun sequence numbered => ?_
  refine .step .reserve fun _ _ => ?_
  refine .step refusing_allocateInode fun allocated allocation => ?_
  exact .ok (.madeSymlink ⟨rfl, valid, mutable, absent⟩ bounded numbered allocation)

theorem runs_link :
    Performs config ambient context catalog (.link id newParent newName)
      (catalog.link config ambient context id newParent newName) := by
  refine .step refusing_validateComponent fun _ valid => ?_
  refine .step refusing_validateDirectory fun _ _ => ?_
  refine .step refusing_validateMutableDirectory fun _ parent => ?_
  refine .refuse fun absent => ?_
  rw [not_isSome_iff_eq_none] at absent
  refine .found fun inode present => ?_
  refine .refuse fun leaf => ?_
  refine .refuse fun _ => ?_
  refine .refuse fun _ => ?_
  refine .refuse fun mutable => ?_
  refine .step .next fun namespaceSequence namespaceNumbered => ?_
  refine .step .next fun sequence numbered => ?_
  refine .step .nextLinks fun links counted => ?_
  exact .ok (.linked ⟨rfl, valid, parent, absent⟩ present leaf mutable counted numbered
    namespaceNumbered)

theorem runs_unlink :
    Performs config ambient context catalog operation
      (catalog.unlink config ambient parent name) := by
  refine .step refusing_validateComponent fun _ _ => ?_
  refine .step refusing_validateDirectory fun _ _ => ?_
  refine .step refusing_validateMutableDirectory fun _ parent => ?_
  refine .step .next fun namespaceSequence namespaceNumbered => ?_
  refine .found fun id named => ?_
  refine .expect (fun tree => tree.get?_ne_none named) fun inode present => ?_
  refine .refuse fun leaf => ?_
  refine .refuse fun mutable => ?_
  refine .step .next fun sequence numbered => ?_
  exact .ok (.unlinked parent named present leaf mutable numbered namespaceNumbered)

theorem runs_rmdir :
    Performs config ambient context catalog operation (catalog.rmdir config parent name) := by
  refine .step refusing_validateComponent fun _ _ => ?_
  refine .step refusing_validateDirectory fun _ _ => ?_
  refine .step refusing_validateMutableDirectory fun _ parent => ?_
  refine .found fun id named => ?_
  refine .expect (fun tree => tree.get?_ne_none named) fun inode present => ?_
  refine .demand fun directory => ?_
  refine .refuse fun mutable => ?_
  refine .demand fun empty => ?_
  refine .assertThat (fun tree => tree.linkCount_of_empty named present directory empty) fun _ => ?_
  refine .step .next fun sequence numbered => ?_
  refine .step .next fun namespaceSequence namespaceNumbered => ?_
  rcases validateMutableDirectory_eq_ok parent with ⟨_, parentFound, parentDirectory, _⟩
  refine .expect (fun _ => by simp [parentFound]) fun above aboveFound => ?_
  have aboveDirectory : above.kind = .directory := by
    rw [parentFound, some_inj] at aboveFound
    exact aboveFound ▸ parentDirectory
  refine .assertThat (fun tree => Nat.one_le_iff_ne_zero.mpr
    (tree.links_pos named present directory aboveFound aboveDirectory)) fun _ => ?_
  refine .step refusing_nextParentSequence fun parentSequence parentNumbered => ?_
  exact .ok (.removedDirectory parent named present directory mutable empty
    aboveFound numbered namespaceNumbered parentNumbered)

section Rename

variable {key : EntryKey}

section

variable (tree : catalog.Tree True)

include tree

/-- What a rename asks of the inode that it replaces, if it replaces one. -/
theorem Tree.refusing_replaced {α : Type} {ask : Option ℕ → Except Failure α}
    (none : Refusing (ask none)) (some : ∀ target inode,
      catalog.inodes.get? target = some inode → Refusing (ask (some target))) :
    Refusing (ask (catalog.entries.get? key)) := by
  cases named : catalog.entries.get? key with
  | none => exact none
  | some target =>
    rcases ne_none_iff_exists'.mp (tree.get?_ne_none named) with ⟨inode, found⟩
    exact some target inode found

theorem Tree.refusing_validateReplaceable :
    Refusing (catalog.validateReplaceable (catalog.entries.get? key)) := by
  refine tree.refusing_replaced .ok fun target inode found => ?_
  rw [validateReplaceable, found]
  exact .refuse

theorem Tree.refusing_replaceFile :
    Refusing (catalog.replaceFile ambient (catalog.entries.get? key)) := by
  refine tree.refusing_replaced .ok fun target inode found => ?_
  rw [replaceFile, found]
  exact .expect (.bind .refuse fun _ => .bind .next fun _ => .ok)

theorem Tree.refusing_validateReplacedDirectory :
    Refusing (catalog.validateReplacedDirectory (catalog.entries.get? key)) := by
  cases named : catalog.entries.get? key with
  | none => exact .ok
  | some target =>
    suffices runs : Runs (catalog.Tree True) (catalog.validateReplacedDirectory (some target))
      fun _ => True by
      exact runs.refusing tree
    refine .expect (fun tree => tree.get?_ne_none named) fun inode found => ?_
    refine .demand fun directory => ?_
    refine .demand fun empty => ?_
    exact (Runs.asserted fun tree : catalog.Tree True =>
      tree.linkCount_of_empty named found directory empty).mono fun _ _ => trivial

theorem Tree.refusing_nextReplacedSequence :
    Refusing (catalog.nextReplacedSequence (catalog.entries.get? key)) := by
  refine tree.refusing_replaced .ok fun target inode found => ?_
  rw [nextReplacedSequence, found]
  exact .next

end

theorem refusing_parentUpdate {namespaceSequence : ℕ} {delta : ℤ} {inode : Inode}
    (found : catalog.inodes.get? id = some inode) :
    Refusing (catalog.parentUpdate namespaceSequence delta id) := by
  rw [parentUpdate, found]
  exact .expect (.bind .refuse fun _ => .bind refusing_nextParentSequence fun _ => .ok)

theorem Tree.refusing_directoryIsAncestorOrSelf (tree : catalog.Tree True)
    {ancestor candidate : ℕ} : Refusing (catalog.directoryIsAncestorOrSelf ancestor candidate) := by
  unfold directoryIsAncestorOrSelf
  split
  · exact .ok
  · simp [Refusing]
  · rename_i endless
    exact absurd endless (LinkGraph.climb_ne_none tree.forest.ranked (Nat.lt_succ_self _))

theorem runs_renameDirectory {oldKey newKey : EntryKey} {source : ℕ} {inode : Inode}
    {operation : Operation} (moves : Moves config catalog operation oldKey newKey source inode)
    (directory : inode.kind = .directory) : Performs config ambient context catalog operation
      (catalog.renameDirectory oldKey newKey source (catalog.entries.get? newKey)) := by
  rcases validateMutableDirectory_eq_ok moves.oldParent with ⟨_, oldFound, _⟩
  rcases validateMutableDirectory_eq_ok moves.parent with ⟨_, newFound, _⟩
  refine .attempt (fun tree => tree.refusing_directoryIsAncestorOrSelf) fun below climbed => ?_
  refine .refuse fun outside => ?_
  rw [Bool.not_eq_true] at outside
  subst outside
  refine .attempt (fun tree => tree.refusing_validateReplacedDirectory) fun _ replaced => ?_
  refine .step .next fun namespaceSequence numbered => ?_
  refine .attempt (fun tree => ?_) fun rootUpdate rootUpdated => ?_
  · rcases kind_eq_directory_iff.mp tree.forest.rootDirectory with ⟨root, rootFound, _⟩
    exact refusing_parentUpdate rootFound
  · refine .step (refusing_parentUpdate oldFound) fun oldUpdate oldUpdated => ?_
    refine .step (refusing_parentUpdate newFound) fun newUpdate newUpdated => ?_
    refine .attempt (fun tree => tree.refusing_nextReplacedSequence) fun _ replacedNumbered => ?_
    exact .ok (.movedDirectory moves directory climbed replaced numbered rootUpdated oldUpdated
      newUpdated replacedNumbered)

theorem runs_rename {parent : ℕ} {name : Bytes} {noReplace : Bool} :
    Performs config ambient context catalog (.rename parent name newParent newName noReplace)
      (catalog.rename config ambient parent name newParent newName noReplace) := by
  refine .step refusing_validateComponent fun _ _ => ?_
  refine .step refusing_validateComponent fun _ valid => ?_
  refine .step refusing_validateDirectory fun _ _ => ?_
  refine .step refusing_validateDirectory fun _ _ => ?_
  refine .step refusing_validateMutableDirectory fun _ oldMutable => ?_
  refine .step refusing_validateMutableDirectory fun _ newMutable => ?_
  refine .found fun source named => ?_
  refine .ite (fun _ => .ok .same) fun ne => ?_
  refine .refuse fun _ => ?_
  refine .ite (fun _ => .ok .same) fun notSource => ?_
  refine .refuse fun _ => ?_
  refine .expect (fun tree => tree.get?_ne_none named) fun inode present => ?_
  refine .refuse fun mutable => ?_
  refine .attempt (fun tree => tree.refusing_validateReplaceable) fun _ replaceable => ?_
  refine .step .reserve fun _ _ => ?_
  have other : ({ parent, name } : EntryKey) ≠ { parent := newParent, name := newName } := by
    intro same
    rw [EntryKey.mk.injEq] at same
    exact ne same
  have moves : Moves config catalog (.rename parent name newParent newName noReplace) _ _ source
      inode :=
    ⟨rfl, valid, oldMutable, newMutable, named, other, notSource, present, mutable, replaceable⟩
  refine .ite (fun directory => runs_renameDirectory moves directory) fun leaf => ?_
  refine .step .next fun namespaceSequence numbered => ?_
  refine .attempt (fun tree => tree.refusing_replaceFile) fun replacing replace => ?_
  exact .ok (.movedFile moves leaf numbered replace)

end Rename

end Names

end Catalog

end Fastdup.Posix
