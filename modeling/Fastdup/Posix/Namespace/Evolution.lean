import Fastdup.Posix.Namespace.Tree

/-!
# How the inodes evolve

An inode keeps its kind, its sequence numbers do not decrease, and it stays sound. New inodes get
new numbers.
-/

namespace Fastdup.Posix

open Library Checked Nat Inode InodeMetadata Option

variable {options : OpenOptions} {above : Inode} {parentSequence oldParent newParent : ℕ}
  {oldKey newKey : EntryKey}

namespace Catalog

variable {tidy : Prop} {config : NamespaceConfig} {ambient : Ambient} {context : RequestContext}
  {catalog before after : Catalog} {id : ℕ} {key : EntryKey}

theorem Tree.root (tree : catalog.Tree tidy) : ∃ root,
    catalog.inodes.get? ROOT_INODE = some root ∧ root.kind = .directory ∧ root.linkCount ≥ 2 := by
  rcases kind_eq_directory_iff.mp tree.forest.rootDirectory with ⟨root, present, directory⟩
  refine ⟨root, present, directory, ?_⟩
  have links := tree.forest.rootLinks
  rw [links_of_get? present] at links
  omega

variable {inode : Inode}

theorem Tree.ne_root_of_leaf (tree : catalog.Tree tidy)
    (present : catalog.inodes.get? id = some inode) (leaf : inode.kind ≠ .directory) :
    id ≠ ROOT_INODE := by
  rintro rfl
  rcases tree.root with ⟨root, found, directory, _⟩
  rw [present, some_inj] at found
  exact leaf (found ▸ directory)

theorem rootMutationSequence_of_get?
    (same : after.inodes.get? ROOT_INODE = before.inodes.get? ROOT_INODE) :
    after.rootMutationSequence = before.rootMutationSequence := by
  rw [rootMutationSequence, same, rootMutationSequence]

variable {sequence : ℕ}

theorem nextRootMutationSequence_le (numbered : catalog.nextRootMutationSequence = .ok sequence) :
    catalog.rootMutationSequence ≤ sequence := by
  rcases next_ok.mp numbered with ⟨_, rfl⟩
  exact le_succ _

theorem next_le {sequence following : ℕ} (numbered : next sequence = .ok following) :
    sequence ≤ following := by
  rcases next_ok.mp numbered with ⟨_, rfl⟩
  exact le_succ _

theorem nextLinks_lt {links next : ℕ} (counted : nextLinks links = .ok next) : next < 2 ^ 32 := by
  rcases nextLinks_ok.mp counted with ⟨fits, rfl⟩
  exact fits

theorem evolves_insertEntry : catalog.Evolves (catalog.insertEntry key id) :=
  .of_inodes_eq rfl rfl rfl

theorem evolves_removeEntry : catalog.Evolves (catalog.removeEntry key) :=
  .of_inodes_eq rfl rfl rfl

theorem evolves_addHandle : catalog.Evolves (catalog.addHandle id options) :=
  .of_inodes_eq rfl rfl rfl

theorem evolves_acquireLookup {count : ℕ} : catalog.Evolves (catalog.acquireLookup id count) :=
  .of_inodes_eq rfl rfl rfl

theorem evolves_setLinks {links sequence : ℕ} (present : catalog.inodes.get? id = some inode)
    (fits : inode.linkCount < 2 ^ 32 → links < 2 ^ 32) (later : inode.mutationSequence ≤ sequence) :
    catalog.Evolves (catalog.setLinks ambient id links sequence) := by
  apply evolves_update_of_get? present
  have counted : inode.Evolves id { inode with linkCount := links } :=
    ⟨rfl, le_refl _, fits, rfl, fun sound => { sound with links := fits sound.links }⟩
  exact (counted.trans (evolves_changed ambient.now)).trans (evolves_advance later)

variable {links namespaceSequence : ℕ}

theorem evolves_adjustParent (present : catalog.inodes.get? id = some above)
    (fits : above.linkCount < 2 ^ 32 → links < 2 ^ 32)
    (rootNumbered : catalog.rootMutationSequence ≤ namespaceSequence)
    (numbered : nextParentSequence id above namespaceSequence = .ok sequence) :
    catalog.Evolves (catalog.adjustParent id links sequence namespaceSequence) := by
  apply evolves_update_of_get? present
  refine ⟨rfl, ?_, fits, rfl, fun sound => { sound with links := fits sound.links }⟩
  split
  · rename_i isRoot
    rw [rootMutationSequence, ← isRoot, present] at rootNumbered
    exact rootNumbered
  · rename_i notRoot
    rw [nextParentSequence, if_neg notRoot] at numbered
    exact next_le numbered

theorem rootMutationSequence_adjustParent
    (rootNumbered : catalog.rootMutationSequence ≤ namespaceSequence) :
    (catalog.adjustParent id links sequence namespaceSequence).rootMutationSequence ≤
      namespaceSequence := by
  rw [rootMutationSequence, adjustParent, get?_update]
  split
  · rename_i isRoot
    cases present : catalog.inodes.get? id with
    | none => exact zero_le _
    | some inode => simp [← isRoot]
  · exact rootNumbered

theorem evolves_removeDirectory (present : catalog.inodes.get? id = some inode)
    (later : inode.mutationSequence ≤ sequence) :
    catalog.Evolves (catalog.removeDirectory id sequence) := by
  apply evolves_update_of_get? present
  exact evolves_links (by decide) later

section

variable (notRoot : id ≠ ROOT_INODE)

include notRoot

theorem rootMutationSequence_setLinks {links sequence : ℕ} :
    (catalog.setLinks ambient id links sequence).rootMutationSequence =
      catalog.rootMutationSequence := by
  apply rootMutationSequence_of_get?
  rw [setLinks, get?_update, if_neg (Ne.symm notRoot)]

theorem rootMutationSequence_removeDirectory :
    (catalog.removeDirectory id sequence).rootMutationSequence = catalog.rootMutationSequence := by
  apply rootMutationSequence_of_get?
  rw [removeDirectory, get?_update, if_neg (Ne.symm notRoot)]

theorem sound_newInode {kind : FileKind} {mode links : ℕ} {metadata : InodeMetadata}
    {target : Option Bytes} (valid : metadata.Valid kind) (fits : links < 2 ^ 32)
    (isTarget : kind = .symlink → ∃ bytes, target = some bytes ∧ bytes ≠ [] ∧
      bytes.length ≤ MAXIMUM_SYMLINK_TARGET_BYTES) (noTarget : kind ≠ .symlink → target = none) :
    (newInode ambient context kind mode links metadata target).Sound id where
  metadata := valid
  mode := fun isRoot => absurd isRoot notRoot
  links := fits
  target := isTarget
  noTarget := noTarget
  noBytes := fun _ => rfl

omit notRoot in
theorem Tree.nextInode_ne_root (tree : catalog.Tree tidy) : catalog.nextInode ≠ ROOT_INODE := by
  rcases tree.root with ⟨root, present, _⟩
  exact ne_of_gt (tree.held.numbers _ root present)

theorem rootMutationSequence_addInode :
    (catalog.addInode key id inode).rootMutationSequence = catalog.rootMutationSequence := by
  apply rootMutationSequence_of_get?
  rw [addInode, SortedMap.get?_insert, if_neg (Ne.symm notRoot)]

end

section

variable (tree : catalog.Tree tidy)

include tree

section

variable (numbered : catalog.nextRootMutationSequence = .ok sequence)

include numbered

theorem Tree.rootMutationSequence_added :
    (Catalog.addInode { catalog with nextInode := catalog.nextInode + 1 } key catalog.nextInode
      inode).rootMutationSequence ≤ sequence := by
  refine le_trans (le_of_eq ?_) (nextRootMutationSequence_le numbered)
  exact rootMutationSequence_addInode tree.nextInode_ne_root

variable (sound : inode.Sound catalog.nextInode)

include sound

theorem Tree.evolves_withFile :
    catalog.Evolves (Catalog.withFile { catalog with nextInode := catalog.nextInode + 1 } key
      catalog.nextInode inode options sequence) :=
  ((evolves_addInode sound).trans evolves_addHandle).trans
    (evolves_installRootMutationSequence (@rootMutationSequence_added _ _ key _ _ tree numbered))

theorem Tree.evolves_withSymlink :
    catalog.Evolves (Catalog.withSymlink { catalog with nextInode := catalog.nextInode + 1 } key
      catalog.nextInode inode sequence) :=
  (evolves_addInode sound).trans
    (evolves_installRootMutationSequence (tree.rootMutationSequence_added numbered))

theorem Tree.evolves_withDirectory (present : catalog.inodes.get? key.parent = some above)
    (counted : nextLinks above.linkCount = .ok links)
    (parentNumbered : nextParentSequence key.parent above sequence = .ok parentSequence) :
    catalog.Evolves (Catalog.withDirectory { catalog with nextInode := catalog.nextInode + 1 } key
      catalog.nextInode inode links parentSequence sequence) := by
  have other : key.parent ≠ catalog.nextInode := Nat.ne_of_lt (tree.held.numbers _ above present)
  have root := @Tree.rootMutationSequence_added _ _ key inode _ tree numbered
  have kept : (Catalog.addInode { catalog with nextInode := catalog.nextInode + 1 } key
      catalog.nextInode inode).inodes.get? key.parent = some above := by
    rw [addInode, SortedMap.get?_insert, if_neg other, present]
  exact ((evolves_addInode sound).trans
    (evolves_adjustParent kept (fun _ => nextLinks_lt counted) root parentNumbered)).trans
    (evolves_installRootMutationSequence (rootMutationSequence_adjustParent root))

end

section

variable (present : catalog.inodes.get? id = some inode) (leaf : inode.kind ≠ .directory)

include present leaf

theorem Tree.evolves_withLink (counted : nextLinks inode.linkCount = .ok links)
    (numbered : next inode.mutationSequence = .ok sequence)
    (namespaceNumbered : catalog.nextRootMutationSequence = .ok namespaceSequence) :
    catalog.Evolves (catalog.withLink ambient key id links sequence namespaceSequence) := by
  have linked := @evolves_setLinks ambient _ _ _ _ _ present (fun _ => nextLinks_lt counted)
    (next_le numbered)
  refine ((linked.trans evolves_insertEntry).trans
    (evolves_installRootMutationSequence ?_)).trans evolves_acquireLookup
  refine le_trans (le_of_eq ?_) (nextRootMutationSequence_le namespaceNumbered)
  exact rootMutationSequence_setLinks (tree.ne_root_of_leaf present leaf)

theorem Tree.evolves_withoutName {sequence namespaceSequence : ℕ}
    (numbered : next inode.mutationSequence = .ok sequence)
    (namespaceNumbered : catalog.nextRootMutationSequence = .ok namespaceSequence) :
    catalog.Evolves (catalog.withoutName ambient key id (inode.linkCount - 1) sequence
      namespaceSequence) := by
  refine (((evolves_setLinks present (fun fits => by omega) (next_le numbered)).trans
    evolves_removeEntry).trans (evolves_installRootMutationSequence ?_)).trans
    (evolves_dropOrphan _ id)
  refine le_trans (le_of_eq ?_) (nextRootMutationSequence_le namespaceNumbered)
  exact rootMutationSequence_setLinks (tree.ne_root_of_leaf present leaf)

end

theorem Tree.evolves_withoutDirectory {inode : Inode} {sequence namespaceSequence : ℕ}
    (named : catalog.entries.get? key = some id) (present : catalog.inodes.get? id = some inode)
    (aboveFound : catalog.inodes.get? key.parent = some above)
    (numbered : next inode.mutationSequence = .ok sequence)
    (namespaceNumbered : catalog.nextRootMutationSequence = .ok namespaceSequence)
    (parentNumbered : nextParentSequence key.parent above namespaceSequence = .ok parentSequence) :
    catalog.Evolves (catalog.withoutDirectory key id sequence (above.linkCount - 1) parentSequence
      namespaceSequence) := by
  have notRoot : id ≠ ROOT_INODE := tree.forest.rootFree _ (mem_edges.mpr named)
  have root : (catalog.removeDirectory id sequence).rootMutationSequence ≤ namespaceSequence := by
    rw [rootMutationSequence_removeDirectory notRoot]
    exact nextRootMutationSequence_le namespaceNumbered
  have kept : (catalog.removeDirectory id sequence).inodes.get? key.parent = some above := by
    rw [removeDirectory, get?_update, if_neg (tree.parent_ne_target named), aboveFound]
  refine ((((evolves_removeDirectory present (next_le numbered)).trans
    (evolves_adjustParent kept (fun fits => by omega) root parentNumbered)).trans
    evolves_removeEntry).trans (evolves_installRootMutationSequence ?_)).trans
    (evolves_dropDirectory _ id)
  exact rootMutationSequence_adjustParent root

end

variable {replaced : Option ℕ} {replacing : Catalog}

theorem Tree.evolves_replaceFile (tree : catalog.Tree tidy)
    (replace : catalog.replaceFile ambient replaced = .ok replacing) :
    catalog.Evolves replacing ∧ replacing.rootMutationSequence = catalog.rootMutationSequence := by
  cases replaced with
  | none =>
    cases replace
    exact ⟨.refl catalog, rfl⟩
  | some target =>
    simp only [replaceFile, bind_ok, pure_ok, expect_ok, refuse_ok] at replace
    rcases replace with ⟨old, found, _, leaf, sequence, numbered, rfl⟩
    exact ⟨evolves_setLinks found (fun fits => by omega) (next_le numbered),
      rootMutationSequence_setLinks (tree.ne_root_of_leaf found leaf)⟩

theorem evolves_finishReplacedFile : catalog.Evolves (catalog.finishReplacedFile replaced) := by
  cases replaced with
  | none => exact .refl catalog
  | some target => exact evolves_dropOrphan catalog target

theorem Tree.evolves_withMovedFile {source namespaceSequence : ℕ} (tree : catalog.Tree tidy)
    (replace : catalog.replaceFile ambient replaced = .ok replacing)
    (numbered : catalog.nextRootMutationSequence = .ok namespaceSequence) :
    catalog.Evolves (replacing.withMovedFile ambient oldKey newKey source replaced
      namespaceSequence) := by
  rcases tree.evolves_replaceFile replace with ⟨evolves, sequence⟩
  have touched : replacing.Evolves (replacing.update source (Inode.changed ambient.now)) :=
    evolves_update fun _ _ => Inode.evolves_changed ambient.now
  refine ((((evolves.trans touched).trans evolves_removeEntry).trans evolves_insertEntry).trans
    (evolves_installRootMutationSequence ?_)).trans evolves_finishReplacedFile
  have quiet : (replacing.update source (Inode.changed ambient.now)).rootMutationSequence =
      replacing.rootMutationSequence := rootMutationSequence_update fun _ _ => rfl
  exact le_trans (le_of_eq (quiet.trans sequence)) (nextRootMutationSequence_le numbered)

/-- The next sequence number of a parent is not lower, and for the root it is that of the
namespace. -/
theorem nextParentSequence_le {sequence namespaceSequence : ℕ}
    (present : catalog.inodes.get? id = some above)
    (rootNumbered : catalog.rootMutationSequence ≤ namespaceSequence)
    (numbered : nextParentSequence id above namespaceSequence = .ok sequence) :
    above.mutationSequence ≤ sequence := by
  rw [nextParentSequence] at numbered
  split at numbered
  · rename_i isRoot
    cases numbered
    rw [rootMutationSequence, ← isRoot, present] at rootNumbered
    exact rootNumbered
  · exact next_le numbered

/-- The sequence number is not lower than that of the inode, if it is there. -/
abbrev Reaches (catalog : Catalog) (id sequence : ℕ) : Prop :=
  ∀ inode, catalog.inodes.get? id = some inode → inode.mutationSequence ≤ sequence

theorem evolves_applyParentUpdate {links : ℕ × ℕ} (fits : links.1 < 2 ^ 32)
    (later : catalog.Reaches id links.2) :
    catalog.Evolves (catalog.applyParentUpdate id links) :=
  evolves_update fun inode present => evolves_links fits (later inode present)

/-- Two updates of one inode have the same sequence number, so it does not matter that an inode
may be updated twice. -/
theorem later_applyParentUpdate {other : ℕ} {links otherLinks : ℕ × ℕ}
    (same : other = id → otherLinks.2 = links.2)
    (later : catalog.Reaches other otherLinks.2) :
    (catalog.applyParentUpdate id links).Reaches other otherLinks.2 := by
  intro inode present
  rw [applyParentUpdate, get?_update] at present
  split at present
  · rename_i isOther
    rw [map_eq_some_iff] at present
    rcases present with ⟨old, _, rfl⟩
    exact le_of_eq (same isOther).symm
  · exact later inode present

theorem parentUpdate_later {namespaceSequence : ℕ} {delta : ℤ} {update : ℕ × ℕ}
    (rootNumbered : catalog.rootMutationSequence ≤ namespaceSequence)
    (updated : catalog.parentUpdate namespaceSequence delta id = .ok update) :
    update.1 < 2 ^ 32 ∧ catalog.Reaches id update.2 := by
  rcases parentUpdate_eq_ok updated with ⟨above, present, _, fits, numbered⟩
  refine ⟨fits, fun inode found => ?_⟩
  rw [present, some_inj] at found
  exact found ▸ nextParentSequence_le present rootNumbered numbered

variable {rootUpdate oldUpdate newUpdate : ℕ × ℕ}

theorem evolves_withParents
    (root : rootUpdate.1 < 2 ^ 32 ∧ catalog.Reaches ROOT_INODE rootUpdate.2)
    (old : oldUpdate.1 < 2 ^ 32 ∧ catalog.Reaches oldParent oldUpdate.2)
    (new : newUpdate.1 < 2 ^ 32 ∧ catalog.Reaches newParent newUpdate.2)
    (oldRoot : oldParent = ROOT_INODE → oldUpdate.2 = rootUpdate.2)
    (newRoot : newParent = ROOT_INODE → newUpdate.2 = rootUpdate.2)
    (newOld : newParent = oldParent → newUpdate.2 = oldUpdate.2) :
    catalog.Evolves (catalog.withParents oldParent newParent rootUpdate oldUpdate newUpdate) := by
  refine ((evolves_applyParentUpdate root.1 root.2).trans
    (evolves_applyParentUpdate old.1 ?_)).trans (evolves_applyParentUpdate new.1 ?_)
  · exact later_applyParentUpdate oldRoot old.2
  · exact later_applyParentUpdate newOld (later_applyParentUpdate newRoot new.2)

theorem get?_withParents {other : ℕ} (notRoot : other ≠ ROOT_INODE) (notOld : other ≠ oldParent)
    (notNew : other ≠ newParent) :
    (catalog.withParents oldParent newParent rootUpdate oldUpdate newUpdate).inodes.get? other =
      catalog.inodes.get? other := by
  rw [withParents, applyParentUpdate, get?_update, if_neg notNew, applyParentUpdate, get?_update,
    if_neg notOld, applyParentUpdate, get?_update, if_neg notRoot]

theorem evolves_finishReplacedDirectory {replaced : Option ℕ} {sequence : ℕ}
    (later : ∀ target ∈ replaced, catalog.Reaches target sequence) :
    catalog.Evolves (catalog.finishReplacedDirectory replaced sequence) := by
  cases replaced with
  | none => exact .refl catalog
  | some target =>
    refine Evolves.trans ?_ (evolves_dropDirectory _ target)
    exact evolves_update fun inode present =>
      evolves_links (by decide) (later target rfl inode present)

theorem Tree.evolves_withMovedDirectory {source sequence namespaceSequence : ℕ}
    {replaced : Option ℕ} {delta : ℕ → ℤ} (tree : catalog.Tree tidy)
    (named : catalog.entries.get? oldKey = some source)
    (at_ : catalog.entries.get? newKey = replaced)
    (replaceable : catalog.validateReplacedDirectory replaced = .ok ())
    (numbered : catalog.nextRootMutationSequence = .ok namespaceSequence)
    (root : catalog.parentUpdate namespaceSequence (delta ROOT_INODE) ROOT_INODE = .ok rootUpdate)
    (old : catalog.parentUpdate namespaceSequence (delta oldKey.parent) oldKey.parent =
      .ok oldUpdate)
    (new : catalog.parentUpdate namespaceSequence (delta newKey.parent) newKey.parent =
      .ok newUpdate) (replacedNumbered : catalog.nextReplacedSequence replaced = .ok sequence) :
    catalog.Evolves (catalog.withMovedDirectory oldKey newKey source replaced rootUpdate oldUpdate
      newUpdate sequence) := by
  have rootNumbered := nextRootMutationSequence_le numbered
  -- the same inode gets the same update
  have oldRoot : oldKey.parent = ROOT_INODE → oldUpdate.2 = rootUpdate.2 := by
    intro same
    rw [same, root, Except.ok.injEq] at old
    rw [old]
  have newRoot : newKey.parent = ROOT_INODE → newUpdate.2 = rootUpdate.2 := by
    intro same
    rw [same, root, Except.ok.injEq] at new
    rw [new]
  have newOld : newKey.parent = oldKey.parent → newUpdate.2 = oldUpdate.2 := by
    intro same
    rw [same, old, Except.ok.injEq] at new
    rw [new]
  have moved : catalog.Evolves ((catalog.removeEntry oldKey).insertEntry newKey source) :=
    evolves_removeEntry.trans evolves_insertEntry
  refine (moved.trans (evolves_withParents (parentUpdate_later rootNumbered root)
    (parentUpdate_later rootNumbered old) (parentUpdate_later rootNumbered new) oldRoot newRoot
    newOld)).trans (evolves_finishReplacedDirectory ?_)
  -- what is replaced is empty, so it is not one of the parents
  rintro target rfl inode present
  simp only [validateReplacedDirectory, bind_ok, refuse_ok, not_not,
    isEmptyDirectory_iff] at replaceable
  rcases replaceable with ⟨_, _, _, _, _, empty, _⟩
  have notRoot : target ≠ ROOT_INODE := tree.forest.rootFree _ (mem_edges.mpr at_)
  have notOld : target ≠ oldKey.parent := Ne.symm (empty _ (mem_edges.mpr named))
  have notNew : target ≠ newKey.parent := Ne.symm (empty _ (mem_edges.mpr at_))
  rw [get?_withParents notRoot notOld notNew] at present
  rcases bind_ok.mp replacedNumbered with ⟨found, foundPresent, numbered⟩
  rw [expect_ok] at foundPresent
  have same : found = inode := some_inj.mp (foundPresent.symm.trans present)
  exact same ▸ next_le numbered

theorem Attributes.evolves {inode changed : Inode} (attributes : Attributes id inode changed) :
    inode.Evolves id changed := by
  refine ⟨attributes.kind, le_of_eq attributes.mutationSequence.symm,
    fun fits => attributes.linkCount ▸ fits, attributes.symlinkTarget, fun sound => ?_⟩
  constructor
  case metadata =>
    rw [attributes.kind]
    exact attributes.metadata sound.metadata
  case mode => exact fun isRoot => attributes.mode (sound.mode isRoot)
  case links =>
    rw [attributes.linkCount]
    exact sound.links
  case target =>
    rw [attributes.kind, attributes.symlinkTarget]
    exact sound.target
  case noTarget =>
    rw [attributes.kind, attributes.symlinkTarget]
    exact sound.noTarget
  case noBytes =>
    rw [attributes.kind, attributes.data]
    exact sound.noBytes

theorem evolves_mutate {inode : Inode} {change : Inode → Inode} {sequences : ℕ × ℕ}
    (present : catalog.inodes.get? id = some inode) (evolves : inode.Evolves id (change inode))
    (same : (change inode).mutationSequence = inode.mutationSequence)
    (numbered : catalog.nextMutationSequences id inode.mutationSequence = .ok sequences) :
    catalog.Evolves (catalog.mutate id change sequences) := by
  rcases bind_ok.mp numbered with ⟨inodeSequence, inodeNumbered, numbered⟩
  have changed : inodeSequence = sequences.2 →
      catalog.Evolves (catalog.update id fun inode => (change inode).advance sequences.2) := by
    rintro rfl
    apply evolves_update_of_get? present
    exact evolves.trans (evolves_advance (same ▸ next_le inodeNumbered))
  unfold mutate
  split at numbered
  · rename_i isRoot
    cases numbered
    rw [if_pos isRoot]
    exact changed rfl
  · rename_i notRoot
    rcases bind_ok.mp numbered with ⟨namespaceSequence, rootNumbered, numbered⟩
    cases numbered
    rw [if_neg notRoot]
    refine (changed rfl).trans (evolves_installRootMutationSequence ?_)
    rw [rootMutationSequence_update fun isRoot => absurd isRoot notRoot]
    exact nextRootMutationSequence_le rootNumbered

theorem evolves_truncated {inode : Inode} {truncate : Bool} {sequence : Option ℕ}
    (present : catalog.inodes.get? id = some inode) (regular : inode.kind = .regular)
    (numbered : truncation inode truncate = .ok sequence) :
    catalog.Evolves (truncated ambient catalog id sequence) := by
  cases sequence with
  | none => exact .refl catalog
  | some sequence =>
    apply evolves_update_of_get? present
    apply evolves_written regular
    unfold truncation at numbered
    split at numbered
    · rcases bind_ok.mp numbered with ⟨following, later, done⟩
      cases done
      exact next_le later
    · cases numbered

theorem Transition.evolves {operation : Operation} (tree : catalog.Tree tidy)
    (transition : Transition config ambient context catalog operation after) :
    catalog.Evolves after := by
  cases transition with
  | same => exact .refl catalog
  | looked => exact .of_inodes_eq rfl rfl rfl
  | forgot | released =>
    refine Evolves.trans ?_ (evolves_dropOrphan _ _)
    exact .of_inodes_eq rfl rfl rfl
  | opened present accepted numbered =>
    exact (evolves_truncated present (validateOpen_eq_ok accepted).1 numbered).trans
      evolves_addHandle
  | openedExisting present accepted numbered =>
    exact ((evolves_truncated present (validateOpen_eq_ok accepted).1 numbered).trans
      evolves_addHandle).trans evolves_acquireLookup
  | created _ _ inherited numbered allocation =>
    rcases allocateInode_eq_ok allocation with ⟨_, _, rfl, rfl⟩
    apply tree.evolves_withFile numbered
    exact sound_newInode tree.nextInode_ne_root (InodeMetadata.valid_of_forChild inherited)
      (by decide) nofun fun _ => rfl
  | madeDirectory _ present inherited counted numbered parentNumbered allocation =>
    rcases allocateInode_eq_ok allocation with ⟨_, _, rfl, rfl⟩
    refine tree.evolves_withDirectory numbered ?_ present counted parentNumbered
    exact sound_newInode tree.nextInode_ne_root (InodeMetadata.valid_of_forChild inherited)
      (by decide) nofun fun _ => rfl
  | @madeSymlink _ _ target _ _ _ bounded numbered allocation =>
    rcases allocateInode_eq_ok allocation with ⟨_, _, rfl, rfl⟩
    apply tree.evolves_withSymlink numbered
    rw [not_or, not_lt] at bounded
    exact sound_newInode tree.nextInode_ne_root (InodeMetadata.valid_default .symlink) (by decide)
      (fun _ => ⟨target, rfl, bounded⟩) fun other => absurd rfl other
  | linked _ present leaf _ counted numbered namespaceNumbered =>
    exact tree.evolves_withLink present leaf counted numbered namespaceNumbered
  | unlinked _ _ present leaf _ numbered namespaceNumbered =>
    exact tree.evolves_withoutName present leaf numbered namespaceNumbered
  | removedDirectory _ named present _ _ _ aboveFound numbered namespaceNumbered parentNumbered =>
    exact tree.evolves_withoutDirectory named present aboveFound numbered namespaceNumbered
      parentNumbered
  | movedFile _ _ numbered replace =>
    exact tree.evolves_withMovedFile replace numbered
  | movedDirectory moves _ _ replaced numbered rootUpdated oldUpdated newUpdated replacedNumbered =>
      exact tree.evolves_withMovedDirectory moves.named rfl replaced numbered rootUpdated oldUpdated
        newUpdated replacedNumbered
  | attributed present _ attributes numbered =>
    exact evolves_mutate present attributes.evolves attributes.mutationSequence numbered
  | handedOver _ present _ attributes numbered =>
    exact evolves_mutate present attributes.evolves attributes.mutationSequence numbered
  | flagged _ _ present attributes numbered =>
    exact evolves_mutate present attributes.evolves attributes.mutationSequence numbered
  | flaggedOnly _ _ present attributes =>
    exact evolves_update_of_get? present attributes.evolves
  | accessed present numbered =>
    refine evolves_mutate present ?_ rfl numbered
    exact ⟨rfl, le_refl _, fun fits => fits, rfl, fun sound => { sound with }⟩
  | written present regular _ numbered =>
    apply evolves_update_of_get? present
    exact Inode.evolves_written regular (next_le numbered)

end Catalog

end Fastdup.Posix
