import Fastdup.Posix.Namespace.Graph

/-!
# Renames

A rename takes away what is at the new place, moves the entry there, and forgets what has lost
its last name. A directory is not moved below itself: that is what the climb from the new place
to the root is for.
-/

namespace Fastdup.Posix

open Library Checked SortedMap LinkGraph

variable {key : EntryKey} {ambient : Ambient} {replaced : Option ℕ} {namespaceSequence fuel : ℕ}
  {replaces : Bool} {moved : Catalog}

namespace Catalog

section Moving

variable {tidy : Prop} {catalog before after : Catalog} {source : ℕ} {oldKey newKey : EntryKey}

theorem Tree.move {rest : List (Edge ℕ Bytes)} (tree : before.Tree tidy)
    (edges : before.edges.Perm (oldKey.edge source :: rest))
    (edgesAfter : after.edges.Perm (newKey.edge source :: rest))
    (fresh : ∀ other ∈ rest, other.place ≠ (newKey.edge source).place)
    (directory : before.graph.kind newKey.parent = some .directory)
    (linked : tidy → newKey.parent = ROOT_INODE ∨ before.graph.incoming newKey.parent ≠ 0)
    (outside : ¬ LinkGraph.Reachable source rest newKey.parent)
    (kinds : after.graph.kind = before.graph.kind) (links : ∀ id, after.graph.links id +
        (if oldKey.parent = id ∧ before.graph.kind source = some .directory then 1 else 0) =
      before.graph.links id +
        if newKey.parent = id ∧ before.graph.kind source = some .directory then 1 else 0)
    (held : after.Held) : after.Tree tidy := by
  have forest : before.graph.edges.Perm (oldKey.edge source :: rest) := edges
  have forestAfter : after.graph.edges.Perm (newKey.edge source :: rest) := edgesAfter
  exact ⟨tree.forest.move forest forestAfter rfl directory fresh outside kinds links,
    fun isTidy => (tree.attached isTidy).move forest forestAfter rfl (linked isTidy), held⟩

/-- The entries that a rename leaves alone: the replaced entry goes, and the moved one. -/
def unmoved (catalog : Catalog) (oldKey newKey : EntryKey) : Catalog :=
  (catalog.removeEntry newKey).removeEntry oldKey

theorem place_ne_of_mem_unmoved {edge : Edge ℕ Bytes}
    (mem : edge ∈ (catalog.unmoved oldKey newKey).edges) :
    edge.place ≠ (newKey.edge source).place := by
  rw [unmoved, removeEntry, removeEntry, remove_comm] at mem
  refine place_ne_of_absent ?_ edge mem
  rw [get?_remove, if_pos rfl]

theorem unmoved_subset : (catalog.unmoved oldKey newKey).edges ⊆ catalog.edges := by
  intro edge mem
  rcases exists_of_mem_edges mem with ⟨key, id, rfl, found⟩
  exact mem_edges.mpr (get?_of_get?_remove (get?_of_get?_remove found))

theorem get?_removeEntry {other : EntryKey} (ne : other ≠ key) :
    (catalog.removeEntry key).entries.get? other = catalog.entries.get? other := by
  rw [removeEntry, get?_remove, if_neg ne]

theorem perm_edges_unmoved (named : catalog.entries.get? oldKey = some source)
    (other : oldKey ≠ newKey) : (catalog.removeEntry newKey).edges.Perm
      (oldKey.edge source :: (catalog.unmoved oldKey newKey).edges) :=
  perm_edges_remove ((get?_removeEntry other).trans named) rfl

theorem perm_edges_moved
    (moved : after.entries = (catalog.entries.remove oldKey).insert newKey source) :
    after.edges.Perm (newKey.edge source :: (catalog.unmoved oldKey newKey).edges) := by
  rw [edges, edges, moved, unmoved, removeEntry, removeEntry, remove_comm]
  exact perm_insert.map _

theorem removeEntry_of_absent (absent : catalog.entries.get? key = none) :
    catalog.removeEntry key = catalog := by
  rw [removeEntry, remove_of_get?_eq_none absent]

/-- The place in front of a name is not what the name leads to, so it keeps its own name when
that one is taken away. -/
theorem Tree.linked_cleared (tree : catalog.Tree tidy) (parent : catalog.Host tidy newKey.parent)
    (cleared : before.entries = catalog.entries.remove newKey) (isTidy : tidy) :
    newKey.parent = ROOT_INODE ∨ before.graph.incoming newKey.parent ≠ 0 := by
  refine (parent.incoming tree isTidy).imp_right fun named => ?_
  cases at_ : catalog.entries.get? newKey with
  | none =>
    have same : before.graph.edges = catalog.graph.edges :=
      edges_congr (cleared.trans (remove_of_get?_eq_none at_))
    rw [incoming, same]
    exact named
  | some target =>
    have edges : catalog.graph.edges.Perm (newKey.edge target :: before.graph.edges) :=
      perm_edges_remove at_ cleared
    have notTarget : ¬ (newKey.edge target).target = newKey.parent :=
      Ne.symm (tree.parent_ne_target at_)
    rw [incoming_of_perm edges, if_neg notTarget] at named
    exact named

theorem Tree.moveFile {now : PosixTimestamp} (cleared : (catalog.removeEntry newKey).Tree tidy)
    (held : catalog.Held) (named : catalog.entries.get? oldKey = some source)
      (other : oldKey ≠ newKey) (leaf : catalog.graph.kind source = some .leaf)
    (directory : catalog.graph.kind newKey.parent = some .directory)
    (linked : tidy → newKey.parent = ROOT_INODE ∨
      (catalog.removeEntry newKey).graph.incoming newKey.parent ≠ 0) :
    (((catalog.update source (Inode.changed now)).removeEntry oldKey).insertEntry newKey
      source).Tree tidy := by
  have edges := perm_edges_unmoved named other
  have touched : (catalog.update source (Inode.changed now)).graph = catalog.graph :=
    graph_update (fun _ _ => rfl) fun _ _ => rfl
  have heldAfter : (catalog.update source (Inode.changed now)).Held := held.update fun _ _ => rfl
  apply cleared.move edges (perm_edges_moved _) (fun _ => place_ne_of_mem_unmoved) directory linked
  · apply LinkGraph.Forest.not_reachable_of_childless
    · intro edge mem
      exact cleared.forest.leaf_childless leaf edge (edges.mem_iff.mpr (List.mem_cons_of_mem _ mem))
    · intro same
      rw [same, leaf] at directory
      cases directory
  · simp [touched]
  · intro id
    simp [touched, leaf]
  · apply heldAfter.removeEntry.insertEntry
    apply heldAfter.lt_nextInode
    rw [touched, directory]
  · rw [insertEntry, removeEntry, entries_update]

theorem entries_replaceFile {after : Catalog}
    (replace : catalog.replaceFile ambient replaced = .ok after) :
    after.entries = catalog.entries := by
  cases replaced with
  | none =>
    cases replace
    rfl
  | some target =>
    simp only [replaceFile, bind_ok, pure_ok] at replace
    rcases replace with ⟨_, _, _, _, _, _, rfl⟩
    exact entries_setLinks

theorem Tree.withMovedFile {inode : Inode} {replacing : Catalog} (tree : catalog.Tree tidy)
    (named : catalog.entries.get? oldKey = some source) (other : oldKey ≠ newKey)
    (present : catalog.inodes.get? source = some inode) (leaf : inode.kind ≠ .directory)
    (parent : catalog.Host tidy newKey.parent) (at_ : catalog.entries.get? newKey = replaced)
    (replace : catalog.replaceFile ambient replaced = .ok replacing) :
    (replacing.withMovedFile ambient oldKey newKey source replaced namespaceSequence).Tree
      tidy := by
  have isLeaf : catalog.graph.kind source = some .leaf :=
    kind_eq_leaf_iff.mpr ⟨inode, present, leaf⟩
  cases replaced with
  | none =>
    cases replace
    have cleared : (catalog.removeEntry newKey).Tree tidy := by
      rw [removeEntry_of_absent at_]
      exact tree
    exact (cleared.moveFile tree.held named other isLeaf parent.kind
      (tree.linked_cleared parent rfl)).installRootMutationSequence
  | some target =>
    simp only [replaceFile, bind_ok, pure_ok, expect_ok, refuse_ok] at replace
    rcases replace with ⟨old, found, _, notDirectory, sequence, _, rfl⟩
    have kinds := @kind_setLinks sequence ambient catalog target (old.linkCount - 1)
    have entries := @entries_setLinks sequence ambient catalog target (old.linkCount - 1)
    have linked := @Tree.linked_cleared tidy _ ((catalog.setLinks ambient target (old.linkCount - 1)
      sequence).removeEntry newKey) _ tree parent (by rw [removeEntry, entries])
    refine Tree.dropOrphan (Tree.installRootMutationSequence ?_) target
    apply (tree.takeName at_ found notDirectory).moveFile tree.held.setLinks _ other _ _ linked
    · rw [entries]
      exact named
    · rw [kinds]
      exact isLeaf
    · rw [kinds]
      exact parent.kind

section Parents

variable {id : ℕ} {links : ℕ × ℕ}

@[simp]
theorem kind_applyParentUpdate : (catalog.applyParentUpdate id links).graph.kind =
    catalog.graph.kind :=
  kind_update fun _ _ => rfl

theorem links_applyParentUpdate (present : catalog.graph.kind id ≠ none) (other : ℕ) :
    (catalog.applyParentUpdate id links).graph.links other =
      if other = id then links.1 else catalog.graph.links other := by
  rw [Ne, kind_eq_none_iff] at present
  rcases Option.ne_none_iff_exists'.mp present with ⟨inode, found⟩
  rw [applyParentUpdate, links_update, found]
  rfl

theorem entries_applyParentUpdate : (catalog.applyParentUpdate id links).entries =
    catalog.entries :=
  entries_update _ _ _

theorem Held.applyParentUpdate (held : catalog.Held) : (catalog.applyParentUpdate id links).Held :=
  held.update fun _ _ => rfl

end Parents

section Parents

variable {oldParent newParent : ℕ} {rootUpdate oldUpdate newUpdate : ℕ × ℕ}

theorem kind_withParents :
    (catalog.withParents oldParent newParent rootUpdate oldUpdate newUpdate).graph.kind =
      catalog.graph.kind :=
  kind_applyParentUpdate.trans (kind_applyParentUpdate.trans kind_applyParentUpdate)

theorem entries_withParents :
    (catalog.withParents oldParent newParent rootUpdate oldUpdate newUpdate).entries =
      catalog.entries :=
  entries_applyParentUpdate.trans (entries_applyParentUpdate.trans entries_applyParentUpdate)

theorem Held.withParents (held : catalog.Held) :
    (catalog.withParents oldParent newParent rootUpdate oldUpdate newUpdate).Held :=
  held.applyParentUpdate.applyParentUpdate.applyParentUpdate

/-- Every update has the count from before in it, so it does not matter that an inode may be
updated twice. -/
theorem links_withParents (delta : ℕ → ℤ) (rootPresent : catalog.graph.kind ROOT_INODE ≠ none)
    (oldPresent : catalog.graph.kind oldParent ≠ none)
    (newPresent : catalog.graph.kind newParent ≠ none)
    (rootLinks : (rootUpdate.1 : ℤ) = catalog.graph.links ROOT_INODE + delta ROOT_INODE)
    (oldLinks : (oldUpdate.1 : ℤ) = catalog.graph.links oldParent + delta oldParent)
    (newLinks : (newUpdate.1 : ℤ) = catalog.graph.links newParent + delta newParent)
    (elsewhere : ∀ id, id ≠ oldParent → id ≠ newParent → delta id = 0) (id : ℕ) :
    ((catalog.withParents oldParent newParent rootUpdate oldUpdate newUpdate).graph.links id : ℤ) =
      catalog.graph.links id + delta id := by
  rw [withParents, links_applyParentUpdate (by simpa using newPresent),
    links_applyParentUpdate (by simpa using oldPresent), links_applyParentUpdate rootPresent]
  split
  · rename_i isNew
    rw [isNew, newLinks]
  · rename_i notNew
    split
    · rename_i isOld
      rw [isOld, oldLinks]
    · rename_i notOld
      split
      · rename_i isRoot
        rw [isRoot, rootLinks]
      · rw [elsewhere id notOld notNew, Int.add_zero]

end Parents

theorem Tree.moveDirectory {cleared after : Catalog} (tree : catalog.Tree tidy)
    (clearedTree : cleared.Tree tidy) (entries : cleared.entries = catalog.entries.remove newKey)
    (named : catalog.entries.get? oldKey = some source) (other : oldKey ≠ newKey)
    (parent : catalog.Host tidy newKey.parent)
    (kindsCleared : cleared.graph.kind = catalog.graph.kind)
    (climbed : climb catalog.edges ROOT_INODE source fuel newKey.parent =
      some (some false))
    (moved : after.entries = (catalog.entries.remove oldKey).insert newKey source)
    (kinds : after.graph.kind = catalog.graph.kind)
    (directory : catalog.graph.kind source = some .directory)
    (links : ∀ id, after.graph.links id + (if oldKey.parent = id then 1 else 0) =
      cleared.graph.links id + if newKey.parent = id then 1 else 0) (held : after.Held) :
    after.Tree tidy := by
  have edges : cleared.edges.Perm
    (oldKey.edge source :: (catalog.unmoved oldKey newKey).edges) := by
    have same : cleared.edges = (catalog.removeEntry newKey).edges := edges_congr entries
    rw [same]
    exact perm_edges_unmoved named other
  apply clearedTree.move edges (perm_edges_moved moved) (fun _ => place_ne_of_mem_unmoved)
  · rw [kindsCleared]
    exact parent.kind
  · exact tree.linked_cleared parent entries
  · apply tree.forest.not_reachable_of_climb unmoved_subset _ climbed
    simp [parent.kind]
  · rw [kinds, kindsCleared]
  · intro id
    simpa [kindsCleared, directory] using links id
  · exact held

theorem parentUpdate_eq_ok {id : ℕ} {delta : ℤ} {update : ℕ × ℕ}
    (updated : catalog.parentUpdate namespaceSequence delta id = .ok update) :
    ∃ inode, catalog.inodes.get? id = some inode ∧
      (update.1 : ℤ) = (inode.linkCount : ℤ) + delta ∧ update.1 < 2 ^ 32 ∧
      nextParentSequence id inode namespaceSequence = .ok update.2 := by
  simp only [parentUpdate, bind_ok, pure_ok, expect_ok, refuse_ok] at updated
  rcases updated with ⟨inode, found, _, fits, sequence, numbered, rfl⟩
  refine ⟨inode, found, ?_, ?_, numbered⟩
  · omega
  · dsimp only
    omega

theorem linkDelta_elsewhere {oldParent newParent id : ℕ} (notOld : id ≠ oldParent)
    (notNew : id ≠ newParent) : linkDelta oldParent newParent replaces id = 0 := by
  simp [linkDelta, notOld, notNew]

variable {rootUpdate oldUpdate newUpdate : ℕ × ℕ}

theorem links_moved (root : catalog.parentUpdate namespaceSequence
      (linkDelta oldKey.parent newKey.parent replaces ROOT_INODE) ROOT_INODE = .ok rootUpdate)
    (old : catalog.parentUpdate namespaceSequence
      (linkDelta oldKey.parent newKey.parent replaces oldKey.parent) oldKey.parent = .ok oldUpdate)
    (new : catalog.parentUpdate namespaceSequence
      (linkDelta oldKey.parent newKey.parent replaces newKey.parent) newKey.parent = .ok newUpdate)
    (inodes : moved.inodes = catalog.inodes) (id : ℕ) :
    ((moved.withParents oldKey.parent newKey.parent rootUpdate oldUpdate newUpdate).graph.links id
      : ℤ) = catalog.graph.links id + linkDelta oldKey.parent newKey.parent replaces id := by
  have kinds : moved.graph.kind = catalog.graph.kind := by
    simp only [graph, inodes]
  have links : moved.graph.links = catalog.graph.links := by
    simp only [graph, inodes]
  rcases parentUpdate_eq_ok root with ⟨rootInode, rootFound, rootLinks, _⟩
  rcases parentUpdate_eq_ok old with ⟨oldInode, oldFound, oldLinks, _⟩
  rcases parentUpdate_eq_ok new with ⟨newInode, newFound, newLinks, _⟩
  rw [← links_of_get? rootFound, ← links] at rootLinks
  rw [← links_of_get? oldFound, ← links] at oldLinks
  rw [← links_of_get? newFound, ← links] at newLinks
  rw [← links]
  apply links_withParents (linkDelta oldKey.parent newKey.parent replaces) _ _ _ rootLinks oldLinks
    newLinks
  · intro id notOld notNew
    exact linkDelta_elsewhere notOld notNew
  · rw [kinds, kind_of_get? rootFound]
    simp
  · rw [kinds, kind_of_get? oldFound]
    simp
  · rw [kinds, kind_of_get? newFound]
    simp

variable {oldParent newParent before after id : ℕ}

theorem links_of_linkDelta (counted : (after : ℤ) = before + linkDelta oldParent newParent false id)
    : after + (if oldParent = id then 1 else 0) = before + if newParent = id then 1 else 0 := by
  simp only [linkDelta, eq_comm (a := id), Bool.false_eq_true, false_and, if_false] at counted
  split_ifs at counted ⊢ <;> omega

theorem links_of_linkDelta_replaced
    (counted : (after : ℤ) = before + linkDelta oldParent newParent true id)
    (positive : newParent = id → before ≠ 0) : after + (if oldParent = id then 1 else 0) =
      (if id = newParent then before - 1 else before) + if newParent = id then 1 else 0 := by
  simp only [linkDelta, eq_comm (a := id), true_and] at counted ⊢
  split_ifs at counted ⊢ <;> omega

theorem directoryIsAncestorOrSelf_eq_false {ancestor candidate : ℕ}
    (climbed : catalog.directoryIsAncestorOrSelf ancestor candidate = .ok false) :
    climb catalog.edges ROOT_INODE ancestor (catalog.edges.length + 1) candidate =
      some (some false) := by
  unfold directoryIsAncestorOrSelf at climbed
  split at climbed
  · rename_i result found
    cases climbed
    exact found
  · cases climbed
  · cases climbed

variable (tree : catalog.Tree tidy) (named : catalog.entries.get? oldKey = some source)
  (other : oldKey ≠ newKey)

include tree named other

/-- An empty directory is replaced by a directory that has been moved there. -/
theorem Tree.replaceDirectory {target sequence : ℕ} {old : Inode}
    (directory : catalog.graph.kind source = some .directory)
    (parent : catalog.Host tidy newKey.parent) (at_ : catalog.entries.get? newKey = some target)
    (found : catalog.inodes.get? target = some old) (isOld : old.kind = .directory)
    (empty : catalog.isEmptyDirectory target = true)
    (climbed : climb catalog.edges ROOT_INODE source fuel newKey.parent =
      some (some false))
    (entries : moved.entries = (catalog.entries.remove oldKey).insert newKey source)
    (kinds : moved.graph.kind = catalog.graph.kind) (links : ∀ id, (moved.graph.links id : ℤ) =
      catalog.graph.links id + linkDelta oldKey.parent newKey.parent true id) (held : moved.Held) :
    ((moved.removeDirectory target sequence).dropDirectory target).Tree tidy := by
  have isTarget : moved.graph.kind target = some .directory := by
    rw [kinds]
    exact kind_eq_directory_iff.mpr ⟨old, found, isOld⟩
  rcases kind_eq_directory_iff.mp isTarget with ⟨gone, goneFound, goneDirectory⟩
  have childless := isEmptyDirectory_iff.mp empty
  have oldOther : oldKey.parent ≠ target := childless _ (mem_edges.mpr named)
  have newOther : newKey.parent ≠ target := childless _ (mem_edges.mpr at_)
  rcases parent.directory with ⟨above, aboveFound, aboveDirectory⟩
  have positive := tree.links_pos at_ found isOld aboveFound aboveDirectory
  have aboveLinks := links_of_get? aboveFound
  have clearedFound : (catalog.removeDirectory target sequence).inodes.get? newKey.parent =
      some above := by
    rw [removeDirectory, get?_update, if_neg newOther, aboveFound]
  have cleared := @Tree.takeDirectory _ _ sequence 0 _ _ _ _ 0 tree at_ found isOld empty aboveFound
  have after : (moved.removeDirectory target sequence).Tree tidy := by
    apply tree.moveDirectory cleared _ named other parent _ climbed
      (entries_removeDirectory.trans entries) (kind_removeDirectory.trans kinds) directory _
      held.removeDirectory
    · rw [removeEntry, entries_adjustParent, entries_removeDirectory]
    · exact kind_adjustParent.trans kind_removeDirectory
    · intro id
      rw [links_removeDirectory goneFound, links_removeEntry, links_adjustParent clearedFound,
        links_removeDirectory found]
      by_cases isGone : id = target
      · rw [isGone, if_pos rfl, if_neg oldOther, if_neg newOther, if_neg (Ne.symm newOther),
          if_pos rfl]
      · rw [if_neg isGone, if_neg isGone, links_of_linkDelta_replaced (links id)]
        · congr 1
          refine ite_congr rfl (fun isParent => ?_) fun _ => rfl
          rw [isParent, aboveLinks]
        · rintro rfl
          rw [aboveLinks]
          exact positive
  have removed : (moved.removeDirectory target sequence).inodes.get? target =
      some { gone with linkCount := 0, mutationSequence := sequence } := by
    rw [removeDirectory, get?_update, if_pos rfl, goneFound]
    rfl
  exact after.dropDirectory removed goneDirectory rfl

theorem Tree.withMovedDirectory {inode : Inode} {sequence : ℕ}
    (present : catalog.inodes.get? source = some inode) (directory : inode.kind = .directory)
    (parent : catalog.Host tidy newKey.parent) (at_ : catalog.entries.get? newKey = replaced)
    (climbed : climb catalog.edges ROOT_INODE source fuel newKey.parent =
      some (some false)) (replaceable : catalog.validateReplacedDirectory replaced = .ok ())
    (root : catalog.parentUpdate namespaceSequence
      (linkDelta oldKey.parent newKey.parent replaced.isSome ROOT_INODE) ROOT_INODE =
        .ok rootUpdate) (old : catalog.parentUpdate namespaceSequence
      (linkDelta oldKey.parent newKey.parent replaced.isSome oldKey.parent) oldKey.parent =
        .ok oldUpdate) (new : catalog.parentUpdate namespaceSequence
      (linkDelta oldKey.parent newKey.parent replaced.isSome newKey.parent) newKey.parent =
        .ok newUpdate) :
    (catalog.withMovedDirectory oldKey newKey source replaced rootUpdate oldUpdate newUpdate
      sequence).Tree tidy := by
  have links := fun id => links_moved root old new
    (rfl : ((catalog.removeEntry oldKey).insertEntry newKey source).inodes = catalog.inodes) id
  have kinds := @kind_withParents ((catalog.removeEntry oldKey).insertEntry newKey source)
    oldKey.parent newKey.parent rootUpdate oldUpdate newUpdate
  have entries := @entries_withParents ((catalog.removeEntry oldKey).insertEntry newKey source)
    oldKey.parent newKey.parent rootUpdate oldUpdate newUpdate
  have held := @Held.withParents ((catalog.removeEntry oldKey).insertEntry newKey source)
    oldKey.parent newKey.parent rootUpdate oldUpdate newUpdate
    (tree.held.removeEntry.insertEntry (tree.held.lt_nextInode parent.kind))
  have isDirectory : catalog.graph.kind source = some .directory :=
    kind_eq_directory_iff.mpr ⟨inode, present, directory⟩
  rw [Catalog.withMovedDirectory]
  cases replaced with
  | none =>
    have free : catalog.entries = catalog.entries.remove newKey := (remove_of_get?_eq_none at_).symm
    exact tree.moveDirectory tree free named other parent rfl climbed entries kinds isDirectory
      (fun id => links_of_linkDelta (links id)) held
  | some target =>
    simp only [validateReplacedDirectory, bind_ok, expect_ok, refuse_ok, not_not] at replaceable
    rcases replaceable with ⟨old, found, _, isOld, _, empty, _⟩
    exact tree.replaceDirectory named other isDirectory parent at_ found isOld empty climbed
      entries kinds links held

end Moving

end Catalog

end Fastdup.Posix
