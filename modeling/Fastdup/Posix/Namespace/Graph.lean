import Fastdup.Posix.Namespace.Parts

/-!
# The graph of the namespace

Files and symbolic links are leaves, directory entries are edges. Every handle refers to a file
that is still there, and every number in use has been allocated. The graph of the names is a
forest; it is a tree when it is tidy, that is, when nothing is named in a removed directory.

For every change that an operation makes to the names: it keeps a forest, and it keeps a tree
provided that names are only given in directories that have not been removed.
-/

namespace Fastdup.Posix

open Library Checked SortedMap EntryKey LinkGraph Option

def Inode.nodeKind (inode : Inode) : NodeKind :=
  if inode.kind = .directory then .directory else .leaf

def EntryKey.edge (key : EntryKey) (id : ℕ) : Edge ℕ Bytes where
  parent := key.parent
  name := key.name
  target := id

theorem EntryKey.place_edge_inj {first second : EntryKey} {id other : ℕ}
    (same : (first.edge id).place = (second.edge other).place) : first = second := by
  cases first
  cases second
  simpa [edge, Edge.place] using same

variable {inode above : Inode} {after : Catalog} {sequence namespaceSequence : ℕ}
  {ambient : Ambient} {key : EntryKey} {options : OpenOptions}

namespace Catalog

/-- The directory graph of a catalog. -/
def graph (catalog : Catalog) : LinkGraph ℕ Bytes where
  kind id := (catalog.inodes.get? id).map Inode.nodeKind
  links id := (catalog.inodes.get? id).elim 0 Inode.linkCount
  edges := catalog.edges

/-- A directory that has not been removed. -/
def Linked (catalog : Catalog) (id : ℕ) : Prop :=
  ∃ inode, catalog.inodes.get? id = some inode ∧ inode.kind = .directory ∧ inode.linkCount ≠ 0

/-- What the catalog refers to exists, and its numbers lie below the allocation cursor. -/
structure Held (catalog : Catalog) : Prop where
  /-- Handles refer to files, and keep them. -/
  handles : ∀ handle file, catalog.handles.get? handle = some file →
    ∃ inode, catalog.inodes.get? file.inode = some inode ∧ inode.kind = .regular
  numbers : ∀ id inode, catalog.inodes.get? id = some inode → id < catalog.nextInode
  parents : ∀ key id, catalog.entries.get? key = some id → key.parent < catalog.nextInode

/-- The names form a forest, and a tree if they are tidy. -/
structure Tree (tidy : Prop) (catalog : Catalog) : Prop where
  forest : catalog.graph.Forest ROOT_INODE
  attached : tidy → catalog.graph.Attached ROOT_INODE
  held : catalog.Held

/-- A directory that names may be given in. -/
structure Host (tidy : Prop) (catalog : Catalog) (id : ℕ) : Prop where
  directory : ∃ inode, catalog.inodes.get? id = some inode ∧ inode.kind = .directory
  linked : tidy → catalog.Linked id

/-- A number that has been allocated and not been used. -/
structure Fresh (catalog : Catalog) (id : ℕ) : Prop where
  absent : catalog.inodes.get? id = none
  childless : ∀ edge ∈ catalog.edges, edge.parent ≠ id
  allocated : id < catalog.nextInode

section Graph

variable {catalog : Catalog} {id : ℕ}

theorem kind_eq_directory_iff : catalog.graph.kind id = some .directory ↔
    ∃ inode, catalog.inodes.get? id = some inode ∧ inode.kind = .directory := by
  simp only [graph, map_eq_some_iff, Inode.nodeKind]
  refine exists_congr fun inode => and_congr_right fun _ => ?_
  split <;> simp_all

theorem kind_eq_leaf_iff : catalog.graph.kind id = some .leaf ↔
    ∃ inode, catalog.inodes.get? id = some inode ∧ inode.kind ≠ .directory := by
  simp only [graph, map_eq_some_iff, Inode.nodeKind]
  refine exists_congr fun inode => and_congr_right fun _ => ?_
  split <;> simp_all

theorem kind_of_get? (present : catalog.inodes.get? id = some inode) :
    catalog.graph.kind id = some inode.nodeKind := by
  simp [graph, present]

theorem kind_eq_none_iff : catalog.graph.kind id = none ↔ catalog.inodes.get? id = none := by
  simp [graph]

theorem links_of_get? (present : catalog.inodes.get? id = some inode) :
    catalog.graph.links id = inode.linkCount := by
  simp [graph, present]

theorem mem_edges : key.edge id ∈ catalog.edges ↔ catalog.entries.get? key = some id := by
  rw [← mem_pairs_iff, edges, List.mem_map]
  constructor
  · rintro ⟨⟨other, target⟩, mem, same⟩
    cases key
    cases other
    rcases same with ⟨rfl, rfl, rfl⟩
    exact mem
  · intro mem
    exact ⟨_, mem, rfl⟩

theorem exists_of_mem_edges {edge : Edge ℕ Bytes} (mem : edge ∈ catalog.edges) :
    ∃ key id, edge = key.edge id ∧ catalog.entries.get? key = some id := by
  rw [edges, List.mem_map] at mem
  rcases mem with ⟨⟨key, id⟩, mem, rfl⟩
  exact ⟨key, id, rfl, mem_pairs_iff.mp mem⟩

theorem place_ne_of_absent (absent : catalog.entries.get? key = none) :
    ∀ other ∈ catalog.edges, other.place ≠ (key.edge id).place := by
  intro other mem same
  rcases exists_of_mem_edges mem with ⟨found, target, rfl, present⟩
  rw [place_edge_inj same, absent] at present
  cases present

theorem edges_congr {other : Catalog} (same : other.entries = catalog.entries) :
    other.edges = catalog.edges := by
  rw [edges, same, edges]

theorem perm_edges_remove (present : catalog.entries.get? key = some id)
    (entries : after.entries = catalog.entries.remove key) :
    catalog.edges.Perm (key.edge id :: after.edges) := by
  rw [edges, edges, entries]
  exact (perm_remove present).map _

theorem perm_edges_insert {before : Catalog} (removed : before.entries = catalog.entries.remove key)
    (entries : after.entries = catalog.entries.insert key id) :
    after.edges.Perm (key.edge id :: before.edges) := by
  rw [edges, edges, entries, removed]
  exact perm_insert.map _

theorem perm_edges_add (absent : catalog.entries.get? key = none)
    (entries : after.entries = catalog.entries.insert key id) :
    after.edges.Perm (key.edge id :: catalog.edges) :=
  perm_edges_insert (remove_of_get?_eq_none absent).symm entries

variable {change : Inode → Inode}

theorem kind_update
    (keeps : ∀ inode, catalog.inodes.get? id = some inode → (change inode).kind = inode.kind) :
    (catalog.update id change).graph.kind = catalog.graph.kind := by
  funext other
  simp only [graph, get?_update]
  split
  · rename_i same
    rw [same]
    cases present : catalog.inodes.get? id with
    | none => rfl
    | some inode => simp [Inode.nodeKind, keeps inode present]
  · rfl

theorem links_update (other : ℕ) : (catalog.update id change).graph.links other =
      if other = id then (catalog.inodes.get? id).elim 0 fun inode => (change inode).linkCount
      else catalog.graph.links other := by
  simp only [graph, get?_update]
  split
  · cases catalog.inodes.get? id with
    | none => rfl
    | some inode => rfl
  · rfl

theorem edges_update : (catalog.update id change).edges = catalog.edges :=
  edges_congr (entries_update catalog id change)

theorem graph_update
    (kind : ∀ inode, catalog.inodes.get? id = some inode → (change inode).kind = inode.kind)
    (links : ∀ inode, catalog.inodes.get? id = some inode → (change inode).linkCount =
      inode.linkCount) : (catalog.update id change).graph = catalog.graph := by
  apply LinkGraph.ext
  · exact kind_update kind
  · funext other
    rw [links_update]
    split
    · rename_i same
      rw [same]
      cases present : catalog.inodes.get? id with
      | none => simp [graph, present]
      | some inode =>
        rw [links_of_get? present]
        exact links inode present
    · rfl
  · exact edges_update

@[simp]
theorem graph_installRootMutationSequence :
    (catalog.installRootMutationSequence sequence).graph = catalog.graph :=
  graph_update (fun _ _ => rfl) fun _ _ => rfl

variable {links : ℕ}

theorem kind_setLinks :
    (catalog.setLinks ambient id links sequence).graph.kind = catalog.graph.kind :=
  kind_update fun _ _ => rfl

theorem links_setLinks (present : catalog.inodes.get? id = some inode) (other : ℕ) :
    (catalog.setLinks ambient id links sequence).graph.links other =
      if other = id then links else catalog.graph.links other := by
  rw [setLinks, links_update, present]
  rfl

theorem entries_setLinks : (catalog.setLinks ambient id links sequence).entries = catalog.entries :=
  entries_update _ _ _

theorem get?_installRootMutationSequence (other : id ≠ ROOT_INODE) :
    (catalog.installRootMutationSequence sequence).inodes.get? id = catalog.inodes.get? id := by
  rw [installRootMutationSequence, get?_update, if_neg other]

section Parent

theorem kind_adjustParent :
    (catalog.adjustParent id links sequence namespaceSequence).graph.kind = catalog.graph.kind :=
  kind_update fun _ _ => rfl

theorem links_adjustParent (present : catalog.inodes.get? id = some inode) (other : ℕ) :
    (catalog.adjustParent id links sequence namespaceSequence).graph.links other =
      if other = id then links else catalog.graph.links other := by
  rw [adjustParent, links_update, present]
  rfl

theorem entries_adjustParent :
    (catalog.adjustParent id links sequence namespaceSequence).entries = catalog.entries :=
  entries_update _ _ _

end Parent

section Entries

@[simp]
theorem kind_insertEntry : (catalog.insertEntry key id).graph.kind = catalog.graph.kind :=
  rfl

@[simp]
theorem links_insertEntry : (catalog.insertEntry key id).graph.links = catalog.graph.links :=
  rfl

@[simp]
theorem kind_removeEntry : (catalog.removeEntry key).graph.kind = catalog.graph.kind :=
  rfl

@[simp]
theorem links_removeEntry : (catalog.removeEntry key).graph.links = catalog.graph.links :=
  rfl

end Entries

end Graph

namespace Held

variable {catalog : Catalog} {id : ℕ}

section

variable (held : catalog.Held)

include held

theorem lt_nextInode {kind : NodeKind} (present : catalog.graph.kind id = some kind) :
    id < catalog.nextInode := by
  simp only [graph, map_eq_some_iff] at present
  rcases present with ⟨inode, found, _⟩
  exact held.numbers id inode found

theorem update {change : Inode → Inode}
    (keeps : ∀ inode, catalog.inodes.get? id = some inode → (change inode).kind = inode.kind) :
    (catalog.update id change).Held := by
  constructor
  case handles =>
    intro handle file present
    rw [handles_update] at present
    rcases held.handles handle file present with ⟨inode, found, regular⟩
    rw [get?_update]
    split
    · rename_i same
      rw [same] at found
      exact ⟨change inode, by rw [found]; rfl, (keeps inode found).trans regular⟩
    · exact ⟨inode, found, regular⟩
  case numbers =>
    intro other inode present
    rw [nextInode_update]
    rw [get?_update] at present
    split at present
    · rename_i same
      rw [map_eq_some_iff] at present
      rcases present with ⟨old, found, _⟩
      rw [same]
      exact held.numbers id old found
    · exact held.numbers other inode present
  case parents =>
    intro key target named
    rw [nextInode_update]
    rw [entries_update] at named
    exact held.parents key target named

theorem installRootMutationSequence : (catalog.installRootMutationSequence sequence).Held :=
  held.update fun _ _ => rfl

theorem setLinks {links : ℕ} : (catalog.setLinks ambient id links sequence).Held :=
  held.update fun _ _ => rfl

theorem adjustParent {links : ℕ} :
    (catalog.adjustParent id links sequence namespaceSequence).Held :=
  held.update fun _ _ => rfl

theorem removeDirectory : (catalog.removeDirectory id sequence).Held :=
  held.update fun _ _ => rfl

theorem insertEntry (below : key.parent < catalog.nextInode) :
    (catalog.insertEntry key id).Held := by
  refine ⟨held.handles, held.numbers, ?_⟩
  intro other target named
  rcases get?_insert_eq_some_iff.mp named with ⟨rfl, _⟩ | ⟨_, old⟩
  · exact below
  · exact held.parents other target old

theorem removeEntry : (catalog.removeEntry key).Held := by
  refine ⟨held.handles, held.numbers, ?_⟩
  intro other target named
  exact held.parents other target (get?_of_get?_remove named)

theorem addInode (present : catalog.inodes.get? key.parent = some above)
    (fresh : catalog.inodes.get? id = none) (allocated : id < catalog.nextInode) :
    (catalog.addInode key id inode).Held := by
  constructor
  case handles =>
    intro handle file present
    rcases held.handles handle file present with ⟨old, found, regular⟩
    refine ⟨old, ?_, regular⟩
    rw [Catalog.addInode, get?_insert, if_neg, found]
    intro same
    rw [same, fresh] at found
    cases found
  case numbers =>
    intro other found present
    rcases get?_insert_eq_some_iff.mp present with ⟨rfl, _⟩ | ⟨_, old⟩
    · exact allocated
    · exact held.numbers other found old
  case parents => exact (held.insertEntry (held.numbers _ above present)).parents

theorem addHandle (present : catalog.inodes.get? id = some inode)
    (regular : inode.kind = .regular) : (catalog.addHandle id options).Held := by
  refine ⟨?_, held.numbers, held.parents⟩
  intro handle file opened
  rcases get?_insert_eq_some_iff.mp opened with ⟨_, rfl⟩ | ⟨_, old⟩
  · exact ⟨inode, present, regular⟩
  · exact held.handles handle file old

theorem remove (unused : ∀ handle file, catalog.handles.get? handle = some file → file.inode ≠ id) :
    Held { catalog with inodes := catalog.inodes.remove id } := by
  constructor
  case handles =>
    intro handle file present
    rcases held.handles handle file present with ⟨inode, found, regular⟩
    refine ⟨inode, ?_, regular⟩
    rw [get?_remove, if_neg (unused handle file present), found]
  case numbers =>
    intro other inode present
    exact held.numbers other inode (get?_of_get?_remove present)
  case parents => exact held.parents

end

end Held

theorem hasHandle_eq_false_iff {catalog : Catalog} {id : ℕ} : catalog.hasHandle id = false ↔
    ∀ handle file, catalog.handles.get? handle = some file → file.inode ≠ id := by
  rw [hasHandle, List.any_eq_false]
  constructor
  · intro unused handle file present
    simpa using unused (handle, file) (mem_pairs_iff.mpr present)
  · rintro unused ⟨handle, file⟩ mem
    simpa using unused handle file (mem_pairs_iff.mp mem)

section Forgetting

variable {tidy : Prop} {catalog : Catalog} {id : ℕ}

theorem Tree.remove (tree : catalog.Tree tidy) (present : catalog.inodes.get? id = some inode)
    (unlinked : inode.linkCount = 0)
    (unused : ∀ handle file, catalog.handles.get? handle = some file → file.inode ≠ id) :
    Tree tidy { catalog with inodes := catalog.inodes.remove id } := by
  have links : catalog.graph.links id = 0 := by rw [links_of_get? present, unlinked]
  have notRoot : id ≠ ROOT_INODE := by
    rintro rfl
    have counted := tree.forest.rootLinks
    omega
  constructor
  case forest =>
    refine tree.forest.forget notRoot links ?_ ?_ ?_
    · exact List.Perm.refl _
    · funext other
      simp only [graph, get?_remove, Function.update_apply]
      split
      · rfl
      · rfl
    · intro other ne
      simp [graph, get?_remove, if_neg ne]
  case attached => exact fun isTidy => (tree.attached isTidy).of_perm (List.Perm.refl _)
  case held => exact tree.held.remove unused

theorem Tree.dropOrphan (tree : catalog.Tree tidy)
    (id : ℕ) : (catalog.dropOrphan id).Tree tidy := by
  unfold Catalog.dropOrphan
  split
  · rename_i orphan
    rcases orphan with ⟨unlinked, _, unused⟩
    rw [any_eq_true] at unlinked
    rcases unlinked with ⟨inode, present, unlinked⟩
    exact tree.remove present (by simpa using unlinked)
      (hasHandle_eq_false_iff.mp (by simpa using unused))
  · exact tree

theorem Tree.dropDirectory (tree : catalog.Tree tidy)
    (present : catalog.inodes.get? id = some inode) (directory : inode.kind = .directory)
    (unlinked : inode.linkCount = 0) : (catalog.dropDirectory id).Tree tidy := by
  unfold Catalog.dropDirectory
  split
  · apply tree.remove present unlinked
    rintro handle file opened rfl
    rcases tree.held.handles handle file opened with ⟨other, found, regular⟩
    rw [present, some_inj] at found
    rw [← found, directory] at regular
    cases regular
  · exact tree

end Forgetting

section Giving

variable {tidy : Prop} {catalog before : Catalog} {id : ℕ}

/-- In a tree, a directory that has not been removed is the root or has a name. -/
theorem Tree.incoming_of_linked (tree : catalog.Tree True) (linked : catalog.Linked id) :
    id = ROOT_INODE ∨ catalog.graph.incoming id ≠ 0 := by
  rcases linked with ⟨inode, present, directory, positive⟩
  by_cases isRoot : id = ROOT_INODE
  · exact .inl isRoot
  · right
    intro none
    have counted := tree.forest.directoryLinks id
      (kind_eq_directory_iff.mpr ⟨inode, present, directory⟩) isRoot
    have empty : catalog.graph.childDirectories id = 0 := by
      rw [childDirectories_eq_zero_iff]
      rintro edge mem rfl
      rcases tree.attached trivial edge mem with atRoot | named
      · exact absurd atRoot isRoot
      · exact absurd none named
    rw [links_of_get? present, none, empty] at counted
    omega

theorem Host.kind (host : catalog.Host tidy id) : catalog.graph.kind id = some .directory :=
  kind_eq_directory_iff.mpr host.directory

theorem Tree.tidied (tree : catalog.Tree tidy) (isTidy : tidy) : catalog.Tree True :=
  ⟨tree.forest, fun _ => tree.attached isTidy, tree.held⟩

theorem Host.incoming (host : catalog.Host tidy id) (tree : catalog.Tree tidy) (isTidy : tidy) :
    id = ROOT_INODE ∨ catalog.graph.incoming id ≠ 0 :=
  (tree.tidied isTidy).incoming_of_linked (host.linked isTidy)

theorem Tree.incoming_of_fresh (tree : catalog.Tree tidy) (fresh : catalog.inodes.get? id = none) :
    catalog.graph.incoming id = 0 := by
  rw [incoming_eq_zero_iff]
  rintro edge mem rfl
  exact tree.forest.targets edge mem (kind_eq_none_iff.mpr fresh)

theorem Tree.add {kind : NodeKind} (tree : before.Tree tidy) (parent : before.Host tidy key.parent)
    (absent : before.entries.get? key = none)
    (entries : after.entries = before.entries.insert key id)
    (target : before.Fresh id ∨ before.graph.kind id = some .leaf ∧ kind = .leaf)
    (kinds : after.graph.kind = Function.update before.graph.kind id (some kind))
    (links : after.graph.links = linksAfterAdd before.graph (key.edge id) kind)
    (held : after.Held) : after.Tree tidy := by
  have edges : after.graph.edges.Perm (key.edge id :: before.graph.edges) :=
    perm_edges_add absent entries
  constructor
  case forest =>
    apply tree.forest.add edges parent.kind (place_ne_of_absent absent) _ kinds links
    rcases target with fresh | leaf
    · exact .inl ⟨kind_eq_none_iff.mpr fresh.absent, fresh.childless⟩
    · exact .inr leaf
  case attached => exact fun isTidy =>
    (tree.attached isTidy).add edges (parent.incoming tree isTidy)
  case held => exact held

theorem kind_addInode : (catalog.addInode key id inode).graph.kind =
    Function.update catalog.graph.kind id (some inode.nodeKind) := by
  funext other
  simp only [graph, addInode, get?_insert, Function.update_apply]
  split
  · rfl
  · rfl

theorem links_addInode (other : ℕ) : (catalog.addInode key id inode).graph.links other =
    if other = id then inode.linkCount else catalog.graph.links other := by
  simp only [graph, addInode, get?_insert]
  split
  · rfl
  · rfl

theorem Tree.addLeaf (tree : catalog.Tree tidy) (parent : catalog.Host tidy key.parent)
    (absent : catalog.entries.get? key = none) (fresh : catalog.Fresh id)
    (leaf : inode.kind ≠ .directory) (links : inode.linkCount = 1) :
    (catalog.addInode key id inode).Tree tidy := by
  rcases parent.directory with ⟨above, present, _⟩
  apply tree.add parent absent rfl (.inl fresh) kind_addInode
  · funext other
    rw [links_addInode, linksAfterAdd, Inode.nodeKind, if_neg leaf]
    by_cases same : other = id
    · simp [same, edge, links, tree.incoming_of_fresh fresh.absent]
    · simp [same, edge]
  · exact tree.held.addInode present fresh.absent fresh.allocated

theorem Tree.of_graph_eq (tree : before.Tree tidy) (graph : after.graph = before.graph)
    (held : after.Held) : after.Tree tidy := by
  refine ⟨?_, ?_, held⟩
  · rw [graph]
    exact tree.forest
  · rw [graph]
    exact tree.attached

section

variable (tree : catalog.Tree tidy)

include tree

theorem Tree.installRootMutationSequence :
    (catalog.installRootMutationSequence sequence).Tree tidy :=
  tree.of_graph_eq graph_installRootMutationSequence tree.held.installRootMutationSequence

theorem Tree.acquireLookup {count : ℕ} : (catalog.acquireLookup id count).Tree tidy :=
  tree.of_graph_eq rfl { tree.held with }

theorem Tree.links_pos (named : catalog.entries.get? key = some id)
    (present : catalog.inodes.get? id = some inode) (directory : inode.kind = .directory)
    (aboveFound : catalog.inodes.get? key.parent = some above)
    (aboveDirectory : above.kind = .directory) : above.linkCount ≠ 0 := by
  have isDirectory := kind_eq_directory_iff.mpr ⟨inode, present, directory⟩
  have counted : catalog.graph.childDirectories key.parent ≠ 0 := by
    rw [Ne, childDirectories_eq_zero_iff]
    intro none
    exact none _ (mem_edges.mpr named) rfl isDirectory
  have links := links_of_get? aboveFound
  by_cases isRoot : key.parent = ROOT_INODE
  · have rootLinks := tree.forest.rootLinks
    rw [← isRoot, links] at rootLinks
    omega
  · have parentLinks := tree.forest.directoryLinks _
      (kind_eq_directory_iff.mpr ⟨above, aboveFound, aboveDirectory⟩) isRoot
    omega

theorem Tree.addHandle (present : catalog.inodes.get? id = some inode)
    (regular : inode.kind = .regular) : (catalog.addHandle id options).Tree tidy :=
  tree.of_graph_eq rfl (tree.held.addHandle present regular)

end

theorem get?_addInode : (catalog.addInode key id inode).inodes.get? id = some inode := by
  rw [addInode, get?_insert, if_pos rfl]

section

variable (tree : catalog.Tree tidy) (parent : catalog.Host tidy key.parent)
  (absent : catalog.entries.get? key = none)

include tree parent absent

theorem Tree.withFile (fresh : catalog.Fresh id) (regular : inode.kind = .regular)
    (links : inode.linkCount = 1) : (catalog.withFile key id inode options sequence).Tree tidy := by
  have added := tree.addLeaf parent absent fresh (by simp [regular]) links
  exact (added.addHandle get?_addInode regular).installRootMutationSequence

theorem Tree.withSymlink (fresh : catalog.Fresh id) (symlink : inode.kind = .symlink)
    (links : inode.linkCount = 1) : (catalog.withSymlink key id inode sequence).Tree tidy :=
  (tree.addLeaf parent absent fresh (by simp [symlink]) links).installRootMutationSequence

theorem Tree.withDirectory {parentSequence : ℕ} (fresh : catalog.Fresh id)
    (directory : inode.kind = .directory) (links : inode.linkCount = 2)
    (present : catalog.inodes.get? key.parent = some above) :
    (catalog.withDirectory key id inode (above.linkCount + 1) parentSequence
      namespaceSequence).Tree tidy := by
  have other : key.parent ≠ id := by
    intro same
    rw [same, fresh.absent] at present
    cases present
  have kept : (catalog.addInode key id inode).inodes.get? key.parent = some above := by
    rw [addInode, get?_insert, if_neg other, present]
  have isDirectory : inode.nodeKind = .directory := if_pos directory
  have adjusted : ((catalog.addInode key id inode).adjustParent key.parent (above.linkCount + 1)
      parentSequence namespaceSequence).Tree tidy := by
    apply tree.add parent absent entries_adjustParent (.inl fresh)
    · rw [kind_adjustParent, kind_addInode]
    · funext at_
      rw [links_adjustParent kept, links_addInode, linksAfterAdd, isDirectory]
      by_cases isParent : at_ = key.parent
      · rw [isParent]
        simp [edge, other, links_of_get? present]
      · simp [edge, isParent, links]
    · exact (tree.held.addInode present fresh.absent fresh.allocated).adjustParent
  exact adjusted.installRootMutationSequence

theorem Tree.withLink {ambient : Ambient} {sequence namespaceSequence : ℕ}
    (present : catalog.inodes.get? id = some inode) (leaf : inode.kind ≠ .directory) :
    (catalog.withLink ambient key id (inode.linkCount + 1) sequence namespaceSequence).Tree
      tidy := by
  have isLeaf : catalog.graph.kind id = some .leaf := kind_eq_leaf_iff.mpr ⟨inode, present, leaf⟩
  have linked : ((catalog.setLinks ambient id (inode.linkCount + 1) sequence).insertEntry key
      id).Tree tidy := by
    apply tree.add parent absent (by rw [insertEntry, entries_setLinks]) (.inr ⟨isLeaf, rfl⟩)
    · have kept : Function.update catalog.graph.kind id (some .leaf) = catalog.graph.kind := by
        rw [← isLeaf, Function.update_eq_self]
      rw [kept]
      exact kind_setLinks
    · funext other
      have counted := tree.forest.leafLinks id isLeaf
      rw [links_of_get? present] at counted
      refine (links_setLinks present other).trans ?_
      rw [linksAfterAdd]
      by_cases same : other = id
      · simp [same, edge, counted]
      · simp [same, edge]
    · apply tree.held.setLinks.insertEntry
      rw [setLinks, nextInode_update]
      exact tree.held.lt_nextInode parent.kind
  exact linked.installRootMutationSequence.acquireLookup

end

end Giving

section Taking

variable {tidy : Prop} {catalog before : Catalog} {id : ℕ}

theorem Tree.take (tree : before.Tree tidy) (named : before.entries.get? key = some id)
    (entries : after.entries = before.entries.remove key)
    (childless : ∀ edge ∈ before.edges, edge.parent ≠ id)
    (kinds : after.graph.kind = before.graph.kind)
    (links : after.graph.links = linksAfterRemove before.graph (key.edge id))
    (held : after.Held) : after.Tree tidy := by
  have edges : before.graph.edges.Perm (key.edge id :: after.graph.edges) :=
    perm_edges_remove named entries
  exact ⟨tree.forest.remove edges childless kinds links,
    fun isTidy => (tree.attached isTidy).remove edges childless, held⟩

theorem isEmptyDirectory_iff : catalog.isEmptyDirectory id = true ↔
    ∀ edge ∈ catalog.edges, edge.parent ≠ id := by
  simp only [isEmptyDirectory, List.all_eq_true, edges, List.forall_mem_map, decide_eq_true_eq]

section

variable (tree : catalog.Tree tidy) (named : catalog.entries.get? key = some id)
  (present : catalog.inodes.get? id = some inode) (leaf : inode.kind ≠ .directory)

include tree named present leaf

theorem Tree.takeName :
    ((catalog.setLinks ambient id (inode.linkCount - 1) sequence).removeEntry key).Tree tidy := by
  have isLeaf : catalog.graph.kind id = some .leaf := kind_eq_leaf_iff.mpr ⟨inode, present, leaf⟩
  apply tree.take named (by rw [removeEntry, entries_setLinks])
    (tree.forest.leaf_childless (kind_eq_leaf_iff.mpr ⟨inode, present, leaf⟩))
  · exact kind_setLinks
  · funext other
    refine (links_setLinks present other).trans ?_
    rw [linksAfterRemove]
    by_cases same : other = id
    · simp [same, edge, isLeaf, links_of_get? present]
    · simp [same, edge, isLeaf]
  · exact tree.held.setLinks.removeEntry

theorem Tree.withoutName :
    (catalog.withoutName ambient key id (inode.linkCount - 1) sequence namespaceSequence).Tree
      tidy :=
  (tree.takeName named present leaf).installRootMutationSequence.dropOrphan id

end

section Removing

theorem kind_removeDirectory : (catalog.removeDirectory id sequence).graph.kind =
    catalog.graph.kind :=
  kind_update fun _ _ => rfl

theorem links_removeDirectory (present : catalog.inodes.get? id = some inode) (other : ℕ) :
    (catalog.removeDirectory id sequence).graph.links other =
      if other = id then 0 else catalog.graph.links other := by
  rw [removeDirectory, links_update, present]
  rfl

theorem entries_removeDirectory : (catalog.removeDirectory id sequence).entries = catalog.entries :=
  entries_update _ _ _

end Removing

theorem Tree.parent_ne_target (tree : catalog.Tree tidy)
    (named : catalog.entries.get? key = some id) : key.parent ≠ id := by
  rcases tree.forest.ranked with ⟨rank, descends⟩
  have below := descends _ (mem_edges.mpr named)
  intro same
  simp only [edge, same, Nat.lt_irrefl] at below

variable {parentSequence : ℕ}

section

variable (tree : catalog.Tree tidy) (named : catalog.entries.get? key = some id)
  (present : catalog.inodes.get? id = some inode) (directory : inode.kind = .directory)
  (empty : catalog.isEmptyDirectory id = true)
  (parent : catalog.inodes.get? key.parent = some above)

include tree named present directory empty parent

theorem Tree.takeDirectory :
    (((catalog.removeDirectory id sequence).adjustParent key.parent (above.linkCount - 1)
      parentSequence namespaceSequence).removeEntry key).Tree tidy := by
  have other := tree.parent_ne_target named
  have isDirectory : catalog.graph.kind id = some .directory :=
    kind_eq_directory_iff.mpr ⟨inode, present, directory⟩
  have kept : (catalog.removeDirectory id sequence).inodes.get? key.parent = some above := by
    rw [removeDirectory, get?_update, if_neg other, parent]
  apply tree.take named _ (isEmptyDirectory_iff.mp empty)
  · exact kind_adjustParent.trans kind_removeDirectory
  · funext at_
    refine (links_adjustParent kept at_).trans ?_
    rw [links_removeDirectory present, linksAfterRemove]
    by_cases isTarget : at_ = id
    · simp [isTarget, edge, isDirectory, Ne.symm other]
    · by_cases isParent : at_ = key.parent
      · simp [isParent, edge, isDirectory, other, links_of_get? parent]
      · simp [isTarget, isParent, edge]
  · exact tree.held.removeDirectory.adjustParent.removeEntry
  · rw [removeEntry, entries_adjustParent, entries_removeDirectory]

theorem Tree.withoutDirectory :
    (catalog.withoutDirectory key id sequence (above.linkCount - 1) parentSequence
      namespaceSequence).Tree tidy := by
  have other := tree.parent_ne_target named
  have notRoot : id ≠ ROOT_INODE := tree.forest.rootFree _ (mem_edges.mpr named)
  -- the parent is another inode, and so is the root
  have gone : (((catalog.removeDirectory id sequence).adjustParent key.parent (above.linkCount - 1)
      parentSequence namespaceSequence).removeEntry key).inodes.get? id =
        some { inode with linkCount := 0, mutationSequence := sequence } := by
    rw [removeEntry, adjustParent, get?_update, if_neg (Ne.symm other), removeDirectory,
      get?_update, if_pos rfl, present]
    rfl
  exact (tree.takeDirectory named present directory empty
    parent).installRootMutationSequence.dropDirectory
    ((get?_installRootMutationSequence notRoot).trans gone) directory rfl

end

end Taking

end Catalog

end Fastdup.Posix
