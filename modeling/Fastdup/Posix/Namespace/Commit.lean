import Fastdup.Posix.Namespace.Dispatch
import Mathlib.Data.List.Dedup

/-!
# Cuts

A commit begins with a cut: the entries, and a frozen view of every inode that has a link. Before
the cut is handed out its link counts are asserted against its entries. The assertions hold of a
tree.
-/

namespace Fastdup.Posix

open Library Checked SortedMap List NamespaceCommit

namespace Inode

variable (id : ℕ) (inode : Inode)

def commitDirectory : CommitDirectory where
  inode := id
  mode := inode.mode
  uid := inode.uid
  gid := inode.gid
  linkCount := inode.linkCount
  mutationSequence := inode.mutationSequence
  metadata := inode.metadata
  times := inode.times

def commitInode : CommitInode where
  inode := id
  mode := inode.mode
  uid := inode.uid
  gid := inode.gid
  linkCount := inode.linkCount
  mutationSequence := inode.mutationSequence
  metadata := inode.metadata
  times := inode.times
  cells := inode.data.cells

def commitSymlink (target : Bytes) : CommitSymlink where
  inode := id
  uid := inode.uid
  gid := inode.gid
  linkCount := inode.linkCount
  mutationSequence := inode.mutationSequence
  times := inode.times
  target := target

/-- A file whose changes belong to the cut. -/
def freeze : Inode :=
  if id ≠ ROOT_INODE ∧ inode.linkCount ≠ 0 ∧ inode.kind = .regular then
    { inode with data := { inode.data with activeMutations := false } }
  else inode

end Inode

namespace NamespaceCommit

variable (commit : NamespaceCommit)

def directoryIds : List ℕ :=
  commit.directories.map CommitDirectory.inode

/-- Everything the commit lists, in the order of its three lists. -/
def ids : List ℕ :=
  commit.inodes.map CommitInode.inode ++ commit.directoryIds ++
    commit.symlinks.map CommitSymlink.inode

/-- The names of an inode in the commit. -/
def linksTo (id : ℕ) : ℕ :=
  commit.entries.countP fun entry => entry.2 = id

/-- The links that have been observed, if there are any. -/
def observedLinks (id : ℕ) : Option ℕ :=
  if commit.linksTo id = 0 then none else some (commit.linksTo id)

def directoryChildren (id : ℕ) : ℕ :=
  commit.entries.countP fun entry => entry.1.parent = id ∧ entry.2 ∈ commit.directoryIds

/-- The assertions on a cut: every entry is between listed inodes, and links agree. -/
def assertCommitReachability : Except Failure Unit := do
  assertThat (∀ entry ∈ commit.entries,
    entry.1.parent = ROOT_INODE ∨ entry.1.parent ∈ commit.directoryIds)
  assertThat (∀ entry ∈ commit.entries, entry.2 ∈ commit.ids)
  assertThat (∀ entry ∈ commit.entries, commit.linksTo entry.2 < 2 ^ 32)
  assertThat (∀ entry ∈ commit.entries, commit.directoryChildren entry.1.parent < 2 ^ 32)
  assertThat ((commit.entries.map Prod.snd).dedup.length = commit.ids.length)
  assertThat (∀ file ∈ commit.inodes, commit.observedLinks file.inode = some file.linkCount)
  assertThat (∀ symlink ∈ commit.symlinks,
    commit.observedLinks symlink.inode = some symlink.linkCount)
  assertThat (∀ directory ∈ commit.directories, commit.observedLinks directory.inode = some 1)
  assertThat (∀ directory ∈ commit.directories,
    directory.linkCount = 2 + commit.directoryChildren directory.inode)

end NamespaceCommit

namespace Catalog

variable (catalog : Catalog)

def linkedInodes : List (ℕ × Inode) :=
  catalog.inodes.pairs.filter fun object => object.1 ≠ ROOT_INODE ∧ object.2.linkCount ≠ 0

/-- Whether there is anything to commit. -/
def isDirty : Bool :=
  catalog.rootMutationSequence ≠ catalog.committedNamespaceMutationSequence ∨
    ∃ object ∈ catalog.linkedInodes, object.2.data.activeMutations

/-- The namespace as the commit will publish it. -/
def cut (root : Inode) : NamespaceCommit where
  inodeReservationEnd := catalog.inodeReservationEnd
  inodeAllocationCursor := catalog.nextInode
  namespaceMutationSequence := catalog.rootMutationSequence
  root := root.commitDirectory ROOT_INODE
  inodes := (catalog.linkedInodes.filter fun object => object.2.kind = .regular).map
    fun object => object.2.commitInode object.1
  directories := (catalog.linkedInodes.filter fun object => object.2.kind = .directory).map
    fun object => object.2.commitDirectory object.1
  symlinks := (catalog.linkedInodes.filter fun object => object.2.kind = .symlink).map
    fun object => object.2.commitSymlink object.1 (object.2.symlinkTarget.getD [])
  entries := catalog.entries.pairs

/-- The catalog while the commit is in flight. -/
def frozen (commit : NamespaceCommit) : Catalog :=
  { catalog with
    inodes := catalog.inodes.mapValues Inode.freeze
    inflightCommit := some commit }

/-- Cuts the namespace, unless a commit is under way or nothing has changed. -/
def beginCommit (memory : Option PosixError) : Except Failure (Catalog × Option NamespaceCommit) :=
  match catalog.inflightCommit with
  | some commit => .ok (catalog, some commit)
  | none =>
    if ¬ catalog.isDirty then .ok (catalog, none)
    else do
      reserve memory
      let root ← expect (catalog.inodes.get? ROOT_INODE)
      assertThat (∀ object ∈ catalog.linkedInodes,
        object.2.kind = .symlink → object.2.symlinkTarget ≠ none)
      (catalog.cut root).assertCommitReachability
      return (catalog.frozen (catalog.cut root), some (catalog.cut root))

/-- Notes that the cut is durable. What has been mutated since stays. -/
def completeCommit (commit : NamespaceCommit) : Except Failure Catalog := do
  assertThat (catalog.inflightCommit = some commit)
  assertThat (∀ file ∈ commit.inodes, ∀ inode ∈ catalog.inodes.get? file.inode,
    file.mutationSequence ≤ inode.mutationSequence)
  assertThat (commit.namespaceMutationSequence ≤ catalog.rootMutationSequence)
  return { catalog with
    committedNamespaceMutationSequence := commit.namespaceMutationSequence
    inflightCommit := none }

section Cut

variable {catalog : Catalog} {root inode : Inode} {id : ℕ}

theorem mem_linkedInodes : (id, inode) ∈ catalog.linkedInodes ↔
    catalog.inodes.get? id = some inode ∧ id ≠ ROOT_INODE ∧ inode.linkCount ≠ 0 := by
  simp [linkedInodes, mem_pairs_iff]

theorem linkedInodes_nodup : (catalog.linkedInodes.map Prod.fst).Nodup :=
  catalog.inodes.keys_nodup.sublist (filter_sublist.map _)

theorem mem_inodes_cut {file : CommitInode} : file ∈ (catalog.cut root).inodes ↔
    ∃ id inode, (id, inode) ∈ catalog.linkedInodes ∧ inode.kind = .regular ∧
      inode.commitInode id = file := by
  simp [cut, and_assoc]

theorem mem_directories_cut {directory : CommitDirectory} :
    directory ∈ (catalog.cut root).directories ↔
      ∃ id inode, (id, inode) ∈ catalog.linkedInodes ∧ inode.kind = .directory ∧
        inode.commitDirectory id = directory := by
  simp [cut, and_assoc]

theorem mem_symlinks_cut {symlink : CommitSymlink} : symlink ∈ (catalog.cut root).symlinks ↔
    ∃ id inode, (id, inode) ∈ catalog.linkedInodes ∧ inode.kind = .symlink ∧
      inode.commitSymlink id (inode.symlinkTarget.getD []) = symlink := by
  simp [cut, and_assoc]

theorem mem_directoryIds_cut : id ∈ (catalog.cut root).directoryIds ↔
    ∃ inode, (id, inode) ∈ catalog.linkedInodes ∧ inode.kind = .directory := by
  simp only [directoryIds, mem_map, mem_directories_cut]
  constructor
  · rintro ⟨_, ⟨_, inode, mem, directory, rfl⟩, rfl⟩
    exact ⟨inode, mem, directory⟩
  · rintro ⟨inode, mem, directory⟩
    exact ⟨_, ⟨id, inode, mem, directory, rfl⟩, rfl⟩

theorem mem_ids_cut : id ∈ (catalog.cut root).ids ↔
    ∃ inode, (id, inode) ∈ catalog.linkedInodes := by
  simp only [ids, mem_append, mem_directoryIds_cut, mem_map,
    mem_inodes_cut, mem_symlinks_cut]
  constructor
  · rintro ((⟨_, ⟨_, inode, mem, _, rfl⟩, rfl⟩ | ⟨inode, mem, _⟩) |
      ⟨_, ⟨_, inode, mem, _, rfl⟩, rfl⟩)
    · exact ⟨inode, mem⟩
    · exact ⟨inode, mem⟩
    · exact ⟨inode, mem⟩
  · rintro ⟨inode, mem⟩
    cases kind : inode.kind with
    | regular => exact .inl (.inl ⟨_, ⟨id, inode, mem, kind, rfl⟩, rfl⟩)
    | directory => exact .inl (.inr ⟨inode, mem, kind⟩)
    | symlink => exact .inr ⟨_, ⟨id, inode, mem, kind, rfl⟩, rfl⟩

theorem length_kinds (objects : List (ℕ × Inode)) :
    (objects.filter fun object => object.2.kind = .regular).length +
      (objects.filter fun object => object.2.kind = .directory).length +
      (objects.filter fun object => object.2.kind = .symlink).length = objects.length := by
  induction objects with
  | nil => rfl
  | cons object rest ih =>
    cases kind : object.2.kind <;> simp [kind] <;> omega

theorem length_ids_cut : (catalog.cut root).ids.length = catalog.linkedInodes.length := by
  rw [← length_kinds]
  simp [ids, directoryIds, cut, Nat.add_assoc]

theorem linksTo_cut : (catalog.cut root).linksTo id = catalog.graph.incoming id := by
  rw [LinkGraph.incoming, graph, edges, countP_map]
  rfl

end Cut

section Tree

variable {catalog : Catalog} {root inode : Inode} {id : ℕ}

section

variable (tree : catalog.Tree True)

include tree

theorem Tree.linked_of_target {key : EntryKey} (entry : catalog.entries.get? key = some id) :
    ∃ inode, (id, inode) ∈ catalog.linkedInodes := by
  have mem := mem_edges.mpr entry
  rcases Option.ne_none_iff_exists'.mp (tree.get?_ne_none entry) with ⟨inode, found⟩
  refine ⟨inode, mem_linkedInodes.mpr ⟨found, tree.forest.rootFree _ mem, ?_⟩⟩
  exact Nat.ne_of_gt (tree.linkCount_pos entry found)

theorem Tree.names_of_leaf (found : catalog.inodes.get? id = some inode)
    (leaf : inode.kind ≠ .directory) : catalog.graph.incoming id = inode.linkCount := by
  rw [← tree.forest.leafLinks id (kind_eq_leaf_iff.mpr ⟨inode, found, leaf⟩), links_of_get? found]

theorem Tree.names_of_directory (found : catalog.inodes.get? id = some inode)
    (directory : inode.kind = .directory) (linked : inode.linkCount ≠ 0)
    (notRoot : id ≠ ROOT_INODE) :
    catalog.graph.incoming id = 1 ∧ inode.linkCount = 2 + catalog.graph.childDirectories id := by
  have isDirectory := kind_eq_directory_iff.mpr ⟨inode, found, directory⟩
  have counted := tree.forest.directoryLinks id isDirectory notRoot
  have named := (tree.incoming_of_linked ⟨inode, found, directory, linked⟩).resolve_left notRoot
  rw [links_of_get? found] at counted
  rcases counted with ⟨_, none⟩ | ⟨links, one⟩
  · exact absurd none named
  · exact ⟨one, links⟩

theorem Tree.parent_linked {key : EntryKey} (entry : catalog.entries.get? key = some id) :
    ∃ above, catalog.inodes.get? key.parent = some above ∧ above.kind = .directory ∧
      above.linkCount = 2 + catalog.graph.childDirectories key.parent := by
  have attached := tree.attached trivial
  have directory : catalog.graph.kind key.parent = some .directory :=
    tree.forest.parent_directory attached (mem_edges.mpr entry)
  rcases kind_eq_directory_iff.mp directory with ⟨above, found, isDirectory⟩
  refine ⟨above, found, isDirectory, ?_⟩
  rw [← links_of_get? found]
  by_cases isRoot : key.parent = ROOT_INODE
  · rw [isRoot]
    exact tree.forest.rootLinks
  · have named := (attached _ (mem_edges.mpr entry)).resolve_left isRoot
    exact ((tree.forest.directoryLinks _ directory isRoot).resolve_left fun removed =>
      named removed.2).1

theorem Tree.directoryChildren_cut :
    (catalog.cut root).directoryChildren id = catalog.graph.childDirectories id := by
  change _ = catalog.edges.countP _
  rw [edges, countP_map]
  apply countP_congr
  rintro ⟨key, target⟩ mem
  have entry := mem_pairs_iff.mp mem
  simp only [Function.comp_apply, decide_eq_true_eq]
  refine and_congr_right fun _ => ?_
  rw [mem_directoryIds_cut, kind_eq_directory_iff]
  constructor
  · rintro ⟨inode, linked, directory⟩
    exact ⟨inode, (mem_linkedInodes.mp linked).1, directory⟩
  · rintro ⟨inode, found, directory⟩
    rcases tree.linked_of_target entry with ⟨other, linked⟩
    have same := found.symm.trans (mem_linkedInodes.mp linked).1
    cases same
    exact ⟨inode, linked, directory⟩

theorem Tree.named_of_linked (linked : (id, inode) ∈ catalog.linkedInodes) :
    ∃ key, catalog.entries.get? key = some id := by
  rcases mem_linkedInodes.mp linked with ⟨found, notRoot, positive⟩
  have named : catalog.graph.incoming id ≠ 0 := by
    by_cases directory : inode.kind = .directory
    · rw [(tree.names_of_directory found directory positive notRoot).1]
      decide
    · rw [tree.names_of_leaf found directory]
      exact positive
  rw [Ne, LinkGraph.incoming_eq_zero_iff] at named
  push Not at named
  rcases named with ⟨edge, mem, same⟩
  rcases exists_of_mem_edges mem with ⟨key, target, rfl, entry⟩
  exact ⟨key, same ▸ entry⟩

theorem Tree.targets_perm :
    ((catalog.cut root).entries.map Prod.snd).dedup.Perm (catalog.linkedInodes.map Prod.fst) := by
  rw [perm_ext_iff_of_nodup (nodup_dedup _) linkedInodes_nodup]
  intro id
  rw [mem_dedup, mem_map, mem_map]
  constructor
  · rintro ⟨⟨key, target⟩, mem, rfl⟩
    rcases tree.linked_of_target (mem_pairs_iff.mp mem) with ⟨inode, linked⟩
    exact ⟨_, linked, rfl⟩
  · rintro ⟨⟨id, inode⟩, linked, rfl⟩
    rcases tree.named_of_linked linked with ⟨key, entry⟩
    exact ⟨_, mem_pairs_iff.mpr entry, rfl⟩

theorem Tree.assertCommitReachability_eq_ok
    (counted : ∀ id inode, catalog.inodes.get? id = some inode → inode.linkCount < 2 ^ 32) :
    (catalog.cut root).assertCommitReachability = .ok () := by
  have observed : ∀ id, catalog.graph.incoming id ≠ 0 →
      (catalog.cut root).observedLinks id = some (catalog.graph.incoming id) := by
    intro id named
    rw [observedLinks, linksTo_cut, if_neg named]
  have observedLeaf : ∀ id inode, (id, inode) ∈ catalog.linkedInodes → inode.kind ≠ .directory →
      (catalog.cut root).observedLinks id = some inode.linkCount := by
    intro id inode linked leaf
    rcases mem_linkedInodes.mp linked with ⟨found, _, positive⟩
    have names := tree.names_of_leaf found leaf
    rw [observed id (names ▸ positive), names]
  have ofDirectory : ∀ id inode, (id, inode) ∈ catalog.linkedInodes → inode.kind = .directory →
      catalog.graph.incoming id = 1 ∧ inode.linkCount = 2 + catalog.graph.childDirectories id := by
    intro id inode linked directory
    rcases mem_linkedInodes.mp linked with ⟨found, notRoot, positive⟩
    exact tree.names_of_directory found directory positive notRoot
  simp only [assertCommitReachability, bind_ok, assertThat_ok]
  refine ⟨(), ?_, (), ?_, (), ?_, (), ?_, (), ?_, (), ?_, (), ?_, (), ?_, ?_⟩
  · rintro ⟨key, target⟩ mem
    rcases tree.parent_linked (mem_pairs_iff.mp mem) with
      ⟨above, found, directory, links⟩
    by_cases isRoot : key.parent = ROOT_INODE
    · exact .inl isRoot
    · right
      exact mem_directoryIds_cut.mpr ⟨above, mem_linkedInodes.mpr ⟨found, isRoot, by omega⟩,
        directory⟩
  · rintro ⟨key, target⟩ mem
    exact mem_ids_cut.mpr (tree.linked_of_target (mem_pairs_iff.mp mem))
  · rintro ⟨key, target⟩ mem
    rcases tree.linked_of_target (mem_pairs_iff.mp mem) with ⟨inode, linked⟩
    rw [linksTo_cut]
    by_cases directory : inode.kind = .directory
    · rw [(ofDirectory target inode linked directory).1]
      decide
    · have found := (mem_linkedInodes.mp linked).1
      rw [tree.names_of_leaf found directory]
      exact counted target inode found
  · rintro ⟨key, target⟩ mem
    rcases tree.parent_linked (mem_pairs_iff.mp mem) with ⟨above, found, _, links⟩
    have fits := counted key.parent above found
    rw [tree.directoryChildren_cut]
    change catalog.graph.childDirectories key.parent < 2 ^ 32
    omega
  · rw [tree.targets_perm.length_eq, length_ids_cut, length_map]
  · intro file mem
    rcases mem_inodes_cut.mp mem with ⟨id, inode, linked, regular, rfl⟩
    exact observedLeaf id inode linked (by rw [regular]; decide)
  · intro symlink mem
    rcases mem_symlinks_cut.mp mem with ⟨id, inode, linked, isSymlink, rfl⟩
    exact observedLeaf id inode linked (by rw [isSymlink]; decide)
  · intro directory mem
    rcases mem_directories_cut.mp mem with ⟨id, inode, linked, isDirectory, rfl⟩
    have one := (ofDirectory id inode linked isDirectory).1
    change (catalog.cut root).observedLinks id = some 1
    rw [observed id (by rw [one]; decide), one]
  · intro directory mem
    rcases mem_directories_cut.mp mem with ⟨id, inode, linked, isDirectory, rfl⟩
    rw [tree.directoryChildren_cut]
    exact (ofDirectory id inode linked isDirectory).2

end

end Tree

section Begin

variable {catalog : Catalog} {memory : Option PosixError}

/-- Links are counted in 32 bits, and symbolic links have targets. -/
structure Countable (catalog : Catalog) : Prop where
  links : ∀ id inode, catalog.inodes.get? id = some inode → inode.linkCount < 2 ^ 32
  targets : ∀ id inode, catalog.inodes.get? id = some inode → inode.kind = .symlink →
    inode.symlinkTarget ≠ none

/-- The three outcomes of beginning a commit. -/
inductive Begins (catalog : Catalog) : Catalog × Option NamespaceCommit → Prop where
  | inflight {commit : NamespaceCommit} (inflight : catalog.inflightCommit = some commit) :
      Begins catalog (catalog, some commit)
  | clean : Begins catalog (catalog, none)
  | cut {root : Inode} (idle : catalog.inflightCommit = none)
      (present : catalog.inodes.get? ROOT_INODE = some root)
      (targets : ∀ object ∈ catalog.linkedInodes,
        object.2.kind = .symlink → object.2.symlinkTarget ≠ none)
      (asserted : (catalog.cut root).assertCommitReachability = .ok ()) :
      Begins catalog (catalog.frozen (catalog.cut root), some (catalog.cut root))

theorem runs_beginCommit : Runs (catalog.Tree True ∧ catalog.Countable)
    (catalog.beginCommit memory) catalog.Begins := by
  unfold beginCommit
  cases inflight : catalog.inflightCommit with
  | some commit => exact .ok (.inflight inflight)
  | none =>
    refine Runs.ite (fun _ => .ok .clean) fun _ => ?_
    refine Runs.step Refusing.reserve fun _ _ => ?_
    refine Runs.expect ?_ fun root found => ?_
    · rintro ⟨tree, _⟩
      rcases kind_eq_directory_iff.mp tree.forest.rootDirectory with ⟨root, found, _⟩
      rw [found]
      exact Option.some_ne_none root
    refine Runs.assertThat ?_ fun targets => ?_
    · rintro ⟨_, countable⟩ ⟨id, inode⟩ linked
      exact countable.targets id inode (mem_linkedInodes.mp linked).1
    refine Runs.attempt ?_ fun _ asserted => .ok (.cut inflight found targets asserted)
    rintro ⟨tree, countable⟩
    rw [tree.assertCommitReachability_eq_ok countable.links]
    exact nofun

end Begin

end Catalog

end Fastdup.Posix
