import Fastdup.Library.LinkGraph.Reached
import Fastdup.Posix.Namespace.Tree

/-!
# Mounting

A namespace starts empty, or from a committed snapshot. The snapshot is checked as a whole: its
numbers, its names, the link counts, and that everything in it can be reached from the root. What
passes is a tree.
-/

namespace Fastdup.Posix

open Library Checked SortedMap List Option LinkGraph Nat

/-- A snapshot with a nonempty range of numbers, as its constructor makes it. -/
structure CommittedNamespaceSnapshot where
  nextInode : ℕ
  inodeReservationEnd : ℕ
  namespaceMutationSequence : ℕ
  rootMode : ℕ
  rootUid : ℕ
  rootGid : ℕ
  rootMetadata : InodeMetadata
  rootTimes : PosixTimes
  inodes : List CommitInode
  directories : List CommitDirectory
  symlinks : List CommitSymlink
  entries : List (EntryKey × ℕ)
  root_lt : ROOT_INODE < nextInode
  ordered : nextInode ≤ inodeReservationEnd

def CommitInode.mounted (committed : CommitInode) : ℕ × Inode :=
  (committed.inode,
    { kind := .regular
      mode := committed.mode
      uid := committed.uid
      gid := committed.gid
      linkCount := committed.linkCount
      mutationSequence := committed.mutationSequence
      metadata := committed.metadata
      times := committed.times
      symlinkTarget := none
      data := { cells := committed.cells, activeMutations := false } })

def CommitDirectory.mounted (committed : CommitDirectory) : ℕ × Inode :=
  (committed.inode,
    { kind := .directory
      mode := committed.mode
      uid := committed.uid
      gid := committed.gid
      linkCount := committed.linkCount
      mutationSequence := committed.mutationSequence
      metadata := committed.metadata
      times := committed.times
      symlinkTarget := none
      data := newFile })

def CommitSymlink.mounted (committed : CommitSymlink) : ℕ × Inode :=
  (committed.inode,
    { kind := .symlink
      mode := 0o777
      uid := committed.uid
      gid := committed.gid
      linkCount := committed.linkCount
      mutationSequence := committed.mutationSequence
      metadata := .default
      times := committed.times
      symlinkTarget := some committed.target
      data := newFile })

namespace CommittedNamespaceSnapshot

variable (snapshot : CommittedNamespaceSnapshot)

def root : Inode where
  kind := .directory
  mode := snapshot.rootMode
  uid := snapshot.rootUid
  gid := snapshot.rootGid
  linkCount := 2
  mutationSequence := snapshot.namespaceMutationSequence
  metadata := snapshot.rootMetadata
  times := snapshot.rootTimes
  symlinkTarget := none
  data := newFile

/-- The inodes of the snapshot in the order they are mounted. -/
def objects : List (ℕ × Inode) :=
  snapshot.inodes.map CommitInode.mounted ++ snapshot.directories.map CommitDirectory.mounted ++
    snapshot.symlinks.map CommitSymlink.mounted

end CommittedNamespaceSnapshot

variable {snapshot : CommittedNamespaceSnapshot} {id : ℕ}

namespace Catalog

/-- An inode number may appear once, below the allocation cursor. -/
def mountObject (nextInode : ℕ) (inodes : SortedMap ℕ Inode) (object : ℕ × Inode) :
    Except Failure (SortedMap ℕ Inode) := do
  refuse (object.1 ≥ nextInode) .invalidArgument
  refuse ((inodes.get? object.1).isSome) .invalidArgument
  return inodes.insert object.1 object.2

/-- An entry needs a directory to stand in, and a free name. -/
def mountEntry (config : NamespaceConfig) (catalog : Catalog) (entry : EntryKey × ℕ) :
    Except Failure Catalog := do
  validateComponent config entry.1.name
  refuse (catalog.graph.kind entry.1.parent ≠ some .directory ∨ entry.2 = ROOT_INODE ∨
    catalog.inodes.get? entry.2 = none) .invalidArgument
  refuse ((catalog.entries.get? entry.1).isSome) .invalidArgument
  let after := catalog.insertEntry entry.1 entry.2
  refuse (after.graph.incoming entry.2 ≥ 2 ^ 32) .noSpace
  refuse (after.graph.childDirectories entry.1.parent ≥ 2 ^ 32) .noSpace
  return after

/-- The link count must agree with the entries. -/
def mountLinks (catalog : Catalog) (object : ℕ × Inode) : Except Failure Unit :=
  if object.1 = ROOT_INODE then .ok ()
  else if object.2.kind = .directory then do
    refuse (2 + catalog.graph.childDirectories object.1 ≥ 2 ^ 32) .noSpace
    refuse (catalog.graph.incoming object.1 ≠ 1 ∨
      object.2.linkCount ≠ 2 + catalog.graph.childDirectories object.1) .invalidArgument
  else
    refuse (catalog.graph.incoming object.1 = 0 ∨
      object.2.linkCount ≠ catalog.graph.incoming object.1) .invalidArgument

/-- The walk over the directories from the root, as far as `visits` of them. -/
def walkDirectories (catalog : Catalog) (visits : ℕ) : Option (Option (List ℕ)) :=
  LinkGraph.search (fun id => catalog.graph.kind id = some .directory) catalog.graph.children
    visits [] [ROOT_INODE]

/-- The objects that can be reached, unless a directory is reached twice. A walk with more visits
than there are objects would not end. -/
def reachableInodes (catalog : Catalog) : Except Failure (List ℕ) :=
  match catalog.walkDirectories (catalog.inodes.pairs.length + 1) with
  | some (some reached) => .ok reached
  | some none => .error (.refused .invalidArgument)
  | none => .error .panicked

theorem reachableInodes_ok {catalog : Catalog} {reached : List ℕ} :
    catalog.reachableInodes = .ok reached ↔
      catalog.walkDirectories (catalog.inodes.pairs.length + 1) = some (some reached) := by
  unfold reachableInodes
  split <;> simp_all

/-- The catalog before the first entry. -/
def nameless (snapshot : CommittedNamespaceSnapshot) (inodes : SortedMap ℕ Inode) : Catalog where
  nextInode := snapshot.nextInode
  inodeReservationEnd := snapshot.inodeReservationEnd
  nextHandle := 1
  committedNamespaceMutationSequence := snapshot.namespaceMutationSequence
  inflightCommit := none
  inodes := inodes
  entries := .empty
  handles := .empty
  lookupCounts := .empty

/-- The link count of the root is not stored but counted. -/
def withRootLinks (catalog : Catalog) : Catalog :=
  catalog.update ROOT_INODE fun root =>
    { root with linkCount := 2 + catalog.graph.childDirectories ROOT_INODE }

/-- Mounts a snapshot, or says why it is refused. -/
def fromCommitted (config : NamespaceConfig) (snapshot : CommittedNamespaceSnapshot) :
    Except Failure Catalog := do
  assertThat (config.maximumNameBytes > 0)
  let inodes ← snapshot.objects.foldlM (mountObject snapshot.nextInode)
    (SortedMap.empty.insert ROOT_INODE snapshot.root)
  let named ← snapshot.entries.foldlM (mountEntry config) (nameless snapshot inodes)
  named.inodes.pairs.forM (mountLinks named)
  refuse (2 + named.graph.childDirectories ROOT_INODE ≥ 2 ^ 32) .noSpace
  let reachable ← named.withRootLinks.reachableInodes
  refuse (reachable.length ≠ inodes.pairs.length - 1) .invalidArgument
  return named.withRootLinks

def newRoot (now : PosixTimestamp) : Inode where
  kind := .directory
  mode := 0o755
  uid := 0
  gid := 0
  linkCount := 2
  mutationSequence := 0
  metadata := .default
  times := newTimes now
  symlinkTarget := none
  data := newFile

/-- The empty namespace. -/
def newVolatile (now : PosixTimestamp) : Catalog where
  nextInode := ROOT_INODE + 1
  inodeReservationEnd := 2 ^ 64 - 1
  nextHandle := 1
  committedNamespaceMutationSequence := 0
  inflightCommit := none
  inodes := SortedMap.empty.insert ROOT_INODE (newRoot now)
  entries := .empty
  handles := .empty
  lookupCounts := .empty

section Objects

variable {nextInode : ℕ} {inodes after : SortedMap ℕ Inode} {object : ℕ × Inode}

theorem mountObject_eq_ok (mounted : mountObject nextInode inodes object = .ok after) :
    object.1 < nextInode ∧ inodes.get? object.1 = none ∧
      after = inodes.insert object.1 object.2 := by
  simp only [mountObject, refuse_ok, bind_ok, pure_ok] at mounted
  rcases mounted with ⟨_, below, _, absent, rfl⟩
  exact ⟨Nat.lt_of_not_le below, by simpa using absent, rfl⟩

/-- The objects that have been accepted: the root, and others with numbers that were allocated. -/
structure Objects (root : Inode) (nextInode : ℕ) (inodes : SortedMap ℕ Inode) : Prop where
  root : inodes.get? ROOT_INODE = some root
  numbers : ∀ id inode, inodes.get? id = some inode → id < nextInode
  targets : ∀ id inode, inodes.get? id = some inode → inode.kind = .symlink →
    inode.symlinkTarget ≠ none

theorem Objects.mount {root : Inode} (objects : Objects root nextInode inodes)
    (target : object.2.kind = .symlink → object.2.symlinkTarget ≠ none)
    (mounted : mountObject nextInode inodes object = .ok after) : Objects root nextInode after := by
  rcases mountObject_eq_ok mounted with ⟨below, absent, rfl⟩
  constructor
  case root =>
    rw [get?_insert, if_neg]
    · exact objects.root
    · intro same
      rw [← same, objects.root] at absent
      cases absent
  case numbers =>
    intro id inode found
    rcases get?_insert_eq_some_iff.mp found with ⟨rfl, _⟩ | ⟨_, old⟩
    · exact below
    · exact objects.numbers id inode old
  case targets =>
    intro id inode found
    rcases get?_insert_eq_some_iff.mp found with ⟨_, rfl⟩ | ⟨_, old⟩
    · exact target
    · exact objects.targets id inode old

theorem target_of_mem_objects (mem : object ∈ snapshot.objects)
    (symlink : object.2.kind = .symlink) : object.2.symlinkTarget ≠ none := by
  simp only [CommittedNamespaceSnapshot.objects, List.mem_append, List.mem_map] at mem
  rcases mem with (⟨committed, _, rfl⟩ | ⟨committed, _, rfl⟩) | ⟨committed, _, rfl⟩
  · cases symlink
  · cases symlink
  · exact Option.some_ne_none committed.target

theorem objects_of_foldlM (mounted : snapshot.objects.foldlM (mountObject snapshot.nextInode)
      (empty.insert ROOT_INODE snapshot.root) = .ok after) :
    Objects snapshot.root snapshot.nextInode after := by
  have keeps : ∀ state, ∀ object ∈ snapshot.objects, ∀ next,
      Objects snapshot.root snapshot.nextInode state →
      mountObject snapshot.nextInode state object = .ok next →
      Objects snapshot.root snapshot.nextInode next :=
    fun _ _ mem _ accepted mounted => accepted.mount (target_of_mem_objects mem) mounted
  refine foldlM_keeps keeps ?_ mounted
  have only : ∀ id inode, (empty.insert ROOT_INODE snapshot.root).get? id = some inode →
      id = ROOT_INODE ∧ inode = snapshot.root := by
    intro id inode found
    rcases get?_insert_eq_some_iff.mp found with same | ⟨_, impossible⟩
    · exact same
    · cases impossible
  constructor
  case root => rw [get?_insert, if_pos rfl]
  case numbers =>
    intro id inode found
    exact (only id inode found).1 ▸ snapshot.root_lt
  case targets =>
    intro id inode found symlink
    rw [(only id inode found).2] at symlink
    cases symlink

end Objects

section Names

variable {config : NamespaceConfig} {base catalog after : Catalog} {entry : EntryKey × ℕ}

/-- The catalog differs from the base in its entries only, and these are well named. -/
structure Naming (config : NamespaceConfig) (base catalog : Catalog) : Prop where
  shape : catalog = { base with entries := catalog.entries }
  names : ∀ key id, catalog.entries.get? key = some id → validateComponent config key.name = .ok ()
  parents : ∀ key id, catalog.entries.get? key = some id →
    catalog.graph.kind key.parent = some .directory
  targets : ∀ key id, catalog.entries.get? key = some id →
    id ≠ ROOT_INODE ∧ catalog.inodes.get? id ≠ none
  bounded : ∀ id, catalog.graph.incoming id < 2 ^ 32

theorem mountEntry_eq_ok (mounted : mountEntry config catalog entry = .ok after) :
    validateComponent config entry.1.name = .ok () ∧
      catalog.graph.kind entry.1.parent = some .directory ∧ entry.2 ≠ ROOT_INODE ∧
      catalog.inodes.get? entry.2 ≠ none ∧ catalog.entries.get? entry.1 = none ∧
      after = catalog.insertEntry entry.1 entry.2 ∧ after.graph.incoming entry.2 < 2 ^ 32 := by
  simp only [mountEntry, refuse_ok, bind_ok, pure_ok] at mounted
  rcases mounted with ⟨_, valid, _, placed, _, absent, _, fits, _, _, rfl⟩
  rw [not_or, not_or, not_not] at placed
  exact ⟨valid, placed.1, placed.2.1, placed.2.2, by simpa using absent, rfl, Nat.lt_of_not_le fits⟩

theorem Naming.mount (naming : Naming config base catalog)
    (mounted : mountEntry config catalog entry = .ok after) : Naming config base after := by
  rcases mountEntry_eq_ok mounted with ⟨valid, parent, notRoot, target, absent, rfl, fits⟩
  constructor
  case shape => rw [insertEntry, naming.shape]
  case names =>
    intro key id found
    rcases get?_insert_eq_some_iff.mp found with ⟨rfl, _⟩ | ⟨_, old⟩
    · exact valid
    · exact naming.names key id old
  case parents =>
    intro key id found
    rcases get?_insert_eq_some_iff.mp found with ⟨rfl, _⟩ | ⟨_, old⟩
    · exact parent
    · exact naming.parents key id old
  case targets =>
    intro key id found
    rcases get?_insert_eq_some_iff.mp found with ⟨_, rfl⟩ | ⟨_, old⟩
    · exact ⟨notRoot, target⟩
    · exact naming.targets key id old
  case bounded =>
    intro id
    by_cases same : id = entry.2
    · exact same ▸ fits
    · have other : (entry.1.edge entry.2).target ≠ id := Ne.symm same
      rw [incoming_of_perm (perm_edges_add absent rfl), if_neg other]
      exact naming.bounded id

theorem naming_of_foldlM {entries : List (EntryKey × ℕ)} (nameless : base.entries = .empty)
    (mounted : entries.foldlM (mountEntry config) base = .ok after) : Naming config base after := by
  refine foldlM_keeps (fun _ _ _ _ accepted mounted => accepted.mount mounted) ?_ mounted
  have absent : ∀ key id, base.entries.get? key ≠ some id := by
    intro key id
    rw [nameless]
    exact some_ne_none id |>.symm
  constructor
  case shape => rfl
  case names => exact fun key id found => absurd found (absent key id)
  case parents => exact fun key id found => absurd found (absent key id)
  case targets => exact fun key id found => absurd found (absent key id)
  case bounded =>
    intro id
    have none : base.graph.incoming id = 0 := by
      rw [incoming_eq_zero_iff]
      intro edge mem
      rcases exists_of_mem_edges mem with ⟨key, target, _, found⟩
      exact absurd found (absent key target)
    rw [none]
    decide

end Names

section Links

variable {catalog : Catalog} {inode : Inode}

section

variable (mounted : catalog.mountLinks (id, inode) = .ok ()) (notRoot : id ≠ ROOT_INODE)

include mounted notRoot

theorem mountLinks_directory (directory : inode.kind = .directory) :
    catalog.graph.incoming id = 1 ∧ inode.linkCount = 2 + catalog.graph.childDirectories id ∧
      inode.linkCount < 2 ^ 32 := by
  rw [mountLinks, if_neg notRoot, if_pos directory] at mounted
  simp only [refuse_ok, bind_ok] at mounted
  rcases mounted with ⟨_, fits, counted⟩
  rw [not_or, not_not, not_not] at counted
  exact ⟨counted.1, counted.2, counted.2 ▸ Nat.lt_of_not_le fits⟩

theorem mountLinks_leaf (leaf : inode.kind ≠ .directory) :
    catalog.graph.incoming id ≠ 0 ∧ inode.linkCount = catalog.graph.incoming id := by
  rw [mountLinks, if_neg notRoot, if_neg leaf, refuse_ok, not_or, not_not] at mounted
  exact mounted

end

theorem kind_withRootLinks : catalog.withRootLinks.graph.kind = catalog.graph.kind :=
  kind_update fun _ _ => rfl

theorem edges_withRootLinks : catalog.withRootLinks.edges = catalog.edges :=
  edges_update

theorem incoming_withRootLinks :
    catalog.withRootLinks.graph.incoming id = catalog.graph.incoming id := by
  change LinkGraph.incoming
    { catalog.withRootLinks.graph with edges := catalog.withRootLinks.edges } id = _
  rw [edges_withRootLinks]
  rfl

theorem childDirectories_withRootLinks :
    catalog.withRootLinks.graph.childDirectories id = catalog.graph.childDirectories id := by
  rw [LinkGraph.childDirectories, kind_withRootLinks]
  change (catalog.withRootLinks.edges.countP _) = _
  rw [edges_withRootLinks]
  rfl

end Links

section Mounted

variable {catalog : Catalog} {found : List ℕ}

def others (catalog : Catalog) : List ℕ :=
  (catalog.inodes.remove ROOT_INODE).pairs.map Prod.fst

theorem mem_others : id ∈ catalog.others ↔ id ≠ ROOT_INODE ∧ catalog.inodes.get? id ≠ none := by
  rw [others, mem_keys_iff, get?_remove]
  split <;> simp_all

theorem length_others (root : catalog.inodes.get? ROOT_INODE ≠ none) :
    catalog.others.length = catalog.inodes.pairs.length - 1 := by
  rcases ne_none_iff_exists'.mp root with ⟨inode, stored⟩
  rw [others, length_map, (perm_remove stored).length_eq]
  rfl

/-- Nothing is left over when the search finds as many objects as there are besides the root. -/
theorem reachable_of_search (searched : catalog.reachableInodes = .ok found)
    (all : found.length = catalog.inodes.pairs.length - 1)
    (root : catalog.inodes.get? ROOT_INODE ≠ none)
    (targets : ∀ key id, catalog.entries.get? key = some id →
      id ≠ ROOT_INODE ∧ catalog.inodes.get? id ≠ none) (present : catalog.inodes.get? id ≠ none) :
    LinkGraph.Reachable ROOT_INODE catalog.edges id := by
  have closed : ∀ parent, LinkGraph.Reachable ROOT_INODE catalog.edges parent →
      ∀ child ∈ catalog.graph.children parent,
        (child ∈ catalog.others ∧ LinkGraph.Reachable ROOT_INODE catalog.edges child) ∧
          LinkGraph.Reachable ROOT_INODE catalog.edges child := by
    intro parent reachable child isChild
    rw [mem_children] at isChild
    rcases isChild with ⟨edge, mem, rfl, rfl⟩
    have reached := LinkGraph.Reachable.step mem reachable
    rcases exists_of_mem_edges mem with ⟨key, target, rfl, named⟩
    exact ⟨⟨mem_others.mpr (targets key target named), reached⟩, reached⟩
  rcases search_keeps closed nodup_nil (fun _ mem => absurd mem not_mem_nil)
    (forall_mem_singleton.mpr .start) (reachableInodes_ok.mp searched) with ⟨nodup, onlyOthers⟩
  have everything : found.Perm catalog.others := by
    refine (nodup.subperm fun id mem => (onlyOthers id mem).1).perm_of_length_le ?_
    rw [length_others root, all]
  by_cases isRoot : id = ROOT_INODE
  · exact isRoot ▸ .start
  · exact (onlyOthers id (everything.mem_iff.mpr (mem_others.mpr ⟨isRoot, present⟩))).2

variable {config : NamespaceConfig} {named : Catalog}

theorem edge_unique {first second : Edge ℕ Bytes}
    (one : catalog.graph.incoming first.target = 1) (firstMem : first ∈ catalog.edges)
    (secondMem : second ∈ catalog.edges) (same : first.target = second.target) :
    first = second := by
  rw [LinkGraph.incoming, countP_eq_length_filter, length_eq_one_iff] at one
  rcases one with ⟨only, filtered⟩
  have firstOnly : first ∈ [only] := filtered ▸ mem_filter.mpr ⟨firstMem, by simp⟩
  have secondOnly : second ∈ [only] := filtered ▸ mem_filter.mpr ⟨secondMem, by simp [same]⟩
  exact (mem_singleton.mp firstOnly).trans (mem_singleton.mp secondOnly).symm

/-- What the mount has established of a snapshot it does not refuse. -/
structure Accepted (config : NamespaceConfig) (snapshot : CommittedNamespaceSnapshot)
    (named : Catalog) (found : List ℕ) : Prop where
  objects : Objects snapshot.root snapshot.nextInode named.inodes
  naming : Naming config (nameless snapshot named.inodes) named
  links : ∀ id inode, named.inodes.get? id = some inode → named.mountLinks (id, inode) = .ok ()
  rootLinks : 2 + named.graph.childDirectories ROOT_INODE < 2 ^ 32
  searched : named.withRootLinks.reachableInodes = .ok found
  all : found.length = named.inodes.pairs.length - 1

theorem fromCommitted_eq_ok (mounted : fromCommitted config snapshot = .ok catalog) :
    ∃ named found, Accepted config snapshot named found ∧ catalog = named.withRootLinks ∧
      config.maximumNameBytes > 0 ∧ snapshot.objects.foldlM (mountObject snapshot.nextInode)
        (empty.insert ROOT_INODE snapshot.root) = .ok named.inodes ∧
      snapshot.entries.foldlM (mountEntry config) (nameless snapshot named.inodes) = .ok named := by
  simp only [fromCommitted, refuse_ok, assertThat_ok, bind_ok,
    pure_ok, forM_ok] at mounted
  rcases mounted with ⟨_, configured, inodes, placed, named, entered, _, links, _, fits, found,
    searched, _, all, rfl⟩
  have naming := naming_of_foldlM rfl entered
  have same : named.inodes = inodes := by rw [naming.shape]; rfl
  subst same
  refine ⟨named, found, ⟨objects_of_foldlM placed, naming, ?_, Nat.lt_of_not_le fits, searched, ?_⟩,
    rfl, configured, placed, entered⟩
  · intro id inode present
    exact links (id, inode) (mem_pairs_iff.mpr present)
  · exact not_not.mp all

theorem get?_withRootLinks (id : ℕ) : named.withRootLinks.inodes.get? id =
    if id = ROOT_INODE then (named.inodes.get? ROOT_INODE).map fun root =>
      { root with linkCount := 2 + named.graph.childDirectories ROOT_INODE }
    else named.inodes.get? id :=
  get?_update _ _ _ _

theorem length_update {change : Inode → Inode} :
    (catalog.update id change).inodes.pairs.length = catalog.inodes.pairs.length := by
  unfold update
  cases found : catalog.inodes.get? id with
  | none => rfl
  | some inode =>
    rw [SortedMap.length_insert, found]
    rfl

theorem places_nodup : (catalog.graph.edges.map Edge.place).Nodup := by
  have asKeys : catalog.graph.edges.map Edge.place =
      (catalog.entries.pairs.map Prod.fst).map fun key => (key.parent, key.name) := by
    rw [graph, edges, List.map_map, List.map_map]
    rfl
  rw [asKeys]
  refine catalog.entries.keys_nodup.map ?_
  intro first second same
  cases first
  cases second
  simpa using same

/-- A snapshot whose objects, names and links have been checked and that can be reached as a whole
from the root. -/
structure Connected (config : NamespaceConfig) (snapshot : CommittedNamespaceSnapshot)
    (named : Catalog) : Prop where
  objects : Objects snapshot.root snapshot.nextInode named.inodes
  naming : Naming config (nameless snapshot named.inodes) named
  links : ∀ id inode, named.inodes.get? id = some inode → named.mountLinks (id, inode) = .ok ()
  reachable : ∀ id, named.inodes.get? id ≠ none → LinkGraph.Reachable ROOT_INODE named.edges id

theorem get?_withRootLinks_ne_none :
    named.withRootLinks.inodes.get? id ≠ none ↔ named.inodes.get? id ≠ none := by
  rw [get?_withRootLinks]
  split
  · rename_i isRoot
    rw [isRoot, Ne, map_eq_none_iff]
  · rfl

theorem Accepted.connected (accepted : Accepted config snapshot named found) :
    Connected config snapshot named where
  objects := accepted.objects
  naming := accepted.naming
  links := accepted.links
  reachable := by
    intro id present
    rw [← edges_withRootLinks]
    apply reachable_of_search accepted.searched
    · rw [withRootLinks, length_update]
      exact accepted.all
    · rw [get?_withRootLinks_ne_none, accepted.objects.root]
      exact some_ne_none _
    · intro key target entry
      rw [get?_withRootLinks_ne_none]
      exact accepted.naming.targets key target ((entries_update named _ _) ▸ entry)
    · exact get?_withRootLinks_ne_none.mpr present

namespace Connected

variable (connected : Connected config snapshot named)
include connected

theorem incoming_directory (notRoot : id ≠ ROOT_INODE)
    (directory : named.graph.kind id = some .directory) : named.graph.incoming id = 1 ∧
      named.graph.links id = 2 + named.graph.childDirectories id := by
  rcases kind_eq_directory_iff.mp directory with ⟨inode, found, isDirectory⟩
  have counted := mountLinks_directory (connected.links id inode found) notRoot isDirectory
  exact ⟨counted.1, (links_of_get? found).trans counted.2.1⟩

theorem edge {edge : Edge ℕ Bytes} (mem : edge ∈ named.edges) :
    named.graph.kind edge.parent = some .directory ∧ edge.target ≠ ROOT_INODE ∧
      named.inodes.get? edge.target ≠ none := by
  rcases exists_of_mem_edges mem with ⟨key, target, rfl, entry⟩
  exact ⟨connected.naming.parents key target entry, connected.naming.targets key target entry⟩

theorem ranked : LinkGraph.Ranked named.edges := by
  apply LinkGraph.Ranked.of_reachable
  · exact fun edge mem => (connected.edge mem).2.1
  · intro first firstMem second secondMem same ⟨child, childMem, isParent⟩
    have directory : named.graph.kind first.target = some .directory :=
      isParent ▸ (connected.edge childMem).1
    have notRoot := (connected.edge firstMem).2.1
    exact edge_unique (connected.incoming_directory notRoot directory).1 firstMem secondMem
      same
  · intro edge mem
    rcases kind_eq_directory_iff.mp (connected.edge mem).1 with ⟨inode, found, _⟩
    apply connected.reachable
    rw [found]
    exact some_ne_none inode

theorem forest : named.withRootLinks.graph.Forest ROOT_INODE := by
  have root : named.graph.kind ROOT_INODE = some .directory := kind_of_get? connected.objects.root
  have rootPresent := connected.objects.root
  have edges : named.withRootLinks.graph.edges = named.edges := edges_withRootLinks
  constructor
  case rootDirectory => rw [kind_withRootLinks, root]
  case rootFree => exact fun edge mem => (connected.edge (edges ▸ mem)).2.1
  case rootLinks =>
    rw [childDirectories_withRootLinks]
    simp [graph, get?_withRootLinks, rootPresent]
  case parents =>
    intro edge mem
    rw [kind_withRootLinks, (connected.edge (edges ▸ mem)).1]
    decide
  case targets =>
    intro edge mem
    rw [kind_withRootLinks, Ne, kind_eq_none_iff]
    exact (connected.edge (edges ▸ mem)).2.2
  case places => exact places_nodup
  case leafLinks =>
    intro id leaf
    rw [kind_withRootLinks] at leaf
    rcases kind_eq_leaf_iff.mp leaf with ⟨inode, found, notDirectory⟩
    have notRoot : id ≠ ROOT_INODE := by
      rintro rfl
      rw [root] at leaf
      cases leaf
    have counted := mountLinks_leaf (connected.links id inode found) notRoot notDirectory
    rw [incoming_withRootLinks, ← counted.2]
    apply links_of_get?
    rw [get?_withRootLinks, if_neg notRoot, found]
  case directoryLinks =>
    intro id directory notRoot
    rw [kind_withRootLinks] at directory
    rcases kind_eq_directory_iff.mp directory with ⟨inode, found, isDirectory⟩
    have counted := mountLinks_directory (connected.links id inode found) notRoot isDirectory
    right
    rw [incoming_withRootLinks, childDirectories_withRootLinks, ← counted.2.1]
    refine ⟨links_of_get? ?_, counted.1⟩
    rw [get?_withRootLinks, if_neg notRoot, found]
  case ranked => exact edges ▸ connected.ranked

theorem attached : named.withRootLinks.graph.Attached ROOT_INODE := by
  intro edge mem
  have edges : named.withRootLinks.graph.edges = named.edges := edges_withRootLinks
  by_cases isRoot : edge.parent = ROOT_INODE
  · exact .inl isRoot
  · right
    rw [incoming_withRootLinks,
      (connected.incoming_directory isRoot (connected.edge (edges ▸ mem)).1).1]
    decide

theorem held : named.withRootLinks.Held := by
  have shape := connected.naming.shape
  have numbered : named.withRootLinks.nextInode = snapshot.nextInode := by
    rw [withRootLinks, nextInode_update, shape]
    rfl
  constructor
  case handles =>
    intro handle file found
    rw [withRootLinks, handles_update, shape] at found
    cases found
  case numbers =>
    intro id inode found
    rw [numbered]
    rw [get?_withRootLinks] at found
    split at found
    · rename_i isRoot
      exact isRoot ▸ snapshot.root_lt
    · exact connected.objects.numbers id inode found
  case parents =>
    intro key id entry
    rw [numbered]
    have directory := connected.naming.parents key id (entries_update named _ _ ▸ entry)
    rcases kind_eq_directory_iff.mp directory with ⟨inode, found, _⟩
    exact connected.objects.numbers key.parent inode found

end Connected

theorem tree_of_fromCommitted (mounted : fromCommitted config snapshot = .ok catalog) :
    catalog.Tree True := by
  rcases fromCommitted_eq_ok mounted with ⟨named, found, accepted, rfl, _⟩
  have connected := accepted.connected
  exact ⟨connected.forest, fun _ => connected.attached, connected.held⟩

theorem tree_newVolatile (now : PosixTimestamp) : (newVolatile now).Tree True := by
  have nameless : ∀ edge, edge ∉ (newVolatile now).edges := fun _ => not_mem_nil
  have root : (newVolatile now).graph.kind ROOT_INODE = some .directory := rfl
  have only : ∀ id inode, (newVolatile now).inodes.get? id = some inode → id = ROOT_INODE := by
    intro id inode found
    rcases get?_insert_eq_some_iff.mp found with ⟨same, _⟩ | ⟨_, old⟩
    · exact same
    · cases old
  refine ⟨?_, fun _ edge mem => absurd mem (nameless edge), ?_⟩
  · constructor
    case rootDirectory => exact root
    case rootFree => exact fun edge mem => absurd mem (nameless edge)
    case rootLinks => rfl
    case parents => exact fun edge mem => absurd mem (nameless edge)
    case targets => exact fun edge mem => absurd mem (nameless edge)
    case places => exact places_nodup
    case leafLinks =>
      intro id leaf
      rcases kind_eq_leaf_iff.mp leaf with ⟨inode, found, _⟩
      rw [only id inode found, root] at leaf
      cases leaf
    case directoryLinks =>
      intro id directory notRoot
      rcases kind_eq_directory_iff.mp directory with ⟨inode, found, _⟩
      exact absurd (only id inode found) notRoot
    case ranked => exact ⟨fun _ => 0, fun edge mem => absurd mem (nameless edge)⟩
  · constructor
    case handles =>
      intro handle file found
      cases found
    case numbers =>
      intro id inode found
      rw [only id inode found]
      exact lt_succ_self ROOT_INODE
    case parents =>
      intro key id found
      cases found

end Mounted

end Catalog

end Fastdup.Posix
