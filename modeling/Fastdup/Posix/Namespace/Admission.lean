import Fastdup.Posix.Namespace.Mount

/-!
# Which snapshots are mounted

A snapshot is mounted exactly when it describes a tree whose names and link counts are right, and
the link count that the root would get fits. The converse of what `Mount` shows goes through the
lists of the snapshot: what has been mounted holds the same objects and names in another order.
-/

namespace Fastdup.Posix

open Library Checked List SortedMap Option Nat LinkGraph CommittedNamespaceSnapshot List.Perm

namespace CommittedNamespaceSnapshot

variable (snapshot : CommittedNamespaceSnapshot)

def object? (id : ℕ) : Option Inode :=
  (snapshot.objects.find? fun object => object.1 = id).map Prod.snd

/-- The directory graph that the snapshot describes, before anything is mounted. -/
def graph : LinkGraph ℕ Bytes where
  kind id := if id = ROOT_INODE then some .directory else (snapshot.object? id).map Inode.nodeKind
  links id := (snapshot.object? id).elim 0 Inode.linkCount
  edges := snapshot.entries.map fun entry => entry.1.edge entry.2

/-- A snapshot of a tree: the numbers, names and link counts are right and everything can be
reached. -/
structure WellFormed (config : NamespaceConfig) : Prop where
  names : ∀ entry ∈ snapshot.entries, Catalog.validateComponent config entry.1.name = .ok ()
  unique : (snapshot.entries.map Prod.fst).Nodup
  distinct : (snapshot.objects.map Prod.fst).Nodup
  numbers : ∀ object ∈ snapshot.objects, object.1 ≠ ROOT_INODE ∧ object.1 < snapshot.nextInode
  parents : ∀ entry ∈ snapshot.entries, snapshot.graph.kind entry.1.parent = some .directory
  targets : ∀ entry ∈ snapshot.entries, ∃ object ∈ snapshot.objects, object.1 = entry.2
  directories : ∀ object ∈ snapshot.objects, object.2.kind = .directory →
    snapshot.graph.incoming object.1 = 1 ∧
      object.2.linkCount = 2 + snapshot.graph.childDirectories object.1
  leaves : ∀ object ∈ snapshot.objects, object.2.kind ≠ .directory →
    object.2.linkCount = snapshot.graph.incoming object.1 ∧ snapshot.graph.incoming object.1 ≠ 0
  reachable : ∀ object ∈ snapshot.objects,
    LinkGraph.Reachable ROOT_INODE snapshot.graph.edges object.1

end CommittedNamespaceSnapshot

variable {object : ℕ × Inode} {inode : Inode}

namespace Catalog

section Objects

variable {nextInode : ℕ} {inodes after : SortedMap ℕ Inode} {objects : List (ℕ × Inode)}

theorem mountObject_ok : mountObject nextInode inodes object = .ok after ↔
      object.1 < nextInode ∧ inodes.get? object.1 = none ∧
        after = inodes.insert object.1 object.2 := by
  refine ⟨mountObject_eq_ok, ?_⟩
  rintro ⟨below, absent, rfl⟩
  rw [mountObject, refuse, require, if_neg (not_le.mpr below), ok_bind, refuse, require,
    if_neg (by simp [absent])]
  rfl

/-- What has been mounted has new numbers and stands in the map next to what was there. -/
theorem foldlM_mountObject_eq_ok
    (mounted : objects.foldlM (mountObject nextInode) inodes = .ok after) :
    (∀ object ∈ objects, object.1 < nextInode ∧ inodes.get? object.1 = none) ∧
      (objects.map Prod.fst).Nodup ∧ after.pairs.Perm (objects ++ inodes.pairs) := by
  induction objects generalizing inodes with
  | nil =>
    cases mounted
    exact ⟨nofun, nodup_nil, .refl _⟩
  | cons object rest ih =>
    rw [foldlM_cons, bind_ok] at mounted
    rcases mounted with ⟨middle, first, others⟩
    rcases mountObject_ok.mp first with ⟨below, absent, rfl⟩
    rcases ih others with ⟨fresh, distinct, perm⟩
    refine ⟨?_, ?_, ?_⟩
    · rw [forall_mem_cons]
      exact ⟨⟨below, absent⟩, fun other mem =>
        ⟨(fresh other mem).1, (get?_insert_eq_none_iff.mp (fresh other mem).2).2⟩⟩
    · rw [map_cons, nodup_cons]
      refine ⟨?_, distinct⟩
      intro again
      rcases mem_map.mp again with ⟨other, mem, same⟩
      exact (get?_insert_eq_none_iff.mp (fresh other mem).2).1 same
    · have moved := (perm_insert_of_get?_eq_none object.2 absent).append_left rest
      exact (perm.trans moved).trans perm_middle

theorem exists_foldlM_mountObject
    (fresh : ∀ object ∈ objects, object.1 < nextInode ∧ inodes.get? object.1 = none)
    (distinct : (objects.map Prod.fst).Nodup) :
    ∃ after, objects.foldlM (mountObject nextInode) inodes = .ok after := by
  induction objects generalizing inodes with
  | nil => exact ⟨inodes, rfl⟩
  | cons object rest ih =>
    rw [forall_mem_cons] at fresh
    rw [map_cons, nodup_cons] at distinct
    have first := mountObject_ok.mpr ⟨fresh.1.1, fresh.1.2, rfl⟩
    rw [foldlM_cons, first, ok_bind]
    refine ih (fun other mem => ⟨(fresh.2 other mem).1, ?_⟩) distinct.2
    refine get?_insert_eq_none_iff.mpr ⟨?_, (fresh.2 other mem).2⟩
    intro same
    exact distinct.1 (same ▸ mem_map_of_mem mem)

end Objects

section Names

variable {config : NamespaceConfig} {catalog after : Catalog} {entries : List (EntryKey × ℕ)}

/-- What the names of a list have to keep to in order to be mounted. -/
structure Nameable (config : NamespaceConfig) (catalog : Catalog) (entry : EntryKey × ℕ) :
    Prop where
  name : validateComponent config entry.1.name = .ok ()
  parent : catalog.graph.kind entry.1.parent = some .directory
  notRoot : entry.2 ≠ ROOT_INODE
  target : catalog.inodes.get? entry.2 ≠ none
  absent : catalog.entries.get? entry.1 = none

theorem mountEntry_of_nameable {entry : EntryKey × ℕ} (nameable : Nameable config catalog entry)
    (few : (catalog.insertEntry entry.1 entry.2).graph.incoming entry.2 < 2 ^ 32)
    (fewChildren : (catalog.insertEntry entry.1 entry.2).graph.childDirectories entry.1.parent <
      2 ^ 32) : mountEntry config catalog entry = .ok (catalog.insertEntry entry.1 entry.2) := by
  have placed : ¬ (catalog.graph.kind entry.1.parent ≠ some .directory ∨ entry.2 = ROOT_INODE ∨
      catalog.inodes.get? entry.2 = none) := by
    rw [not_or, not_or, not_not]
    exact ⟨nameable.parent, nameable.notRoot, nameable.target⟩
  simp only [mountEntry, refuse, require]
  rw [nameable.name, ok_bind, if_neg placed, ok_bind, if_neg (by simp [nameable.absent]), ok_bind,
    if_neg (not_le.mpr few), ok_bind, if_neg (not_le.mpr fewChildren)]
  rfl

theorem foldlM_mountEntry_eq_ok (mounted : entries.foldlM (mountEntry config) catalog = .ok after) :
    (∀ entry ∈ entries, Nameable config catalog entry) ∧ (entries.map Prod.fst).Nodup ∧
      after.entries.pairs.Perm (entries ++ catalog.entries.pairs) ∧
        after.inodes = catalog.inodes := by
  induction entries generalizing catalog with
  | nil =>
    cases mounted
    exact ⟨nofun, nodup_nil, .refl _, rfl⟩
  | cons entry rest ih =>
    rw [foldlM_cons, bind_ok] at mounted
    rcases mounted with ⟨middle, first, others⟩
    rcases mountEntry_eq_ok first with ⟨valid, parent, notRoot, target, absent, rfl, _⟩
    rcases ih others with ⟨fresh, unique, perm, same⟩
    have before : ∀ other ∈ rest, other.1 ≠ entry.1 ∧ catalog.entries.get? other.1 = none :=
      fun other mem => get?_insert_eq_none_iff.mp (fresh other mem).absent
    refine ⟨?_, ?_, ?_, same⟩
    · rw [forall_mem_cons]
      refine ⟨⟨valid, parent, notRoot, target, absent⟩, fun other mem => ?_⟩
      have later := fresh other mem
      exact { later with absent := (before other mem).2 }
    · rw [map_cons, nodup_cons]
      refine ⟨?_, unique⟩
      intro again
      rcases mem_map.mp again with ⟨other, mem, sameKey⟩
      exact (before other mem).1 sameKey
    · have moved := (perm_insert_of_get?_eq_none entry.2 absent).append_left rest
      exact (perm.trans moved).trans perm_middle

def edgesOf (entries : List (EntryKey × ℕ)) : List (Edge ℕ Bytes) :=
  entries.map fun entry => entry.1.edge entry.2

theorem exists_foldlM_mountEntry (nameable : ∀ entry ∈ entries, Nameable config catalog entry)
    (unique : (entries.map Prod.fst).Nodup)
    (few : ∀ id, (edgesOf entries ++ catalog.edges).countP (fun edge => edge.target = id) < 2 ^ 32)
    (fewChildren : ∀ id, (edgesOf entries ++ catalog.edges).countP (fun edge => edge.parent = id ∧
      catalog.graph.kind edge.target = some .directory) < 2 ^ 32) :
    ∃ after, entries.foldlM (mountEntry config) catalog = .ok after := by
  induction entries generalizing catalog with
  | nil => exact ⟨catalog, rfl⟩
  | cons entry rest ih =>
    rw [forall_mem_cons] at nameable
    rw [map_cons, nodup_cons] at unique
    have added : (catalog.insertEntry entry.1 entry.2).edges.Perm
        (entry.1.edge entry.2 :: catalog.edges) := perm_edges_add nameable.1.absent rfl
    have total : (edgesOf rest ++ (catalog.insertEntry entry.1 entry.2).edges).Perm
        (edgesOf (entry :: rest) ++ catalog.edges) :=
      (added.append_left _).trans perm_middle
    have part : (catalog.insertEntry entry.1 entry.2).edges.Sublist
        (edgesOf rest ++ (catalog.insertEntry entry.1 entry.2).edges) :=
      sublist_append_right _ _
    have first := mountEntry_of_nameable nameable.1
      (lt_of_le_of_lt (part.countP_le.trans_eq (total.countP_eq _)) (few entry.2))
      (lt_of_le_of_lt (part.countP_le.trans_eq (total.countP_eq _)) (fewChildren entry.1.parent))
    rw [foldlM_cons, first, ok_bind]
    apply ih
    · intro other mem
      have later := nameable.2 other mem
      refine { later with absent := get?_insert_eq_none_iff.mpr ⟨?_, later.absent⟩ }
      intro same
      exact unique.1 (same ▸ mem_map_of_mem mem)
    · exact unique.2
    · exact fun id => total.countP_eq _ ▸ few id
    · exact fun id => total.countP_eq _ ▸ fewChildren id

end Names

section Snapshots

variable {config : NamespaceConfig} {snapshot : CommittedNamespaceSnapshot} {named : Catalog}

theorem object?_eq_some_iff (distinct : (snapshot.objects.map Prod.fst).Nodup) {id : ℕ} :
    snapshot.object? id = some inode ↔ (id, inode) ∈ snapshot.objects := by
  rw [object?, map_eq_some_iff]
  constructor
  · rintro ⟨⟨other, stored⟩, found, rfl⟩
    have same : other = id := by simpa using find?_some found
    exact same ▸ mem_of_find?_eq_some found
  · intro mem
    cases found : snapshot.objects.find? fun object => object.1 = id with
    | none =>
      have missed := find?_eq_none.mp found _ mem
      simp at missed
    | some object =>
      have same : object.1 = id := by simpa using find?_some found
      have only := inj_on_of_nodup_map distinct (mem_of_find?_eq_some found) mem same
      exact ⟨object, rfl, only ▸ rfl⟩

/-- The root and the objects of a snapshot, in another order. -/
def Holds (snapshot : CommittedNamespaceSnapshot) (named : Catalog) : Prop :=
  named.inodes.pairs.Perm (snapshot.objects ++ [(ROOT_INODE, snapshot.root)])

namespace Holds

variable (holds : Holds snapshot named)
include holds

theorem get?_eq_some_iff {id : ℕ} : named.inodes.get? id = some inode ↔
    (id, inode) ∈ snapshot.objects ∨ id = ROOT_INODE ∧ inode = snapshot.root := by
  rw [← mem_pairs_iff, mem_iff holds, mem_append, mem_singleton, Prod.mk.injEq]

theorem keys_nodup : ((snapshot.objects.map Prod.fst) ++ [ROOT_INODE]).Nodup := by
  have keys := map Prod.fst holds
  rw [map_append] at keys
  exact keys.nodup_iff.mp named.inodes.keys_nodup

theorem not_mem_root {inode : Inode} : (ROOT_INODE, inode) ∉ snapshot.objects := by
  intro mem
  have keys := nodup_append.mp holds.keys_nodup
  exact keys.2.2 _ (mem_map_of_mem mem) _ mem_cons_self rfl

theorem kind : named.graph.kind = snapshot.graph.kind := by
  funext id
  change (named.inodes.get? id).map Inode.nodeKind =
    if id = ROOT_INODE then some .directory else (snapshot.object? id).map Inode.nodeKind
  split
  · rename_i isRoot
    rw [holds.get?_eq_some_iff.mpr (.inr ⟨isRoot, rfl⟩)]
    rfl
  · rename_i notRoot
    have same : named.inodes.get? id = snapshot.object? id := by
      apply Option.ext
      intro inode
      rw [holds.get?_eq_some_iff, object?_eq_some_iff (nodup_append.mp holds.keys_nodup).1]
      simp [notRoot]
    rw [same]

theorem childDirectories (same : named.edges.Perm snapshot.graph.edges) (id : ℕ) :
    named.graph.childDirectories id = snapshot.graph.childDirectories id := by
  rw [LinkGraph.childDirectories, holds.kind]
  exact same.countP_eq _

end Holds

theorem incoming_of_perm (same : named.edges.Perm snapshot.graph.edges) (id : ℕ) :
    named.graph.incoming id = snapshot.graph.incoming id :=
  same.countP_eq _

theorem wellFormed_of_fromCommitted {catalog : Catalog}
    (mounted : fromCommitted config snapshot = .ok catalog) :
    0 < config.maximumNameBytes ∧ snapshot.WellFormed config ∧
      2 + snapshot.graph.childDirectories ROOT_INODE < 2 ^ 32 := by
  rcases fromCommitted_eq_ok mounted with ⟨named, found, accepted, _, configured, placed, entered⟩
  rcases foldlM_mountObject_eq_ok placed with ⟨fresh, distinct, objects⟩
  rcases foldlM_mountEntry_eq_ok entered with ⟨nameable, unique, entries, _⟩
  have holds : Holds snapshot named := objects
  have edges : named.edges.Perm snapshot.graph.edges :=
    map _ (entries.trans (of_eq (append_nil _)))
  have present : ∀ object ∈ snapshot.objects, named.inodes.get? object.1 = some object.2 :=
    fun object mem => holds.get?_eq_some_iff.mpr (.inl mem)
  have notRoot : ∀ object ∈ snapshot.objects, object.1 ≠ ROOT_INODE := by
    intro object mem isRoot
    exact @Holds.not_mem_root _ _ holds object.2 (isRoot ▸ mem)
  refine ⟨configured, ?_, holds.childDirectories edges ROOT_INODE ▸ accepted.rootLinks⟩
  constructor
  case names => exact fun entry mem => (nameable entry mem).name
  case unique => exact unique
  case distinct => exact distinct
  case numbers => exact fun object mem => ⟨notRoot object mem, (fresh object mem).1⟩
  case parents => exact fun entry mem => holds.kind ▸ (nameable entry mem).parent
  case targets =>
    intro entry mem
    rcases ne_none_iff_exists'.mp (nameable entry mem).target with ⟨inode, stored⟩
    rcases holds.get?_eq_some_iff.mp stored with listed | ⟨isRoot, _⟩
    · exact ⟨_, listed, rfl⟩
    · exact absurd isRoot (nameable entry mem).notRoot
  case directories =>
    intro object mem directory
    have counted := mountLinks_directory (accepted.links _ _ (present object mem))
      (notRoot object mem) directory
    rw [← incoming_of_perm edges, ← holds.childDirectories edges]
    exact ⟨counted.1, counted.2.1⟩
  case leaves =>
    intro object mem leaf
    have counted := mountLinks_leaf (accepted.links _ _ (present object mem))
      (notRoot object mem) leaf
    rw [← incoming_of_perm edges]
    exact ⟨counted.2, counted.1⟩
  case reachable =>
    intro object mem
    refine (accepted.connected.reachable object.1 ?_).mono edges.subset
    rw [present object mem]
    exact some_ne_none _

section

variable (wellFormed : snapshot.WellFormed config)
  (counted : ∀ object ∈ snapshot.objects, object.2.linkCount < 2 ^ 32)

include wellFormed counted

theorem incoming_lt (id : ℕ) : snapshot.graph.incoming id < 2 ^ 32 := by
  by_cases none : snapshot.graph.incoming id = 0
  · rw [none]
    decide
  · rw [incoming_eq_zero_iff] at none
    push Not at none
    rcases none with ⟨edge, mem, rfl⟩
    rcases mem_map.mp mem with ⟨entry, named, rfl⟩
    rcases wellFormed.targets entry named with ⟨object, listed, same⟩
    change snapshot.graph.incoming entry.2 < 2 ^ 32
    rw [← same]
    by_cases directory : object.2.kind = .directory
    · rw [(wellFormed.directories object listed directory).1]
      decide
    · exact (wellFormed.leaves object listed directory).1 ▸ counted object listed

theorem childDirectories_lt (rootFits : 2 + snapshot.graph.childDirectories ROOT_INODE < 2 ^ 32)
    (id : ℕ) : snapshot.graph.childDirectories id < 2 ^ 32 := by
  by_cases none : snapshot.graph.childDirectories id = 0
  · rw [none]
    decide
  · rw [childDirectories_eq_zero_iff] at none
    push Not at none
    rcases none with ⟨edge, mem, rfl, _⟩
    rcases mem_map.mp mem with ⟨entry, named, rfl⟩
    change snapshot.graph.childDirectories entry.1.parent < 2 ^ 32
    by_cases isRoot : entry.1.parent = ROOT_INODE
    · rw [isRoot]
      omega
    · -- A parent other than the root is a listed directory.
      have directory := wellFormed.parents entry named
      rw [CommittedNamespaceSnapshot.graph] at directory
      simp only [if_neg isRoot, map_eq_some_iff] at directory
      rcases directory with ⟨inode, found, kind⟩
      have listed := (object?_eq_some_iff wellFormed.distinct).mp found
      have isDirectory : inode.kind = .directory := by
        rw [Inode.nodeKind] at kind
        split at kind
        · assumption
        · cases kind
      have links := (wellFormed.directories _ listed isDirectory).2
      have small := counted _ listed
      simp only at links small
      omega

end

theorem Connected.search (connected : Connected config snapshot named) :
    ∃ found, named.withRootLinks.reachableInodes = .ok found ∧
      found.length = named.inodes.pairs.length - 1 := by
  have sameEdges : named.withRootLinks.graph.edges = named.edges := edges_withRootLinks
  have targets : ∀ edge ∈ named.withRootLinks.graph.edges,
      edge.target ≠ ROOT_INODE ∧ named.withRootLinks.inodes.get? edge.target ≠ none := by
    intro edge mem
    rw [sameEdges] at mem
    exact ⟨(connected.edge mem).2.1, get?_withRootLinks_ne_none.mpr (connected.edge mem).2.2⟩
  have searched := @LinkGraph.Forest.search_root _ _ _
    (named.withRootLinks.inodes.pairs.map Prod.fst) _ _ _ connected.forest connected.attached
    fun edge mem => mem_keys_iff.mpr (targets edge mem).2
  rw [length_map] at searched
  rcases searched with ⟨found, searched, nodup, found_iff⟩
  have root : named.withRootLinks.inodes.get? ROOT_INODE ≠ none := by
    rw [get?_withRootLinks_ne_none, connected.objects.root]
    exact some_ne_none _
  have everything : found.Perm named.withRootLinks.others := by
    have distinct : named.withRootLinks.others.Nodup := keys_nodup _
    rw [perm_ext_iff_of_nodup nodup distinct]
    intro id
    rw [found_iff, mem_others]
    constructor
    · rintro ⟨edge, mem, rfl⟩
      exact targets edge mem
    · rintro ⟨notRoot, present⟩
      rw [get?_withRootLinks_ne_none] at present
      rw [sameEdges]
      cases connected.reachable id present with
      | start => exact absurd rfl notRoot
      | step mem _ => exact ⟨_, mem, rfl⟩
  refine ⟨found, reachableInodes_ok.mpr searched, ?_⟩
  rw [everything.length_eq, length_others root, withRootLinks, length_update]

theorem exists_fromCommitted (configured : 0 < config.maximumNameBytes)
    (wellFormed : snapshot.WellFormed config)
    (rootFits : 2 + snapshot.graph.childDirectories ROOT_INODE < 2 ^ 32)
    (counted : ∀ object ∈ snapshot.objects, object.2.linkCount < 2 ^ 32) :
    ∃ catalog, fromCommitted config snapshot = .ok catalog := by
  have fresh : ∀ object ∈ snapshot.objects, object.1 < snapshot.nextInode ∧
      (SortedMap.empty.insert ROOT_INODE snapshot.root).get? object.1 = none := by
    intro object mem
    have numbered := wellFormed.numbers object mem
    exact ⟨numbered.2, get?_insert_eq_none_iff.mpr ⟨numbered.1, rfl⟩⟩
  rcases exists_foldlM_mountObject fresh wellFormed.distinct with ⟨inodes, placed⟩
  have bare : Holds snapshot (nameless snapshot inodes) := (foldlM_mountObject_eq_ok placed).2.2
  have nameable : ∀ entry ∈ snapshot.entries, Nameable config (nameless snapshot inodes) entry := by
    intro entry mem
    rcases wellFormed.targets entry mem with ⟨object, listed, same⟩
    constructor
    case name => exact wellFormed.names entry mem
    case parent => exact bare.kind ▸ wellFormed.parents entry mem
    case notRoot => exact same ▸ (wellFormed.numbers object listed).1
    case target =>
      rw [← same, bare.get?_eq_some_iff.mpr (.inl listed)]
      exact some_ne_none _
    case absent => rfl
  have entered := exists_foldlM_mountEntry nameable wellFormed.unique (fun id => by
      change (snapshot.graph.edges ++ []).countP _ < 2 ^ 32
      rw [append_nil]
      exact incoming_lt wellFormed counted id)
    (fun id => by
      change (snapshot.graph.edges ++ []).countP _ < 2 ^ 32
      rw [append_nil, bare.kind]
      exact childDirectories_lt wellFormed counted rootFits id)
  rcases entered with ⟨named, entered⟩
  rcases foldlM_mountEntry_eq_ok entered with ⟨_, _, entries, same⟩
  have edges : named.edges.Perm snapshot.graph.edges :=
    map _ (entries.trans (of_eq (append_nil _)))
  subst same
  have holds : Holds snapshot named := bare
  have links : ∀ id inode, named.inodes.get? id = some inode →
      named.mountLinks (id, inode) = .ok () := by
    intro id inode present
    rw [mountLinks]
    split
    · rfl
    · rename_i notRoot
      rcases holds.get?_eq_some_iff.mp present with listed | ⟨isRoot, _⟩
      · rw [holds.childDirectories edges, incoming_of_perm edges]
        have small := counted _ listed
        split
        · rename_i directory
          have known := wellFormed.directories _ listed directory
          simp only at known small
          simp only [bind_ok, refuse_ok, not_or, not_not]
          exact ⟨(), by omega, known⟩
        · rename_i leaf
          have known := wellFormed.leaves _ listed leaf
          rw [refuse_ok, not_or, not_not]
          exact ⟨known.2, known.1⟩
      · exact absurd isRoot notRoot
  have connected : Connected config snapshot named := by
    refine ⟨objects_of_foldlM placed, naming_of_foldlM rfl entered, links, ?_⟩
    intro id present
    rcases ne_none_iff_exists'.mp present with ⟨inode, stored⟩
    rcases holds.get?_eq_some_iff.mp stored with listed | ⟨isRoot, _⟩
    · exact (wellFormed.reachable _ listed).mono edges.symm.subset
    · exact isRoot ▸ .start
  rcases connected.search with ⟨found, searched, all⟩
  refine ⟨named.withRootLinks, ?_⟩
  simp only [fromCommitted, refuse_ok, assertThat_ok, bind_ok, pure_ok, forM_ok]
  refine ⟨(), configured, named.inodes, placed, named, entered, (), ?_, (), ?_, found, searched, (),
    not_not.mpr all, rfl⟩
  · exact fun object mem => links object.1 object.2 (mem_pairs_iff.mp mem)
  · rw [holds.childDirectories edges]
    omega

/-- The walk ends for every snapshot whose names have been taken in, also for one with cycles. -/
theorem walkDirectories_ne_none {inodes : SortedMap ℕ Inode}
    (entered : snapshot.entries.foldlM (mountEntry config) (nameless snapshot inodes) =
      .ok named) :
    named.withRootLinks.walkDirectories (named.withRootLinks.inodes.pairs.length + 1) ≠ none := by
  have naming := naming_of_foldlM rfl entered
  refine @search_ne_none _ _ _ _ _ _ (named.withRootLinks.inodes.pairs.map Prod.fst) _ ?_
    nodup_nil (fun _ mem => absurd mem not_mem_nil) ?_
  · intro parent child mem
    rcases mem_children.mp mem with ⟨edge, listed, _, rfl⟩
    rcases exists_of_mem_edges listed with ⟨key, target, rfl, entry⟩
    have known := naming.targets key target (entries_update named _ _ ▸ entry)
    exact mem_keys_iff.mpr (get?_withRootLinks_ne_none.mpr known.2)
  · rw [length_map, length_nil, length_singleton]
    omega

/-- A snapshot is mounted exactly when it is a tree with the right link counts whose root count
fits. The link counts of a snapshot are 32-bit numbers. -/
theorem fromCommitted_ok_iff_wellFormed (config : NamespaceConfig)
    (snapshot : CommittedNamespaceSnapshot)
    (counted : ∀ object ∈ snapshot.objects, object.2.linkCount < 2 ^ 32) :
    ((∃ catalog, fromCommitted config snapshot = .ok catalog) ↔
      0 < config.maximumNameBytes ∧ snapshot.WellFormed config ∧
        2 + snapshot.graph.childDirectories ROOT_INODE < 2 ^ 32) ∧
    ∀ inodes named,
      snapshot.entries.foldlM (mountEntry config) (nameless snapshot inodes) = .ok named →
      named.withRootLinks.walkDirectories (named.withRootLinks.inodes.pairs.length + 1) ≠ none := by
  refine ⟨⟨?_, ?_⟩, fun inodes named entered => walkDirectories_ne_none entered⟩
  · rintro ⟨catalog, mounted⟩
    exact wellFormed_of_fromCommitted mounted
  · rintro ⟨configured, wellFormed, rootFits⟩
    exact exists_fromCommitted configured wellFormed rootFits counted

end Snapshots

section Wide

/-- A root with as many empty directories as asked for. -/
def wideSnapshot (name : ℕ → Bytes) (count : ℕ) : CommittedNamespaceSnapshot where
  nextInode := 2 ^ 33
  inodeReservationEnd := 2 ^ 34
  namespaceMutationSequence := 0
  rootMode := 0o755
  rootUid := 0
  rootGid := 0
  rootMetadata := .default
  rootTimes := newTimes ⟨0, 0⟩
  inodes := []
  directories := (List.range count).map fun index =>
    { inode := index + 2
      mode := 0o755
      uid := 0
      gid := 0
      linkCount := 2
      mutationSequence := 0
      metadata := .default
      times := newTimes ⟨0, 0⟩ }
  symlinks := []
  entries := (List.range count).map fun index => (⟨ROOT_INODE, name index⟩, index + 2)
  root_lt := by decide
  ordered := by decide

def wideConfig : NamespaceConfig where
  maximumNameBytes := 255
  maximumFileBytes := 2 ^ 63

/-- Two directories, a file with a name in each of them, and a symbolic link. -/
def linkedSnapshot : CommittedNamespaceSnapshot :=
  { wideSnapshot (fun index => [UInt8.ofNat (0x61 + index)]) 2 with
    inodes :=
      [{ inode := 4, mode := 0o644, uid := 0, gid := 0, linkCount := 2, mutationSequence := 1
         metadata := .default, times := newTimes ⟨0, 0⟩, cells := newFile.cells }]
    symlinks :=
      [{ inode := 5, uid := 0, gid := 0, linkCount := 1, mutationSequence := 1
         times := newTimes ⟨0, 0⟩, target := [0x61] }]
    entries := [(⟨ROOT_INODE, [0x61]⟩, 2), (⟨ROOT_INODE, [0x62]⟩, 3), (⟨2, [0x66]⟩, 4),
      (⟨3, [0x66]⟩, 4), (⟨3, [0x73]⟩, 5)] }

/-- A snapshot with hard links is mounted. -/
theorem fromCommitted_ok_iff_wellFormed_of_links :
    linkedSnapshot.WellFormed wideConfig ∧ ∀ inodes named,
      linkedSnapshot.entries.foldlM (mountEntry wideConfig) (nameless linkedSnapshot inodes) =
        .ok named →
      named.withRootLinks.walkDirectories (named.withRootLinks.inodes.pairs.length + 1) ≠ none :=
  have holds := fromCommitted_ok_iff_wellFormed wideConfig linkedSnapshot (by decide)
  ⟨(holds.1.mp ⟨_, rfl⟩).2.1, holds.2⟩

variable {name : ℕ → Bytes} {count : ℕ}

theorem mem_objects_wide (mem : object ∈ (wideSnapshot name count).objects) :
    ∃ index < count, object.1 = index + 2 ∧ object.2.kind = .directory ∧
      object.2.linkCount = 2 := by
  simp only [objects, wideSnapshot, List.map_nil, List.nil_append,
    List.append_nil, List.map_map, List.mem_map, List.mem_range] at mem
  rcases mem with ⟨index, below, rfl⟩
  exact ⟨index, below, rfl, rfl, rfl⟩

theorem keys_wide :
    (wideSnapshot name count).objects.map Prod.fst = (List.range count).map (· + 2) := by
  simp only [objects, wideSnapshot, List.map_nil, List.nil_append,
    List.append_nil, List.map_map]
  rfl

theorem edges_wide : (wideSnapshot name count).graph.edges =
    (List.range count).map fun index => ⟨ROOT_INODE, name index, index + 2⟩ := by
  simp only [CommittedNamespaceSnapshot.graph, wideSnapshot, List.map_map]
  rfl

theorem distinct_wide : ((wideSnapshot name count).objects.map Prod.fst).Nodup := by
  rw [keys_wide]
  exact nodup_range.map (add_left_injective 2)

theorem kind_wide {index : ℕ} (below : index < count) :
    (wideSnapshot name count).graph.kind (index + 2) = some .directory := by
  have listed : index + 2 ∈ (wideSnapshot name count).objects.map Prod.fst := by
    rw [keys_wide]
    exact mem_map.mpr ⟨index, mem_range.mpr below, rfl⟩
  rcases mem_map.mp listed with ⟨⟨id, inode⟩, mem, same⟩
  rcases mem_objects_wide mem with ⟨_, _, _, directory, _⟩
  subst same
  have notRoot : index + 2 ≠ ROOT_INODE := by
    rw [ROOT_INODE]
    omega
  simp only [CommittedNamespaceSnapshot.graph, if_neg notRoot]
  rw [(object?_eq_some_iff distinct_wide).mpr mem, map_some, Inode.nodeKind, if_pos directory]

theorem childDirectories_wide_root :
    (wideSnapshot name count).graph.childDirectories ROOT_INODE = count := by
  rw [childDirectories, edges_wide, countP_map, countP_eq_length.mpr, length_range]
  intro index mem
  simpa using kind_wide (mem_range.mp mem)

theorem wellFormed_wide
    (valid : ∀ index < count, validateComponent wideConfig (name index) = .ok ())
    (ne : ∀ left < count, ∀ right < count, name left = name right → left = right)
    (small : count ≤ 2 ^ 32) : (wideSnapshot name count).WellFormed wideConfig := by
  have entry_of_mem : ∀ entry ∈ (wideSnapshot name count).entries,
      ∃ index < count, entry = (⟨ROOT_INODE, name index⟩, index + 2) := by
    intro entry mem
    rcases mem_map.mp mem with ⟨index, below, rfl⟩
    exact ⟨index, mem_range.mp below, rfl⟩
  constructor
  case names =>
    intro entry mem
    rcases entry_of_mem entry mem with ⟨index, below, rfl⟩
    exact valid index below
  case unique =>
    simp only [wideSnapshot, List.map_map]
    refine List.Nodup.map_on (fun left leftMem right rightMem same => ?_) List.nodup_range
    exact ne left (List.mem_range.mp leftMem) right (List.mem_range.mp rightMem)
      (congrArg EntryKey.name same)
  case distinct => exact distinct_wide
  case numbers =>
    intro object mem
    rcases mem_objects_wide mem with ⟨index, below, number, _⟩
    change object.1 ≠ 1 ∧ object.1 < 2 ^ 33
    omega
  case parents =>
    intro entry mem
    rcases entry_of_mem entry mem with ⟨index, _, rfl⟩
    rfl
  case targets =>
    intro entry mem
    rcases entry_of_mem entry mem with ⟨index, below, rfl⟩
    refine mem_map.mp ?_
    rw [keys_wide]
    exact mem_map.mpr ⟨index, mem_range.mpr below, rfl⟩
  case directories =>
    intro object mem _
    rcases mem_objects_wide mem with ⟨index, below, number, _, links⟩
    rw [number, links, incoming, childDirectories, edges_wide, countP_map,
      countP_map]
    constructor
    · have once := count_eq_one_of_mem nodup_range (mem_range.mpr below)
      rw [← once, List.count]
      exact countP_congr fun other _ => by simp
    · simp [ROOT_INODE]
  case leaves =>
    intro object mem leaf
    rcases mem_objects_wide mem with ⟨_, _, _, directory, _⟩
    exact absurd directory leaf
  case reachable =>
    intro object mem
    rcases mem_objects_wide mem with ⟨index, below, number, _⟩
    rw [number, edges_wide]
    exact .step (mem_map.mpr ⟨index, mem_range.mpr below, rfl⟩) .start

theorem validateComponent_of_letters {letters : Bytes} (empty : letters ≠ [])
    (short : letters.length ≤ 255) (high : ∀ byte ∈ letters, 0x30 ≤ byte) :
    validateComponent wideConfig letters = .ok () := by
  have notIn : ∀ byte : UInt8, byte < 0x30 → byte ∉ letters := fun byte low mem =>
    absurd (high byte mem) (UInt8.not_le.mpr low)
  simp only [validateComponent, bind_ok, refuse_ok]
  refine ⟨(), not_lt.mpr short, ?_⟩
  rintro (nothing | dot | dots | slash | zero)
  · exact empty nothing
  · exact notIn 0x2e (by decide) (dot ▸ mem_cons_self)
  · exact notIn 0x2e (by decide) (dots ▸ mem_cons_self)
  · exact notIn 0x2f (by decide) slash
  · exact notIn 0 (by decide) zero

/-- A name for each number, its binary digits. -/
def binaryName (index : ℕ) : Bytes :=
  (List.range 32).map fun bit => if index.testBit bit then 0x31 else 0x30

theorem binaryName_inj {left right : ℕ} (leftLt : left < 2 ^ 32) (rightLt : right < 2 ^ 32)
    (same : binaryName left = binaryName right) : left = right := by
  refine eq_of_testBit_eq fun bit => ?_
  by_cases low : bit < 32
  · have digit := map_inj_left.mp same bit (mem_range.mpr low)
    split at digit <;> split at digit <;> simp_all
  · have wide : 2 ^ 32 ≤ 2 ^ bit := Nat.pow_le_pow_right (by decide) (Nat.le_of_not_lt low)
    rw [testBit_lt_two_pow (leftLt.trans_le wide), testBit_lt_two_pow (rightLt.trans_le wide)]

theorem validateComponent_binaryName (index : ℕ) :
    validateComponent wideConfig (binaryName index) = .ok () := by
  have long : (binaryName index).length =
    32 := by rw [binaryName, length_map, length_range]
  apply validateComponent_of_letters
  · rintro empty
    rw [empty] at long
    cases long
  · rw [long]
    decide
  · intro byte mem
    rcases mem_map.mp mem with ⟨bit, _, rfl⟩
    split <;> decide

/-- A tree whose root has `2 ^ 32 - 2` child directories is not mounted. -/
theorem wide_root_refused :
    (wideSnapshot binaryName (2 ^ 32 - 2)).WellFormed wideConfig ∧
      ¬ ∃ catalog, fromCommitted wideConfig (wideSnapshot binaryName (2 ^ 32 - 2)) =
        .ok catalog := by
  refine ⟨wellFormed_wide (fun index _ => validateComponent_binaryName index) ?_ (sub_le _ _), ?_⟩
  · exact fun left leftLt right rightLt => binaryName_inj (leftLt.trans_le (sub_le _ _))
      (rightLt.trans_le (sub_le _ _))
  · rintro ⟨catalog, mounted⟩
    have fits := (wellFormed_of_fromCommitted mounted).2.2
    rw [childDirectories_wide_root] at fits
    omega

end Wide

end Catalog

end Fastdup.Posix
