import Fastdup.Posix.Namespace.Commit
import Fastdup.Posix.Namespace.Evolution
import Fastdup.Posix.Namespace.Mount

/-!
# Sequences of requests

A refused request leaves the catalog as it was, a panic ends the run. From a mounted namespace on,
any sequence of requests keeps a forest. It keeps a tree, and does not panic, as long as no request
gives a name in a directory that has been removed or lists one; a create in such a directory is
accepted, and the next commit then fails its assertions.
-/

namespace Fastdup.Posix.Catalog

open Library Checked Option SortedMap List Inode

/-- A request with the clock and the caller it arrives with. -/
structure Request where
  ambient : Ambient
  context : RequestContext
  operation : Operation

variable (config : NamespaceConfig)

/-- A refused request leaves the catalog as it is, and a panic ends the run. -/
def serve (catalog : Catalog) (request : Request) : Option Catalog :=
  match catalog.dispatch config request.ambient request.context request.operation with
  | .ok after => some after
  | .error (.refused _) => some catalog
  | .error .panicked => none

/-- Requests one after the other. -/
def run (catalog : Catalog) (requests : List Request) : Option Catalog :=
  requests.foldlM (serve config) catalog

/-- A catalog as the mount leaves it: empty, or from a committed snapshot. -/
inductive Mounted : Catalog → Prop where
  | volatile (now : PosixTimestamp) : Mounted (newVolatile now)
  | committed {snapshot : CommittedNamespaceSnapshot} {catalog : Catalog}
      (mounted : fromCommitted config snapshot = .ok catalog) : Mounted catalog

/-- Each request of the run is careful where it is served. -/
def CarefulRun (catalog : Catalog) : List Request → Prop
  | [] => True
  | request :: rest => catalog.Careful request.operation ∧
      ∀ after ∈ catalog.serve config request, CarefulRun after rest

instance decidableCarefulRun :
    (catalog : Catalog) → (requests : List Request) → Decidable (CarefulRun config catalog requests)
  | _, [] => isTrue trivial
  | catalog, request :: rest =>
    have : DecidablePred fun after => CarefulRun config after rest := fun after =>
      decidableCarefulRun after rest
    inferInstanceAs (Decidable (catalog.Careful request.operation ∧
      ∀ after ∈ catalog.serve config request, CarefulRun config after rest))

/-- The names of an inode. -/
def entriesNaming (catalog : Catalog) (id : ℕ) : ℕ :=
  catalog.entries.pairs.countP fun entry => entry.2 = id

def childDirectories (catalog : Catalog) (id : ℕ) : ℕ :=
  catalog.entries.pairs.countP fun entry =>
    entry.1.parent = id ∧ (catalog.inodes.get? entry.2).any (·.kind = .directory)

/-- What can be reached from an inode over directory entries. -/
inductive Below (catalog : Catalog) (start : ℕ) : ℕ → Prop where
  | refl : Below catalog start start
  | step {key : EntryKey} {id : ℕ} (entry : catalog.entries.get? key = some id)
      (parent : Below catalog start key.parent) : Below catalog start id

/-- The directory graph as a whole: parents, link counts and reachability. -/
structure NamespaceGraph (catalog : Catalog) : Prop where
  parents : ∀ key id, catalog.entries.get? key = some id →
    ∃ parent, catalog.inodes.get? key.parent = some parent ∧ parent.kind = .directory ∧
      0 < parent.linkCount
  targets : ∀ key id, catalog.entries.get? key = some id → catalog.inodes.get? id ≠ none
  leaves : ∀ id inode, catalog.inodes.get? id = some inode → inode.kind ≠ .directory →
    0 < inode.linkCount → inode.linkCount = catalog.entriesNaming id
  directories : ∀ id inode, catalog.inodes.get? id = some inode → inode.kind = .directory →
    0 < inode.linkCount → id ≠ ROOT_INODE →
      catalog.entriesNaming id = 1 ∧ inode.linkCount = 2 + catalog.childDirectories id
  reachable : ∀ id inode, catalog.inodes.get? id = some inode → 0 < inode.linkCount →
    catalog.Below ROOT_INODE id
  acyclic : ∀ key id, catalog.entries.get? key = some id → ¬ catalog.Below id key.parent

section Graph

variable {config : NamespaceConfig} {catalog : Catalog} {id : ℕ}

theorem incoming_eq : catalog.graph.incoming id = catalog.entriesNaming id := by
  rw [LinkGraph.incoming, graph, edges, countP_map]
  rfl

theorem childDirectories_eq : catalog.graph.childDirectories id = catalog.childDirectories id := by
  change catalog.edges.countP _ = _
  rw [edges, countP_map]
  apply countP_congr
  intro entry _
  simp only [Function.comp_apply, decide_eq_true_eq, kind_eq_directory_iff]
  cases catalog.inodes.get? entry.2 <;> simp

theorem below_iff {start : ℕ} :
    catalog.Below start id ↔ LinkGraph.Reachable start catalog.edges id := by
  constructor
  · intro below
    induction below with
    | refl => exact .start
    | step entry _ ih => exact .step (mem_edges.mpr entry) ih
  · intro reachable
    induction reachable with
    | start => exact .refl
    | step mem _ ih =>
      rcases exists_of_mem_edges mem with ⟨key, target, rfl, entry⟩
      exact .step entry ih

theorem Tree.namespaceGraph (tree : catalog.Tree True) : catalog.NamespaceGraph := by
  have attached := tree.attached trivial
  constructor
  case parents =>
    intro key id entry
    rcases tree.parent_linked entry with ⟨parent, found, directory, links⟩
    exact ⟨parent, found, directory, by omega⟩
  case targets => exact fun key id entry => tree.get?_ne_none entry
  case leaves =>
    intro id inode found leaf _
    rw [← incoming_eq, tree.names_of_leaf found leaf]
  case directories =>
    intro id inode found directory positive notRoot
    rw [← incoming_eq, ← childDirectories_eq]
    exact tree.names_of_directory found directory (Nat.ne_of_gt positive) notRoot
  case reachable =>
    intro id inode found positive
    rw [below_iff]
    by_cases isRoot : id = ROOT_INODE
    · exact isRoot ▸ .start
    · have linked := mem_linkedInodes.mpr ⟨found, isRoot, Nat.ne_of_gt positive⟩
      rcases tree.named_of_linked linked with ⟨key, entry⟩
      exact tree.forest.reachable attached (mem_edges.mpr entry)
  case acyclic =>
    intro key id entry below
    exact tree.forest.ranked.acyclic (mem_edges.mpr entry) (below_iff.mp below)

end Graph

variable {request : Request} {requests : List Request}

section Runs

variable {config : NamespaceConfig} {catalog after : Catalog} {tidy : Prop}

theorem Accepted.countable {snapshot : CommittedNamespaceSnapshot} {named : Catalog}
    {found : List ℕ}
    (accepted : Accepted config snapshot named found) : named.withRootLinks.Countable := by
  constructor
  case links =>
    intro id inode present
    rw [get?_withRootLinks] at present
    split at present
    · rw [accepted.objects.root] at present
      cases present
      exact accepted.rootLinks
    · rename_i notRoot
      have checked := accepted.links id inode present
      by_cases directory : inode.kind = .directory
      · exact (mountLinks_directory checked notRoot directory).2.2
      · rw [(mountLinks_leaf checked notRoot directory).2]
        exact accepted.naming.bounded id
  case targets =>
    intro id inode present
    rw [get?_withRootLinks] at present
    split at present
    · rw [accepted.objects.root] at present
      cases present
      rintro ⟨⟩
    · exact accepted.objects.targets id inode present

theorem Mounted.tree (mounted : Mounted config catalog) : catalog.Tree True := by
  cases mounted with
  | volatile now => exact tree_newVolatile now
  | committed mounted => exact tree_of_fromCommitted mounted

theorem Mounted.countable (mounted : Mounted config catalog) : catalog.Countable := by
  cases mounted with
  | volatile now =>
    have only : ∀ id inode, (newVolatile now).inodes.get? id = some inode →
      inode = newRoot now := by
      intro id inode present
      rcases get?_insert_eq_some_iff.mp present with ⟨_, same⟩ | ⟨_, old⟩
      · exact same
      · cases old
    constructor
    case links =>
      intro id inode present
      rw [only id inode present]
      change 2 < 2 ^ 32
      decide
    case targets =>
      intro id inode present symlink
      rw [only id inode present] at symlink
      cases symlink
  | committed mounted =>
    rcases fromCommitted_eq_ok mounted with ⟨named, found, accepted, rfl, _⟩
    exact accepted.countable

theorem Evolves.countable (evolves : catalog.Evolves after) (countable : catalog.Countable) :
    after.Countable := by
  constructor
  case links =>
    intro id inode found
    rcases evolves.inodes id inode found with ⟨old, oldPresent, changed⟩ | ⟨_, _, sound⟩
    · exact changed.links (countable.links id old oldPresent)
    · exact sound.links
  case targets =>
    intro id inode found symlink
    rcases evolves.inodes id inode found with ⟨old, oldPresent, changed⟩ | ⟨_, _, sound⟩
    · rw [changed.symlinkTarget]
      exact countable.targets id old oldPresent (changed.kind ▸ symlink)
    · rcases sound.target symlink with ⟨target, isTarget, _⟩
      rw [isTarget]
      exact some_ne_none target

theorem serve_tree (tree : catalog.Tree True) (countable : catalog.Countable)
    (careful : catalog.Careful request.operation) :
    ∃ after, catalog.serve config request = some after ∧ after.Tree True ∧ after.Countable := by
  have runs := @runs_dispatch config request.ambient request.context catalog request.operation
  have refusing := runs.refusing ⟨tree, careful⟩
  unfold serve
  cases dispatched : catalog.dispatch config request.ambient request.context request.operation with
  | ok after =>
    have transition := runs.of_ok dispatched
    exact ⟨after, rfl, transition.tree tree fun _ => careful,
      (transition.evolves tree).countable countable⟩
  | error failure =>
    cases failure with
    | refused error => exact ⟨catalog, rfl, tree, countable⟩
    | panicked => exact absurd dispatched refusing

theorem run_tree (tree : catalog.Tree True) (countable : catalog.Countable)
    (careful : CarefulRun config catalog requests) :
    ∃ after, catalog.run config requests = some after ∧ after.Tree True ∧ after.Countable := by
  induction requests generalizing catalog with
  | nil => exact ⟨catalog, rfl, tree, countable⟩
  | cons request rest ih =>
    rcases serve_tree tree countable careful.1 with ⟨next, served, nextTree, nextCountable⟩
    rcases ih nextTree nextCountable (careful.2 next served) with ⟨after, ran, holds⟩
    refine ⟨after, ?_, holds⟩
    rw [run, foldlM_cons, served]
    exact ran

/-- As long as requests are careful, the names are a tree and nothing panics. -/
theorem namespaceGraph_of_carefulRun {requests : List Request} (mounted : Mounted config catalog)
    (careful : CarefulRun config catalog requests) :
    ∃ after, catalog.run config requests = some after ∧ after.NamespaceGraph ∧
      (∀ memory, Refusing (after.beginCommit memory)) ∧
      ∀ ancestor candidate, after.Linked candidate → ∃ isAncestor,
        after.directoryIsAncestorOrSelf ancestor candidate = .ok isAncestor := by
  rcases run_tree mounted.tree mounted.countable careful with ⟨after, ran, tree, countable⟩
  refine ⟨after, ran, tree.namespaceGraph, ?_, ?_⟩
  · exact fun memory => runs_beginCommit.refusing ⟨tree, countable⟩
  · exact fun ancestor candidate linked => tree.directoryIsAncestorOrSelf_ok linked

/-- A request by the superuser that nothing stands in the way of. -/
def granted (operation : Operation) : Request where
  ambient :=
    { now := ⟨0, 0⟩, capacity := none, quota := none, memory := none, prepared := none
      sameDomain := true, immutabilityAuthority := .empty }
  context := { uid := 0, gid := 0 }
  operation := operation

def createIn (parent : ℕ) (name : Bytes) : Operation :=
  .create
    { parent := parent, name := name, mode := 0o644, umask := 0o022, exclusive := true
      options := { access := .readWrite, append := false }, truncate := false }

/-- A directory with a file is moved below another one, emptied and removed. -/
theorem namespaceGraph_of_create :
    ∃ after, (newVolatile ⟨0, 0⟩).run ⟨255, 2 ^ 40⟩
        [granted (.mkdir ROOT_INODE [0x64] 0o755 0), granted (createIn 2 [0x66]),
          granted (.mkdir ROOT_INODE [0x65] 0o755 0),
          granted (.rename ROOT_INODE [0x64] 4 [0x64] false), granted (.unlink 2 [0x66]),
          granted (.rmdir 4 [0x64])] = some after ∧
      after.NamespaceGraph ∧ (∀ memory, Refusing (after.beginCommit memory)) ∧
      ∀ ancestor candidate, after.Linked candidate → ∃ isAncestor,
        after.directoryIsAncestorOrSelf ancestor candidate = .ok isAncestor :=
  namespaceGraph_of_carefulRun (.volatile _) (by decide)

/-- A file is created in a directory that has been removed but not been forgotten. -/
theorem create_in_removed_directory :
    ∃ after, (newVolatile ⟨0, 0⟩).run ⟨255, 2 ^ 40⟩
        [granted (.mkdir ROOT_INODE [0x64] 0o755 0), granted (.rmdir ROOT_INODE [0x64]),
          granted (createIn 2 [0x66])] = some after ∧
      ¬ after.NamespaceGraph ∧ after.beginCommit none = .error .panicked := by
  refine ⟨_, rfl, ?_, by decide⟩
  intro holds
  rcases holds.parents ⟨2, [0x66]⟩ 3 (by decide) with ⟨parent, present, _, positive⟩
  revert positive
  cases present
  decide

/-- A directory is listed after it has been removed. -/
example :
    (newVolatile ⟨0, 0⟩).run ⟨255, 2 ^ 40⟩
      [granted (.mkdir ROOT_INODE [0x64] 0o755 0), granted (.rmdir ROOT_INODE [0x64]),
        granted (.readDirectory 2 0 false)] = none := by
  decide

end Runs

section Reached

variable {config : NamespaceConfig} {catalog after : Catalog} {tidy : Prop}

/-- The catalogs of the runs after a mount. -/
inductive Reached (config : NamespaceConfig) : Catalog → Prop where
  | mounted {catalog : Catalog} (mounted : Mounted config catalog) : Reached config catalog
  | served {catalog after : Catalog} {request : Request} (reached : Reached config catalog)
      (served : catalog.serve config request = some after) : Reached config after
  | begun {catalog : Catalog} {memory : Option PosixError}
    {result : Catalog × Option NamespaceCommit}
      (reached : Reached config catalog) (begun : catalog.beginCommit memory = .ok result) :
      Reached config result.1
  | completed {catalog after : Catalog} {commit : NamespaceCommit}
    (reached : Reached config catalog)
      (completed : catalog.completeCommit commit = .ok after) : Reached config after

theorem transition_of_serve (served : catalog.serve config request = some after) : after = catalog ∨
      Transition config request.ambient request.context catalog request.operation after := by
  unfold serve at served
  cases dispatched : catalog.dispatch config request.ambient request.context request.operation with
  | ok result =>
    rw [dispatched] at served
    cases served
    exact .inr ((runs_dispatch request.operation).of_ok dispatched)
  | error failure =>
    rw [dispatched] at served
    cases failure with
    | refused error =>
      cases served
      exact .inl rfl
    | panicked => cases served

theorem Inode.freeze_keeps (id : ℕ) (inode : Inode) :
    (inode.freeze id).kind = inode.kind ∧ (inode.freeze id).linkCount = inode.linkCount := by
  unfold Inode.freeze
  split <;> exact ⟨rfl, rfl⟩

variable {commit : NamespaceCommit}

theorem graph_frozen : (catalog.frozen commit).graph = catalog.graph := by
  apply LinkGraph.ext
  · funext id
    simp only [graph, frozen, SortedMap.get?_mapValues, Option.map_map]
    refine Option.map_congr fun inode _ => ?_
    simp [Inode.nodeKind, (Inode.freeze_keeps id inode).1]
  · funext id
    simp only [graph, frozen, get?_mapValues]
    cases catalog.inodes.get? id with
    | none => rfl
    | some inode => exact (Inode.freeze_keeps id inode).2
  · rfl

theorem Tree.frozen (tree : catalog.Tree tidy) : (catalog.frozen commit).Tree tidy := by
  refine tree.of_graph_eq graph_frozen ⟨?_, ?_, tree.held.parents⟩
  · intro handle file opened
    rcases tree.held.handles handle file opened with ⟨inode, found, regular⟩
    refine ⟨inode.freeze file.inode, ?_, ?_⟩
    · rw [Catalog.frozen, get?_mapValues, found, map_some]
    · rw [(Inode.freeze_keeps file.inode inode).1, regular]
  · intro id inode found
    rw [Catalog.frozen, get?_mapValues, map_eq_some_iff] at found
    rcases found with ⟨old, oldPresent, _⟩
    exact tree.held.numbers id old oldPresent

theorem completeCommit_eq_ok (completed : catalog.completeCommit commit = .ok after) :
    catalog.inflightCommit = some commit ∧ after =
      { catalog with committedNamespaceMutationSequence := commit.namespaceMutationSequence,
                     inflightCommit := none } := by
  simp only [completeCommit, assertThat_ok, bind_ok, pure_ok] at completed
  rcases completed with ⟨_, inflight, _, _, _, _, rfl⟩
  exact ⟨inflight, rfl⟩

/-- Requests lead from reached catalogs to reached ones. -/
theorem Reached.run (reached : Reached config catalog)
    (ran : catalog.run config requests = some after) : Reached config after := by
  induction requests generalizing catalog with
  | nil =>
    cases ran
    exact reached
  | cons request rest ih =>
    rw [Catalog.run, foldlM_cons, bind_eq_bind, bind_eq_some_iff] at ran
    rcases ran with ⟨next, served, later⟩
    exact ih (reached.served served) later

theorem Reached.tree (reached : Reached config catalog) : catalog.Tree False := by
  induction reached with
  | mounted mounted => exact ⟨mounted.tree.forest, nofun, mounted.tree.held⟩
  | served _ served tree =>
    rcases transition_of_serve served with rfl | transition
    · exact tree
    · exact transition.tree tree nofun
  | begun _ begun tree =>
    cases runs_beginCommit.of_ok begun with
    | inflight => exact tree
    | clean => exact tree
    | cut => exact tree.frozen
  | completed _ completed tree =>
    rcases completeCommit_eq_ok completed with ⟨_, rfl⟩
    exact tree.of_graph_eq rfl { tree.held with }

/-- One request, or the begin or the end of a commit. -/
def Advances (config : NamespaceConfig) (catalog after : Catalog) : Prop :=
  (∃ request, catalog.serve config request = some after) ∨
    (∃ memory commit, catalog.beginCommit memory = .ok (after, commit)) ∨
    ∃ commit, catalog.completeCommit commit = .ok after

theorem Inode.evolves_freeze (id : ℕ) (inode : Inode) : inode.Evolves id (inode.freeze id) := by
  unfold Inode.freeze
  split
  · rename_i frozen
    refine ⟨rfl, le_rfl, fun fits => fits, rfl, fun sound => { sound with noBytes := ?_ }⟩
    exact fun other => absurd frozen.2.2 other
  · exact .refl inode

theorem Advances.evolves (reached : Reached config catalog)
    (advances : Advances config catalog after) :
    Reached config after ∧ catalog.Evolves after := by
  rcases advances with ⟨request, served⟩ | ⟨memory, commit, begun⟩ | ⟨commit, completed⟩
  · refine ⟨reached.served served, ?_⟩
    rcases transition_of_serve served with rfl | transition
    · exact .refl _
    · exact transition.evolves reached.tree
  · refine ⟨reached.begun begun, ?_⟩
    cases runs_beginCommit.of_ok begun with
    | inflight | clean => exact .refl _
    | cut =>
      refine ⟨le_rfl, rfl, fun id inode found => ?_⟩
      rw [Catalog.frozen, get?_mapValues, map_eq_some_iff] at found
      rcases found with ⟨old, present, rfl⟩
      exact .inl ⟨old, present, Inode.evolves_freeze id old⟩
  · refine ⟨reached.completed completed, ?_⟩
    rcases completeCommit_eq_ok completed with ⟨_, rfl⟩
    exact .of_inodes_eq rfl rfl rfl

theorem leads_of_run {requests : List Request} (ran : catalog.run config requests = some after) :
    Relation.ReflTransGen (Advances config) catalog after := by
  induction requests generalizing catalog with
  | nil =>
    cases ran
    exact .refl
  | cons request rest ih =>
    rw [run, foldlM_cons, Option.bind_eq_bind, bind_eq_some_iff] at ran
    rcases ran with ⟨next, served, ranRest⟩
    exact .head (.inl ⟨request, served⟩) (ih ranRest)

/-- However requests and commits follow each other, an inode keeps its kind and its link target, its
sequence does not fall, and a number that is free is not given out again. -/
theorem inodes_keep_identity (reached : Reached config catalog)
    (leads : Relation.ReflTransGen (Advances config) catalog after) : catalog.Evolves after := by
  have holds : Reached config after ∧ catalog.Evolves after := by
    induction leads with
    | refl => exact ⟨reached, .refl catalog⟩
    | tail _ advances ih =>
      rcases advances.evolves ih.1 with ⟨next, evolves⟩
      exact ⟨next, ih.2.trans evolves⟩
  exact holds.2

/-- The file that was created first is unlinked, closed and forgotten before the cut; the one that
is created behind the cut gets another number. -/
theorem inodes_keep_identity_of_recreate : ∃ freed cut after : Catalog,
    (newVolatile ⟨0, 0⟩).run ⟨255, 2 ^ 40⟩
        [granted (createIn ROOT_INODE [0x66]), granted (.unlink ROOT_INODE [0x66]),
          granted (.release 2 1), granted (.forget 2 1)] = some freed ∧
      freed.inodes.get? 2 = none ∧
      (∃ commit, freed.beginCommit none = .ok (cut, some commit)) ∧
      cut.run ⟨255, 2 ^ 40⟩ [granted (createIn ROOT_INODE [0x66])] = some after ∧
      after.inodes.get? 2 = none ∧ after.inodes.get? 3 ≠ none ∧
      (newVolatile ⟨0, 0⟩).Evolves after := by
  have runs : ∃ freed, (newVolatile ⟨0, 0⟩).run ⟨255, 2 ^ 40⟩
      [granted (createIn ROOT_INODE [0x66]), granted (.unlink ROOT_INODE [0x66]),
        granted (.release 2 1), granted (.forget 2 1)] = some freed ∧
      freed.inodes.get? 2 = none ∧ ∃ cut commit, freed.beginCommit none = .ok (cut, some commit) ∧
      ∃ after, cut.run ⟨255, 2 ^ 40⟩ [granted (createIn ROOT_INODE [0x66])] = some after ∧
        after.inodes.get? 2 = none ∧ after.inodes.get? 3 ≠ none :=
    ⟨_, rfl, by decide, _, _, rfl, _, rfl, by decide, by decide⟩
  rcases runs with ⟨freed, ran, gone, cut, commit, begun, after, ranBehind, free, created⟩
  refine ⟨freed, cut, after, ran, gone, ⟨commit, begun⟩, ranBehind, free, created, ?_⟩
  exact inodes_keep_identity (.mounted (.volatile _))
    (((leads_of_run ran).tail (.inr (.inl ⟨none, _, begun⟩))).trans (leads_of_run ranBehind))

/-- In every state that requests and commits lead to, careful or not, what is named is there, no
directory is below itself, the links of a file are its names, and handles refer to files. -/
theorem names_exact_of_reached (reached : Reached config catalog) :
    (∀ key id, catalog.entries.get? key = some id →
      catalog.inodes.get? id ≠ none ∧ ¬ catalog.Below id key.parent) ∧
    (∀ id inode, catalog.inodes.get? id = some inode → id < catalog.nextInode ∧
      (inode.kind ≠ .directory → inode.linkCount = catalog.entriesNaming id)) ∧
    ∀ handle file, catalog.handles.get? handle = some file →
      ∃ inode, catalog.inodes.get? file.inode = some inode ∧ inode.kind = .regular := by
  have tree := reached.tree
  refine ⟨fun key id entry => ⟨?_, fun below => ?_⟩,
    fun id inode found => ⟨tree.held.numbers id inode found, fun leaf => ?_⟩, tree.held.handles⟩
  · exact fun absent => tree.forest.targets _ (mem_edges.mpr entry) (kind_eq_none_iff.mpr absent)
  · exact tree.forest.ranked.acyclic (mem_edges.mpr entry) (below_iff.mp below)
  · rw [← incoming_eq, ← links_of_get? found]
    exact tree.forest.leafLinks id (kind_eq_leaf_iff.mpr ⟨inode, found, leaf⟩)

/-- A file in a removed directory. -/
theorem names_exact_of_careless_create : ∃ after : Catalog, after.inodes.get? 3 ≠ none ∧
    ∀ key id, after.entries.get? key = some id →
      after.inodes.get? id ≠ none ∧ ¬ after.Below id key.parent := by
  have made : ((newVolatile ⟨0, 0⟩).run ⟨255, 2 ^ 40⟩
    [granted (.mkdir ROOT_INODE [0x64] 0o755 0), granted (.rmdir ROOT_INODE [0x64]),
      granted (createIn 2 [0x66])]).any fun after => after.inodes.get? 3 ≠ none := by decide
  rcases any_eq_true_iff_get _ _ |>.mp made with ⟨ran, present⟩
  exact ⟨_, of_decide_eq_true present, (names_exact_of_reached
    (.run (.mounted (.volatile _)) (some_get ran).symm)).1⟩

end Reached

end Fastdup.Posix.Catalog
