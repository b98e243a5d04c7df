import Fastdup.Format.Commit
import Fastdup.Store.ManifestTree.Resize

/-!
# Manifest tree edits refine edits of flat byte sequences

The meaning of a tree is the sequence of its byte sources. An edit that returns a tree has
edited this sequence as its name says, its summary is exact, and a full walk accepts the new
root once the returned objects are published. The walk needs nothing but the returned objects
and the nodes of the edited tree: the proofs of the single edits run over the nodes reachable
from the old root.

Identities stand for BLAKE3 hashes of encoded nodes. A reader is `Authentic`: it returns a node
only under the node's own identity. Of collisions only those are excluded that the edit could
meet, between two nodes that it encodes or that the old tree has.
-/

namespace Fastdup.Store

open Library Checked Format List

variable {ObjectId : Type}

/-- A full walk that returns the extents of the tree with its summary. -/
def scanExtents (read : NodeReader ObjectId) (root : ObjectId) :
    Except (ManifestTreeError ObjectId) (ManifestTreeSummary ObjectId × List ManifestExtent) :=
  scanManifestTree root read (fun found _ extent => .ok (found ++ [extent])) []

/-- The node is read on the way down from the root. -/
inductive Reachable (read : NodeReader ObjectId) (root : ObjectId) : ObjectId → Prop where
  | root : Reachable read root root
  | child {parent : ObjectId} {node : ManifestInnerNode ObjectId}
      {range : ManifestChildRange ObjectId} (reached : Reachable read root parent)
      (readable : read parent = .ok (.inner node)) (member : range ∈ node.children) :
      Reachable read root range.child

variable {read : NodeReader ObjectId} {root objectId : ObjectId}
  {extents replacement : List ManifestExtent} {node : ManifestNode ObjectId}
  {subtree : ObjectId → List ManifestExtent → Prop} {references : List (NodeRef ObjectId)}
  {level logicalSize : ℕ}

theorem scanExtents_ok {summary : ManifestTreeSummary ObjectId} :
    scanExtents read root = .ok (summary, extents) ↔
      ∃ level, level ≤ MAX_TREE_LEVEL ∧ Subtree read level root extents ∧
        summary = { root, logicalSize := totalLength extents,
                    allocatedBytes := extentAllocation extents } := by
  simp only [scanExtents, scanManifestTree_ok, visitAll_collect, nil_append,
    map_snd_placed, Except.ok.injEq]
  constructor
  · intro scanned
    rcases scanned with ⟨level, _, low, subtree, summarized, rfl⟩
    exact ⟨level, low, subtree, summarized⟩
  · intro tree
    rcases tree with ⟨level, low, subtree, summarized⟩
    exact ⟨level, extents, low, subtree, summarized, rfl⟩

/-- The nodes of a reader under some of its identities. -/
def Kept (read : NodeReader ObjectId) (old : ObjectId → Prop) : Nodes ObjectId :=
  fun objectId node => old objectId ∧ read objectId = .ok node

theorem Kept.found (read : NodeReader ObjectId) (old : ObjectId → Prop) :
    Extends (Kept read old) (Found read) :=
  fun _ _ => And.right

theorem Forest.refers_of_mem (forest : Forest subtree references extents)
    {reference : NodeRef ObjectId} (mem : reference ∈ references) :
    ∃ piece, Refers subtree reference piece := by
  induction forest with
  | nil => cases mem
  | cons refers following ih =>
    rcases mem_cons.mp mem with rfl | behind
    · exact ⟨_, refers⟩
    · exact ih behind

theorem Forest.restrict {kept : ObjectId → List ManifestExtent → Prop}
    (forest : Forest subtree references extents) (implies : ∀ reference ∈ references, ∀ piece,
      subtree reference.objectId piece → kept reference.objectId piece) :
    Forest kept references extents := by
  induction forest with
  | nil => exact nil
  | cons refers following ih =>
    refine cons ⟨refers.length, refers.allocation, ?_⟩ (ih ?_)
    · exact implies _ mem_cons_self _ refers.stands
    · intro reference mem
      exact implies reference (mem_cons_of_mem _ mem)

theorem TreeOf.restrict_reachable (reached : Reachable read root objectId)
    (subtree : Subtree read level objectId extents) :
    TreeOf (Kept read (Reachable read root)) level objectId extents := by
  induction level generalizing objectId extents with
  | zero =>
    rcases subtree with ⟨leaf, readable, held⟩
    exact ⟨leaf, ⟨reached, readable⟩, held⟩
  | succ level ih =>
    rcases subtree with ⟨node, readable, atLevel, forest⟩
    refine ⟨node, ⟨reached, readable⟩, atLevel, forest.restrict ?_⟩
    intro reference mem piece stands
    rcases mem_map.mp mem with ⟨child, childMem, rfl⟩
    exact ih (reached.child readable childMem) stands

/-- Every node that is reached from the root of a tree roots a subtree itself. -/
theorem TreeOf.of_reachable {nodes : Nodes ObjectId} (extension : Extends nodes (Found read))
    (subtree : TreeOf nodes level root extents) (reached : Reachable read root objectId) :
    ∃ below piece, TreeOf nodes below objectId piece := by
  induction reached with
  | root => exact ⟨level, extents, subtree⟩
  | child parentReached readable mem ih =>
    rcases ih with ⟨parentLevel, parentExtents, parentSubtree⟩
    cases parentLevel with
    | zero =>
      rcases parentSubtree with ⟨leaf, leafRead, _⟩
      cases (extension _ _ leafRead).symm.trans readable
    | succ below =>
      rcases parentSubtree with ⟨inner, innerRead, _, forest⟩
      cases (extension _ _ innerRead).symm.trans readable
      rcases forest.refers_of_mem (mem_map_of_mem mem) with ⟨piece, refers⟩
      exact ⟨below, piece, refers.stands⟩

theorem scanned_subtree {tree : ManifestTreeSummary ObjectId}
    (scanned : scanExtents read tree.root = .ok (tree, extents)) :
    ∃ level, level ≤ MAX_TREE_LEVEL ∧ Subtree read level tree.root extents ∧
      TreeOf (Kept read (Reachable read tree.root)) level tree.root extents ∧
      tree.logicalSize = totalLength extents ∧ tree.allocatedBytes = extentAllocation extents := by
  rcases scanExtents_ok.mp scanned with ⟨level, low, subtree, summarized⟩
  refine ⟨level, low, subtree, subtree.restrict_reachable Reachable.root, ?_, ?_⟩
  · rw [summarized]
  · rw [summarized]

section Objects

variable [DecidableEq ObjectId] {encoded : List (ObjectId × ManifestNode ObjectId)}

theorem mem_of_remembered {object : ObjectId × ManifestNode ObjectId}
    (mem : object ∈ encoded.foldl rememberObject []) : object ∈ encoded := by
  induction encoded using reverseRecOn with
  | nil => cases mem
  | append_singleton init last ih =>
    rw [foldl_append, foldl_cons, foldl_nil, rememberObject] at mem
    split at mem
    · exact mem_append_left _ (ih mem)
    · rcases mem_append.mp mem with before | new
      · exact mem_append_left _ (ih before)
      · exact mem_append_right _ new

theorem remembered_of_mem (mem : objectId ∈ encoded.map Prod.fst) :
    objectId ∈ (encoded.foldl rememberObject []).map Prod.fst := by
  induction encoded using reverseRecOn with
  | nil => cases mem
  | append_singleton init last ih =>
    rw [foldl_append, foldl_cons, foldl_nil, rememberObject]
    rw [map_append, mem_append] at mem
    split
    · rename_i seen
      rcases mem with before | new
      · exact ih before
      · rw [mem_singleton.mp new]
        exact seen
    · rw [map_append, mem_append]
      exact mem.imp_left ih

/-- What is remembered before an object was encoded before it. -/
theorem remembered_split {before after : List (ObjectId × ManifestNode ObjectId)}
    {object : ObjectId × ManifestNode ObjectId}
    (split : encoded.foldl rememberObject [] = before ++ object :: after) :
    ∃ earlier later, encoded = earlier ++ object :: later ∧
      earlier.foldl rememberObject [] = before := by
  induction encoded using reverseRecOn generalizing after with
  | nil =>
    rw [foldl_nil] at split
    cases before <;> cases split
  | append_singleton init last ih =>
    rw [foldl_append, foldl_cons, foldl_nil, rememberObject] at split
    split at split
    · rcases ih split with ⟨earlier, later, rfl, same⟩
      exact ⟨earlier, later ++ [last], by simp, same⟩
    · rcases eq_nil_or_concat after with rfl | ⟨rest, final, rfl⟩
      · rcases append_inj' split rfl with ⟨same, single⟩
        cases single
        exact ⟨init, [], rfl, same⟩
      · rw [concat_eq_append, ← cons_append, ← append_assoc] at split
        rcases ih (append_inj' split rfl).1 with ⟨earlier, later, rfl, same⟩
        exact ⟨earlier, later ++ [last], by simp, same⟩

/-- The reader once the objects are published. -/
def overlay (read : NodeReader ObjectId) (objects : List (ObjectId × ManifestNode ObjectId)) :
    NodeReader ObjectId :=
  fun objectId =>
    match objects.lookup objectId with
    | some node => .ok node
    | none => read objectId

theorem overlay_cases (read : NodeReader ObjectId)
    (objects : List (ObjectId × ManifestNode ObjectId)) (objectId : ObjectId) :
    (∃ node, (objectId, node) ∈ objects ∧ overlay read objects objectId = .ok node) ∨
      objectId ∉ objects.map Prod.fst ∧ overlay read objects objectId = read objectId := by
  unfold overlay
  cases lookup : objects.lookup objectId with
  | some found =>
    rcases lookup_eq_some_iff.mp lookup with ⟨before, after, rfl, _⟩
    exact .inl ⟨found, by simp, rfl⟩
  | none =>
    refine .inr ⟨?_, rfl⟩
    intro mem
    rcases mem_map.mp mem with ⟨object, held, same⟩
    simpa [same] using lookup_eq_none_iff.mp lookup object held

end Objects

/-- A reader that returns every node under its own identity. -/
def Authentic (identity : ManifestNode ObjectId → ObjectId) (read : NodeReader ObjectId) : Prop :=
  ∀ objectId node, read objectId = .ok node → identity node = objectId

/-- No two nodes that the old tree has or that the edit encoded share an identity. -/
def Collisionless (identity : ManifestNode ObjectId → ObjectId) (read : NodeReader ObjectId)
    (old : ObjectId → Prop) (tree : EncodedManifestTree ObjectId) : Prop :=
  Set.InjOn identity ({node | ∃ objectId, old objectId ∧ read objectId = .ok node} ∪
    {node | node ∈ tree.encoded.map Prod.snd})

/-- An edited tree: a full walk accepts it and sees the given bytes, the summary is exact, and
its nodes are returned objects, children first, or old nodes. -/
structure Publishes [DecidableEq ObjectId] (identity : ManifestNode ObjectId → ObjectId)
    (read : NodeReader ObjectId) (old : ObjectId → Prop) (tree : EncodedManifestTree ObjectId)
    (summary : ManifestTreeSummary ObjectId) (cells : List ByteSource) : Prop where
  walked : ∃ extents, scanExtents (overlay read tree.objects) tree.root = .ok (summary, extents) ∧
    extentCells extents = cells
  size : summary.logicalSize = cells.length
  allocation : summary.allocatedBytes = allocatedCells cells
  nodes : ∀ objectId, Reachable (overlay read tree.objects) tree.root objectId →
    objectId ∈ tree.objects.map Prod.fst ∨
      (old objectId ∧ overlay read tree.objects objectId = read objectId)
  childrenFirst : ∀ before objectId node after,
    tree.objects = before ++ (objectId, .inner node) :: after →
    ∀ child ∈ node.children, child.child ∈ before.map Prod.fst ∨ old child.child
  authentic : ∀ entry ∈ tree.objects, identity entry.2 = entry.1

section Publishing

variable [DecidableEq ObjectId] {identity : ManifestNode ObjectId → ObjectId}
  {old : ObjectId → Prop}

variable {tree : EncodedManifestTree ObjectId} {cells : List ByteSource}
  {summary : ManifestTreeSummary ObjectId}

omit [DecidableEq ObjectId] in
theorem Collisionless.narrow {wider : ObjectId → Prop}
    (apart : Collisionless identity read wider tree)
    (implies : ∀ objectId, old objectId → wider objectId) :
    Collisionless identity read old tree := by
  refine Set.InjOn.mono (Set.union_subset_union_left _ ?_) apart
  rintro node ⟨objectId, isOld, readable⟩
  exact ⟨objectId, implies objectId isOld, readable⟩

theorem Publishes.weaken {wider : ObjectId → Prop}
    (published : Publishes identity read old tree summary cells)
    (implies : ∀ objectId, old objectId → wider objectId) :
    Publishes identity read wider tree summary cells := by
  refine { published with nodes := ?_, childrenFirst := ?_ }
  · intro objectId reached
    rcases published.nodes objectId reached with remembered | oldNode
    · exact Or.inl remembered
    · exact Or.inr ⟨implies objectId oldNode.1, oldNode.2⟩
  · intro before objectId node after split child mem
    exact (published.childrenFirst before objectId node after split child mem).imp id
      (implies child.child)

theorem Publishes.summary_eq (published : Publishes identity read old tree summary cells) :
    summary = { root := tree.root, logicalSize := cells.length,
                allocatedBytes := allocatedCells cells } := by
  rcases published.walked with ⟨extents, walked, _⟩
  rcases scanExtents_ok.mp walked with ⟨_, _, _, summarized⟩
  have size := published.size
  have allocation := published.allocation
  rw [summarized] at size allocation ⊢
  simp only at size allocation
  rw [size, allocation]

section

variable (authentic : Authentic identity read)

include authentic

/-- Without collisions the published objects hide no old node, and none of them is dropped. -/
theorem Collisionless.found (apart : Collisionless identity read old tree)
    (staged : Staged identity (Kept read old) tree.encoded) :
    Extends (Among (Kept read old) tree.encoded) (Found (overlay read tree.objects)) := by
  intro objectId node stands
  have own : identity node = objectId := by
    rcases stands with ⟨_, readable⟩ | mem
    · exact authentic objectId node readable
    · exact staged.authentic _ mem
  have member : node ∈ {node | ∃ objectId, old objectId ∧ read objectId = .ok node} ∪
      {node | node ∈ tree.encoded.map Prod.snd} :=
    stands.imp (fun kept => ⟨objectId, kept⟩) fun mem => mem_map.mpr ⟨_, mem, rfl⟩
  rcases overlay_cases read tree.objects objectId with
    ⟨found, published, same⟩ | ⟨unpublished, same⟩
  · have encoded := mem_of_remembered published
    have equal := apart (.inr (mem_map.mpr ⟨_, encoded, rfl⟩)) member
      ((staged.authentic _ encoded).trans own.symm)
    exact same.trans (congrArg _ equal)
  · rcases stands with ⟨_, readable⟩ | mem
    · exact same.trans readable
    · exact absurd (remembered_of_mem (mem_map_of_mem mem)) unpublished

/-- A root that was built over the old nodes is published with its exact summary. -/
theorem Publishes.of_staged {encoded : List (ObjectId × ManifestNode ObjectId)}
    {root : NodeRef ObjectId}
    (apart : Collisionless identity read old { root := root.objectId, encoded })
    (staged : Staged identity (Kept read old) encoded) (low : level ≤ MAX_TREE_LEVEL)
    (denotes : Denotes (TreeOf (Among (Kept read old) encoded) level) root cells) :
    Publishes identity read old { root := root.objectId, encoded }
      { root := root.objectId, logicalSize := root.logicalLength,
        allocatedBytes := root.allocatedBytes } cells := by
  rcases denotes with ⟨extents, refers, rfl⟩
  have extension := apart.found authentic staged
  have known : ∀ {objectId node} {log : List (ObjectId × ManifestNode ObjectId)},
      Among (Kept read old) log objectId node →
      objectId ∈ (log.foldl rememberObject []).map Prod.fst ∨ old objectId := by
    intro objectId node log stands
    rcases stands with ⟨isOld, _⟩ | mem
    · exact .inr isOld
    · exact .inl (remembered_of_mem (mem_map_of_mem mem))
  refine ⟨⟨extents, ?_, rfl⟩, ?_, ?_, ?_, ?_, ?_⟩
  · rw [scanExtents_ok, refers.length, refers.allocation]
    exact ⟨level, low, refers.stands.mono extension, rfl⟩
  · rw [length_extentCells, refers.length]
  · rw [← extentAllocation_eq_allocatedCells, refers.allocation]
  · intro objectId reached
    rcases refers.stands.of_reachable extension reached with ⟨below, piece, subtree⟩
    rcases subtree.node_facts with ⟨node, stands, _⟩
    rcases overlay_cases read _ objectId with ⟨found, published, _⟩ | ⟨unpublished, same⟩
    · exact .inl (mem_map_of_mem published)
    · exact .inr ⟨(known stands).resolve_left unpublished, same⟩
  · intro before objectId node after split child mem
    rcases remembered_split split with ⟨earlier, later, whole, rfl⟩
    rcases staged.childrenFirst earlier _ later whole node rfl child mem with ⟨found, stands⟩
    exact known stands
  · exact fun object published => staged.authentic object (mem_of_remembered published)

theorem encodeManifestTree_publishes
    (encoded : encodeManifestTree identity logicalSize extents = .ok tree)
    (apart : Collisionless identity read (fun _ => False) tree) :
    ∃ summary, Publishes identity read (fun _ => False) tree summary (extentCells extents) := by
  simp only [encodeManifestTree, validateLayout, bind_ok, mapError_ok,
    validatePartition_ok, pure_ok, StateT.run, state_bind_ok] at encoded
  rcases encoded with ⟨_, partition, ⟨root, log⟩, ⟨leaves, log₁, encodedLeaves, raised⟩, rfl⟩
  have grown := encodeLeaves_spec (staged_nil (Kept read fun _ => False)) encodedLeaves
  rcases raiseForest_spec encodeParents_spec grown.1.staged (Nat.zero_le _) grown.2 raised with
    ⟨later, level, low, refers⟩
  exact ⟨_, Publishes.of_staged authentic apart later.staged low ⟨extents, refers, rfl⟩⟩

theorem encodeManifestTree_empty_publishes (encoded : encodeManifestTree identity 0 [] = .ok tree)
    (apart : Collisionless identity read old tree) :
    Publishes identity read old tree { root := tree.root, logicalSize := 0, allocatedBytes := 0 }
      [] := by
  rcases encodeManifestTree_publishes authentic encoded (apart.narrow fun _ => False.elim) with
    ⟨summary, published⟩
  have sameSummary := published.summary_eq
  rw [sameSummary] at published
  exact published.weaken fun objectId impossible => impossible.elim

section Editing

variable {previous : ManifestTreeSummary ObjectId}

section

variable (scanned : scanExtents read previous.root = .ok (previous, extents))

include scanned

theorem appendManifestTree_publishes {appended : List ManifestExtent}
    (ran : appendManifestTree identity previous appended read = .ok (tree, summary))
    (apart : Collisionless identity read (Reachable read previous.root) tree) :
    Publishes identity read (Reachable read previous.root) tree summary
      (extentCells extents ++ extentCells appended) := by
  rcases scanned_subtree scanned with ⟨level, low, _, subtree, size, allocation⟩
  simp only [appendManifestTree, bind_ok, extentsLength_ok, require_ok,
    manifestAllocatedBytes_ok, checkedAdd_ok, pure_ok, StateT.run, state_bind_ok] at ran
  rcases ran with ⟨appendedLength, ⟨lengthEq, _⟩, _, _, appendedAllocated, ⟨allocatedEq, _⟩,
    logicalSize, ⟨_, sizeEq⟩, allocatedBytes, ⟨_, totalEq⟩, _, _, ⟨root, log⟩,
    ⟨leaves, log₁, encodedLeaves, ⟨observedLevel, forest⟩, log₂, appendedSpine, raised⟩, result⟩
  cases result
  have grown := encodeLeaves_spec (staged_nil (Kept read (Reachable read previous.root)))
    encodedLeaves
  rcases appendLeavesToRightSpine_spec (Kept.found read _) grown.1.staged grown.2 subtree
    appendedSpine with ⟨later, rfl, appendedForest⟩
  rcases raiseForest_spec encodeParentForest_spec later.staged low appendedForest raised with
    ⟨last, rootLevel, rootLow, refers⟩
  have published := Publishes.of_staged authentic apart last.staged rootLow ⟨_, refers, rfl⟩
  rw [extentCells_append] at published
  have sameSize : logicalSize = root.logicalLength := by
    rw [refers.length, totalLength_append]
    omega
  have sameAllocation : allocatedBytes = root.allocatedBytes := by
    rw [refers.allocation, extentAllocation_append]
    omega
  rw [sameSize, sameAllocation]
  exact published

omit authentic in
theorem Publishes.unchanged : Publishes identity read (Reachable read previous.root)
      { root := previous.root, encoded := [] } previous (extentCells extents) := by
  rcases scanExtents_ok.mp scanned with ⟨level, low, subtree, summarized⟩
  refine ⟨⟨extents, scanned, rfl⟩, ?_, ?_, ?_, ?_, nofun⟩
  · rw [length_extentCells, summarized]
  · rw [← extentAllocation_eq_allocatedCells, summarized]
  · intro objectId reached
    exact Or.inr ⟨reached, rfl⟩
  · intro before objectId node after split
    cases before <;> cases split

variable {start finish : ℕ}

theorem rewriteManifestTreeRange_publishes
    (ran : rewriteManifestTreeRange identity previous.root previous.logicalSize start finish
      replacement read = .ok tree)
    (apart : Collisionless identity read (Reachable read previous.root) tree) :
    (∃ summary, Publishes identity read (Reachable read previous.root) tree summary
      (spliceCells start finish (extentCells replacement) (extentCells extents))) ∧
      start + totalLength replacement = finish ∧ finish ≤ totalLength extents := by
  rcases scanned_subtree scanned with ⟨level, low, _, subtree, size, allocation⟩
  simp only [rewriteManifestTreeRange, validateLayout, bind_ok, require_ok,
    extentsLength_ok, mapError_ok, validatePartition_ok] at ran
  rcases ran with ⟨_, inside, replacementLength, ⟨lengthEq, _⟩, _, exact, _, partition, ran⟩
  have bounded := subtree.bounded
  have exactly : start + totalLength replacement = finish := by omega
  have within : finish ≤ (extentCells extents).length := by
    rw [length_extentCells]
    omega
  have replaced := overwrite_zero (show start + (extentCells replacement).length = finish by
      rw [length_extentCells]
      exact exactly) within
  split at ran
  · cases ran
    refine ⟨⟨previous, ?_⟩, exactly, by omega⟩
    have unchanged : overwrite 0 start (extentCells replacement) (extentCells extents) =
        extentCells extents := by
      apply overwrite_apart
      rw [length_extentCells, length_extentCells]
      omega
    rw [spliceCells, ← replaced, unchanged]
    exact Publishes.unchanged scanned
  · simp only [bind_ok, require_ok, pure_ok, StateT.run] at ran
    rcases ran with ⟨⟨root, log⟩, rewritten, _, _, result⟩
    cases result
    rcases rewriteNode_spec (Kept.found read _) exactly (by omega) partition.valid _ level
      (staged_nil _) subtree rewritten with ⟨grown, denotes⟩
    rw [spliceCells, ← replaced]
    exact ⟨⟨_, Publishes.of_staged authentic apart grown.staged low denotes⟩, exactly, by omega⟩

end

omit authentic in
/-- The allocation after a replacement, as the successor functions compute it. -/
theorem spliced_allocation {replacement : List ManifestExtent} (ordered : start ≤ finish) :
    allocatedCells (spliceCells start finish (extentCells replacement) (extentCells extents)) +
      rangeAllocation 0 start finish extents =
        extentAllocation extents + extentAllocation replacement := by
  rw [rangeAllocation_eq_window, extentAllocation_eq_allocatedCells,
    extentAllocation_eq_allocatedCells]
  exact allocatedCells_replace _ _ ordered

section

variable (scanned : scanExtents read previous.root = .ok (previous, extents))

include scanned

theorem rewriteManifestTreeRangeSuccessor_publishes {replacement : List ManifestExtent}
    (ran : rewriteManifestTreeRangeSuccessor identity previous start finish replacement
      read = .ok (tree, summary))
    (apart : Collisionless identity read (Reachable read previous.root) tree) :
    Publishes identity read (Reachable read previous.root) tree summary
      (spliceCells start finish (extentCells replacement) (extentCells extents)) := by
  rcases scanned_subtree scanned with ⟨level, low, subtree, _, size, allocation⟩
  simp only [rewriteManifestTreeRangeSuccessor, bind_ok, require_ok,
    manifestAllocatedBytes_ok, checkedSub_ok, checkedAdd_ok, pure_ok] at ran
  rcases ran with ⟨_, inside, touched, touchedRead, removed, removedCounted, added,
    ⟨addedEq, _⟩, tree', rewritten, remaining, ⟨_, remainingEq⟩, total, ⟨_, totalEq⟩, result⟩
  cases result
  rcases rewriteManifestTreeRange_publishes authentic scanned rewritten apart with
    ⟨⟨exactSummary, published⟩, exact, within⟩
  have removedEq : removed = rangeAllocation 0 start finish extents := by
    by_cases empty : start = finish
    · have nothing : finish - start = 0 ∨ start ≥ previous.logicalSize := by omega
      rw [readManifestTreeRange, if_pos nothing] at touchedRead
      cases touchedRead
      cases removedCounted
      rw [rangeAllocation_outside (by omega)]
    · rw [size, readManifestTreeRange_eq low subtree (by omega) within] at touchedRead
      cases touchedRead
      rw [allocatedBytesInRange_eq subtree.bounded] at removedCounted
      cases removedCounted
      rfl
  have balance := @spliced_allocation extents start finish replacement (by omega)
  have cut : (spliceCells start finish (extentCells replacement) (extentCells extents)).length =
      previous.logicalSize := by
    simp only [spliceCells, length_append, length_take, length_drop, length_extentCells]
    omega
  have counted : allocatedCells (spliceCells start finish (extentCells replacement)
      (extentCells extents)) = total := by omega
  have sameSummary := published.summary_eq
  rw [cut, counted] at sameSummary
  rw [← sameSummary]
  exact published

theorem truncateManifestTree_publishes
    (ran : truncateManifestTree identity previous logicalSize read = .ok (tree, summary))
    (apart : Collisionless identity read (Reachable read previous.root) tree) :
    Publishes identity read (Reachable read previous.root) tree summary
      ((extentCells extents).take logicalSize) := by
  rcases scanned_subtree scanned with ⟨level, low, _, subtree, size, allocation⟩
  simp only [truncateManifestTree, bind_ok, require_ok] at ran
  rcases ran with ⟨_, shorter, ran⟩
  split at ran
  · rename_i zero
    rw [zero, take_zero]
    simp only [bind_ok, pure_ok] at ran
    rcases ran with ⟨tree', encoded, result⟩
    cases result
    exact encodeManifestTree_empty_publishes authentic encoded apart
  · simp only [bind_ok, require_ok, pure_ok, StateT.run] at ran
    rcases ran with ⟨⟨root, log⟩, truncated, _, sized, result⟩
    cases result
    rcases truncateNode_spec (Kept.found read _) _ level (staged_nil _) subtree (by omega)
      truncated with ⟨grown, denotes⟩
    have published := Publishes.of_staged authentic apart grown.staged low denotes
    simp only [not_not] at sized
    rw [sized] at published
    exact published

theorem spliceManifestTree_publishes
    (ran : spliceManifestTree identity previous start finish replacement read = .ok (tree,
      summary)) (apart : Collisionless identity read (Reachable read previous.root) tree) :
    Publishes identity read (Reachable read previous.root) tree summary
      (spliceCells start finish (extentCells replacement) (extentCells extents)) := by
  rcases scanned_subtree scanned with ⟨level, low, _, subtree, size, allocation⟩
  simp only [spliceManifestTree, bind_ok, require_ok, extentsLength_ok,
    manifestAllocatedBytes_ok, checkedSub_ok, checkedAdd_ok] at ran
  rcases ran with ⟨_, inside, replacementLength, ⟨lengthEq, _⟩, replacementAllocated, _, _, _,
    retainedSize, ⟨_, retainedEq⟩, logicalSize, ⟨_, sizeEq⟩, removed, _, retainedAllocated, _,
    allocatedBytes, _, ran⟩
  have cut : (spliceCells start finish (extentCells replacement) (extentCells extents)).length =
      logicalSize := by
    simp only [spliceCells, length_append, length_take, length_drop, length_extentCells]
    omega
  split at ran
  · rename_i zero
    rw [zero] at cut
    rw [length_eq_zero_iff.mp cut]
    simp only [bind_ok, pure_ok] at ran
    rcases ran with ⟨tree', encoded, result⟩
    cases result
    exact encodeManifestTree_empty_publishes authentic encoded apart
  · simp only [bind_ok, require_ok, pure_ok, StateT.run, state_bind_ok] at ran
    rcases ran with ⟨⟨root, log⟩, ⟨⟨observedLevel, forest⟩, log₁, spliced, raised⟩, _, same,
      result⟩
    cases result
    rcases spliceNode_spec (Kept.found read _) _ level (staged_nil _) subtree spliced with
      ⟨grown, rfl, newExtents, newForest, newCells⟩
    rcases raiseForest_spec encodeParentForest_spec grown.staged low newForest raised with
      ⟨later, rootLevel, rootLow, refers⟩
    have published := Publishes.of_staged authentic apart later.staged rootLow
      ⟨newExtents, refers, newCells⟩
    rw [not_or, not_not, not_not] at same
    rw [same.1, same.2] at published
    exact published

end

end Editing

end

/-- Every edit of a Manifest tree that returns a tree edits its flat byte sequence, unless two
nodes of the old tree or of the edit share an identity. -/
theorem manifest_tree_edits_refine_flat_edits (authentic : Authentic identity read) :
    (∀ logicalSize extents tree, encodeManifestTree identity logicalSize extents = .ok tree →
      Collisionless identity read (fun _ => False) tree →
      ∃ summary, Publishes identity read (fun _ => False) tree summary (extentCells extents)) ∧
    ∀ previous extents, scanExtents read previous.root = .ok (previous, extents) →
      (∀ appended tree summary,
        appendManifestTree identity previous appended read = .ok (tree, summary) →
        Collisionless identity read (Reachable read previous.root) tree →
        Publishes identity read (Reachable read previous.root) tree summary
          (extentCells extents ++ extentCells appended)) ∧
      (∀ start finish replacement tree,
        rewriteManifestTreeRange identity previous.root previous.logicalSize start finish
          replacement read = .ok tree →
        Collisionless identity read (Reachable read previous.root) tree →
        ∃ summary, Publishes identity read (Reachable read previous.root) tree summary
          (spliceCells start finish (extentCells replacement) (extentCells extents))) ∧
      (∀ start finish replacement tree summary,
        rewriteManifestTreeRangeSuccessor identity previous start finish replacement read =
          .ok (tree, summary) →
        Collisionless identity read (Reachable read previous.root) tree →
        Publishes identity read (Reachable read previous.root) tree summary
          (spliceCells start finish (extentCells replacement) (extentCells extents))) ∧
      (∀ logicalSize tree summary,
        truncateManifestTree identity previous logicalSize read = .ok (tree, summary) →
        Collisionless identity read (Reachable read previous.root) tree →
        Publishes identity read (Reachable read previous.root) tree summary
          ((extentCells extents).take logicalSize)) ∧
      (∀ start finish replacement tree summary,
        spliceManifestTree identity previous start finish replacement read = .ok (tree, summary) →
        Collisionless identity read (Reachable read previous.root) tree →
        Publishes identity read (Reachable read previous.root) tree summary
          (spliceCells start finish (extentCells replacement) (extentCells extents))) := by
  refine ⟨fun _ _ _ => encodeManifestTree_publishes authentic, ?_⟩
  intro previous extents scanned
  refine ⟨?_, ?_, ?_, ?_, ?_⟩
  · intro appended tree summary returned apart
    exact appendManifestTree_publishes authentic scanned returned apart
  · intro start finish replacement tree returned apart
    exact (rewriteManifestTreeRange_publishes authentic scanned returned apart).1
  · intro start finish replacement tree summary returned apart
    exact rewriteManifestTreeRangeSuccessor_publishes authentic scanned returned apart
  · intro logicalSize tree summary returned apart
    exact truncateManifestTree_publishes authentic scanned returned apart
  · intro start finish replacement tree summary returned apart
    exact spliceManifestTree_publishes authentic scanned returned apart

/-- A node spelled out in bytes, as far as the sample needs it. -/
def spelled : ManifestNode MetadataObjectId → Bytes
  | .leaf leaf => 1 :: leaf.extents.flatMap fun extent =>
      match extent with
      | .hole length => 1 :: Bytes.leEncode 4 length
      | .fill length value => 2 :: value :: Bytes.leEncode 4 length
      | .data length chunkId => 3 :: chunkId.1.take 4 ++ Bytes.leEncode 4 length
      | .dataSlice length chunkId _ offset => 4 :: chunkId.1.take 4 ++ Bytes.leEncode 4 length ++
          Bytes.leEncode 2 offset
  | .inner node => 2 :: UInt8.ofNat node.level :: node.children.flatMap fun child =>
      child.child.1.1.take 16

def unusedId : MetadataObjectId :=
  ⟨⟨replicate 32 255, rfl⟩, by decide⟩

/-- The first 32 bytes of the spelling. Nodes of the sample that differ, do so there. -/
def sampleIdentity (node : ManifestNode MetadataObjectId) : MetadataObjectId :=
  (MetadataObjectId.new (Bytes.fixedSlice (spelled node) 0 32)).getD unusedId

def emptyReader : NodeReader MetadataObjectId :=
  fun _ => .error .invalidTree

/-- A file whose first leaf ends in a slice of a Chunk, with three filled bytes in the next. -/
def sampleExtents : List ManifestExtent :=
  [.hole (64 * 1024 * 1024 - 6), .dataSlice 6 ⟨replicate 32 5, rfl⟩ 8 1, .fill 3 7]

def sampleTree : EncodedManifestTree MetadataObjectId :=
  (encodeManifestTree sampleIdentity (64 * 1024 * 1024 + 3) sampleExtents).toOption.getD
    { root := unusedId, encoded := [] }

def sampleSummary : ManifestTreeSummary MetadataObjectId :=
  { root := sampleTree.root, logicalSize := 64 * 1024 * 1024 + 3, allocatedBytes := 9 }

def sampleReader : NodeReader MetadataObjectId :=
  overlay emptyReader sampleTree.objects

/-- The slice is cut, and the replacement ends in the second leaf. -/
def splicedSample : EncodedManifestTree MetadataObjectId × ManifestTreeSummary MetadataObjectId :=
  (spliceManifestTree sampleIdentity sampleSummary (64 * 1024 * 1024 - 4) (64 * 1024 * 1024 + 1)
    [.fill 4 9] sampleReader).toOption.getD (sampleTree, sampleSummary)

theorem sampleReader_mem {objectId : MetadataObjectId} {node : ManifestNode MetadataObjectId}
    (readable : sampleReader objectId = .ok node) : (objectId, node) ∈ sampleTree.encoded := by
  rcases overlay_cases emptyReader sampleTree.objects objectId with
    ⟨found, published, same⟩ | ⟨_, same⟩
  · cases same.symm.trans readable
    exact mem_of_remembered published
  · cases same.symm.trans readable

theorem sampleReader_authentic : Authentic sampleIdentity sampleReader := by
  intro objectId node readable
  have own : ∀ object ∈ sampleTree.encoded, sampleIdentity object.2 = object.1 := by decide
  exact own _ (sampleReader_mem readable)

theorem splicedSample_collisionless : Collisionless sampleIdentity sampleReader
    (Reachable sampleReader sampleSummary.root) splicedSample.1 := by
  have apart : ∀ left ∈ sampleTree.encoded ++ splicedSample.1.encoded,
      ∀ right ∈ sampleTree.encoded ++ splicedSample.1.encoded,
      sampleIdentity left.2 = sampleIdentity right.2 → left.2 = right.2 := by decide
  have listed : ∀ node ∈ {node | ∃ objectId, Reachable sampleReader sampleSummary.root objectId ∧
      sampleReader objectId = .ok node} ∪ {node | node ∈ splicedSample.1.encoded.map Prod.snd},
      ∃ object ∈ sampleTree.encoded ++ splicedSample.1.encoded, object.2 = node := by
    rintro node (⟨objectId, _, readable⟩ | mem)
    · exact ⟨_, mem_append_left _ (sampleReader_mem readable), rfl⟩
    · rcases mem_map.mp mem with ⟨object, held, rfl⟩
      exact ⟨object, mem_append_right _ held, rfl⟩
  intro left inLeft right inRight same
  rcases listed left inLeft with ⟨first, firstMem, rfl⟩
  rcases listed right inRight with ⟨second, secondMem, rfl⟩
  exact apart first firstMem second secondMem same

/-- The splice of a stored tree of two leaves. -/
theorem manifest_tree_edits_refine_sample_splice :
    scanExtents sampleReader sampleSummary.root = .ok (sampleSummary, sampleExtents) ∧
      ∃ tree summary,
        spliceManifestTree sampleIdentity sampleSummary (64 * 1024 * 1024 - 4)
          (64 * 1024 * 1024 + 1) [.fill 4 9] sampleReader = .ok (tree, summary) ∧
        Publishes sampleIdentity sampleReader (Reachable sampleReader sampleSummary.root) tree
          summary (spliceCells (64 * 1024 * 1024 - 4) (64 * 1024 * 1024 + 1)
            (extentCells [.fill 4 9]) (extentCells sampleExtents)) := by
  have scanned : scanExtents sampleReader sampleSummary.root =
      .ok (sampleSummary, sampleExtents) := by decide
  have edits := (manifest_tree_edits_refine_flat_edits sampleReader_authentic).2
    sampleSummary sampleExtents scanned
  have accepted : (spliceManifestTree sampleIdentity sampleSummary (64 * 1024 * 1024 - 4)
      (64 * 1024 * 1024 + 1) [.fill 4 9] sampleReader).toBool = true := by decide
  rcases exists_of_toBool accepted with ⟨result, spliced⟩
  have same : splicedSample = result := by
    rw [splicedSample, spliced]
    rfl
  rw [← same] at spliced
  exact ⟨scanned, splicedSample.1, splicedSample.2, spliced,
    edits.2.2.2.2 _ _ _ _ _ spliced splicedSample_collisionless⟩

end Publishing

section Ranges

variable {size offset length : ℕ}

/-- A query that reaches beyond the end of the file asks for what is there. -/
theorem clipped_end (bounded : size < 2 ^ 64) (inside : offset < size) :
    min (min (offset + (min (offset + length) size - offset)) (2 ^ 64 - 1)) size =
      min (min (offset + length) (2 ^ 64 - 1)) size := by
  omega

theorem readManifestTreeRange_clip (bounded : size < 2 ^ 64) :
    readManifestTreeRange root size offset length read =
      readManifestTreeRange root size offset (min (offset + length) size - offset) read := by
  unfold readManifestTreeRange
  by_cases empty : length = 0 ∨ offset ≥ size
  · rw [if_pos empty, if_pos (by omega)]
  · rw [if_neg empty, if_neg (by omega), clipped_end bounded (by omega)]

theorem allocatedBytesInManifestTreeRange_clip (bounded : size < 2 ^ 64) :
    allocatedBytesInManifestTreeRange root size offset length read =
      allocatedBytesInManifestTreeRange root size offset (min (offset + length) size - offset)
        read := by
  unfold allocatedBytesInManifestTreeRange
  by_cases empty : length = 0 ∨ offset ≥ size
  · rw [if_pos empty, if_pos (by omega)]
  · rw [if_neg empty, if_neg (by omega), clipped_end bounded (by omega)]

/-- Both queries of a range answer for the flattened extents of the tree: the one with those that
have a byte in the range, where they are in the file, and the other with the bytes of the range
that are not in a hole. -/
theorem manifest_range_queries_exact {summary : ManifestTreeSummary ObjectId}
    {extents : List ManifestExtent} (scanned : scanExtents read root = .ok (summary, extents))
    (offset length : ℕ) :
    readManifestTreeRange root summary.logicalSize offset length read =
        .ok (((placed 0 extents).filter fun item => max item.1 offset <
          min (item.1 + item.2.logicalLength) (min (offset + length) summary.logicalSize)).map
            fun item => ManifestRangeExtent.mk item.1 item.2) ∧
      allocatedBytesInManifestTreeRange root summary.logicalSize offset length read =
        .ok (allocatedCells (window offset (min (offset + length) summary.logicalSize)
          (extentCells extents))) := by
  rcases scanExtents_ok.mp scanned with ⟨level, low, subtree, rfl⟩
  have bounded := subtree.bounded
  rw [readManifestTreeRange_clip bounded, allocatedBytesInManifestTreeRange_clip bounded]
  generalize finishEq : min (offset + length) (totalLength extents) = finish
  have inside : finish ≤ totalLength extents := by omega
  by_cases ordered : offset < finish
  · constructor
    · rw [readManifestTreeRange_eq low subtree ordered inside]
      congr 2
      apply filter_congr
      intro item member
      -- A placed extent of a tree is not empty.
      have positive := (subtree.valid item.2 (map_snd_placed 0 extents ▸
        mem_map_of_mem member)).positive
      simp only [meetsExtent, meets, Option.all_some, decide_eq_decide]
      omega
    · rw [allocatedBytesInManifestTreeRange_eq low subtree (by omega) inside,
        rangeAllocation_eq_window, Nat.sub_zero, Nat.sub_zero]
  · have nothing : finish - offset = 0 := by omega
    rw [nothing]
    constructor
    · have none : (placed 0 extents).filter (fun item => decide (max item.1 offset <
          min (item.1 + item.2.logicalLength) finish)) = [] := by
        apply filter_eq_nil_iff.mpr
        simp only [decide_eq_true_eq]
        omega
      rw [none, readManifestTreeRange, if_pos (.inl rfl)]
      rfl
    · rw [allocatedBytesInManifestTreeRange, if_pos (.inl rfl), ← Nat.sub_zero offset,
        ← Nat.sub_zero finish, ← rangeAllocation_eq_window, rangeAllocation_outside (by omega)]

/-- The last byte of a leaf and what follows it, asked for beyond the end of the file. -/
theorem manifest_range_queries_exact_at_boundary :
    scanExtents sampleReader sampleSummary.root = .ok (sampleSummary, sampleExtents) ∧
      allocatedBytesInManifestTreeRange sampleSummary.root sampleSummary.logicalSize
        (64 * 1024 * 1024 - 1) 100 sampleReader =
        .ok (allocatedCells (window (64 * 1024 * 1024 - 1)
          (min (64 * 1024 * 1024 - 1 + 100) sampleSummary.logicalSize)
          (extentCells sampleExtents))) := by
  have scanned : scanExtents sampleReader sampleSummary.root =
      .ok (sampleSummary, sampleExtents) := by decide
  exact ⟨scanned, (manifest_range_queries_exact scanned (64 * 1024 * 1024 - 1) 100).2⟩

end Ranges

end Fastdup.Store
