import Fastdup.Store.ManifestTree

/-!
# What a Manifest tree denotes

`Subtree read level objectId extents` says that a complete tree of the given level stands
under an identity and that its leaves hold the extents, in order. A `Forest` is a list of
references to such trees, each with the exact length and allocation total of its part. The
two go together: the children of an inner node are a forest one level below. `TreeOf` says the
same of any collection of nodes.

The walks of the source are total on such trees and visit exactly the placed extents that
meet the requested range. Conversely, a complete walk that succeeds has checked that the
root is a `Subtree`. So the relation is what a full walk accepts.
-/

namespace Fastdup.Store

open Library Checked Format List PendingNode Option Nat ManifestExtent

variable {ObjectId σ : Type}

/-- Holes take no storage. -/
def extentAllocation (extents : List ManifestExtent) : ℕ :=
  (extents.map fun extent => if extent.isHole then 0 else extent.logicalLength).sum

@[simp]
theorem extentAllocation_nil : extentAllocation [] = 0 :=
  rfl

@[simp]
theorem extentAllocation_cons (extent : ManifestExtent) (rest : List ManifestExtent) :
    extentAllocation (extent :: rest) =
      (if extent.isHole then 0 else extent.logicalLength) + extentAllocation rest := by
  simp [extentAllocation]

@[simp]
theorem extentAllocation_append (left right : List ManifestExtent) :
    extentAllocation (left ++ right) = extentAllocation left + extentAllocation right := by
  simp [extentAllocation]

theorem extentAllocation_le (extents : List ManifestExtent) :
    extentAllocation extents ≤ totalLength extents := by
  induction extents with
  | nil => simp
  | cons extent rest ih =>
    simp only [extentAllocation_cons, totalLength_cons]
    split
    · omega
    · omega

/-- The bytes of a file that are not holes. -/
def allocatedCells (cells : List ByteSource) : ℕ :=
  cells.countP (· ≠ .hole)

theorem allocatedCells_append (left right : List ByteSource) :
    allocatedCells (left ++ right) = allocatedCells left + allocatedCells right :=
  countP_append

theorem allocatedCells_le_length (cells : List ByteSource) : allocatedCells cells ≤ cells.length :=
  countP_le_length

theorem allocatedCells_cells (extent : ManifestExtent) :
    allocatedCells extent.cells = if extent.isHole then 0 else extent.logicalLength := by
  cases extent with
  | data length chunkId | dataSlice length chunkId chunkLength chunkOffset | fill length value =>
    simp [allocatedCells, cells, source, isHole,
      logicalLength, countP_map, Function.comp_def]
  | hole length =>
    simp [allocatedCells, cells, source, isHole,
      countP_map, Function.comp_def]

theorem extentAllocation_eq_allocatedCells (extents : List ManifestExtent) :
    extentAllocation extents = allocatedCells (extentCells extents) := by
  induction extents with
  | nil => rfl
  | cons extent rest ih =>
    rw [extentAllocation_cons, extentCells_cons, allocatedCells_append, allocatedCells_cells, ih]

variable {extents : List ManifestExtent} {total : ℕ} {node : ManifestNode ObjectId}
  {reference : NodeRef ObjectId}
  {references : List (NodeRef ObjectId)}

theorem extentsLength_ok :
    (extentsLength extents : Except (ManifestTreeError ObjectId) ℕ) = .ok total ↔
      total = totalLength extents ∧ total < 2 ^ 64 := by
  exact foldlM_checkedAdd_ok

theorem addAllocated_ok {sum bytes : ℕ} {extent : ManifestExtent} (small : sum < 2 ^ 64) :
    (addAllocated sum extent bytes : Except (ManifestTreeError ObjectId) ℕ) = .ok total ↔
      total = sum + (if extent.isHole then 0 else bytes) ∧ total < 2 ^ 64 := by
  unfold addAllocated
  split
  · rw [Except.ok.injEq]
    omega
  · rw [checkedAdd_ok]
    omega

theorem manifestAllocatedBytes_ok :
    (manifestAllocatedBytes extents : Except (ManifestTreeError ObjectId) ℕ) = .ok total ↔
      total = extentAllocation extents ∧ total < 2 ^ 64 := by
  have adds : ∀ extent ∈ extents, ∀ sum total, sum < 2 ^ 64 →
      ((addAllocated sum extent extent.logicalLength : Except (ManifestTreeError ObjectId) ℕ) =
        .ok total ↔
        total = sum + (if extent.isHole then 0 else extent.logicalLength) ∧ total < 2 ^ 64) :=
    fun _ _ _ _ => addAllocated_ok
  unfold manifestAllocatedBytes
  rw [foldlM_sum_ok adds (Nat.two_pow_pos 64), Nat.zero_add]
  rfl

def nodeLevel : ManifestNode ObjectId → ℕ
  | .leaf _ => 0
  | .inner node => node.level

def nodeLength : ManifestNode ObjectId → ℕ
  | .leaf leaf => leaf.fileLength
  | .inner node => node.fileLength

def nodeAllocation : ManifestNode ObjectId → ℕ
  | .leaf leaf => extentAllocation leaf.extents
  | .inner node => (node.children.map ManifestChildRange.allocatedBytes).sum

theorem manifestAllocatedBytes_leaf (leaf : ManifestLeaf) :
    (manifestAllocatedBytes leaf.extents : Except (ManifestTreeError ObjectId) ℕ) =
      .ok (extentAllocation leaf.extents) := by
  apply manifestAllocatedBytes_ok.mpr
  have counted := extentAllocation_le leaf.extents
  have bounded := leaf.partition.bounded
  rw [leaf.length_eq] at bounded
  exact ⟨rfl, by omega⟩

variable {candidate : PendingNode ObjectId} {read : NodeReader ObjectId}

theorem openNode_ok : openNode read candidate = .ok node ↔ read candidate.objectId = .ok node ∧
        candidate.admits (nodeLevel node) (nodeLength node) (nodeAllocation node) = true ∧
        nodeLevel node ≤ MAX_TREE_LEVEL := by
  unfold openNode
  rw [bind_ok]
  constructor
  · intro opened
    rcases opened with ⟨found, readable, checked⟩
    cases found with
    | leaf leaf =>
      simp only [manifestAllocatedBytes_leaf, bind_ok, require_ok, pure_ok,
        Except.ok.injEq, exists_eq_left'] at checked
      rcases checked with ⟨_, admitted, rfl⟩
      exact ⟨readable, by simpa [nodeLevel, nodeLength, nodeAllocation] using admitted,
        zero_le _⟩
    | inner inner =>
      simp only [inner.allocatedBytes_eq_ok, Except.mapError, bind_ok, require_ok,
        pure_ok, Except.ok.injEq, exists_eq_left', not_or, not_lt] at checked
      rcases checked with ⟨_, ⟨admitted, low⟩, rfl⟩
      exact ⟨readable, by simpa [nodeLevel, nodeLength, nodeAllocation] using admitted, low⟩
  · intro accepted
    rcases accepted with ⟨readable, admitted, low⟩
    refine ⟨node, readable, ?_⟩
    cases node with
    | leaf leaf =>
      simp only [manifestAllocatedBytes_leaf, bind_ok, require_ok, pure_ok,
        Except.ok.injEq, exists_eq_left']
      exact ⟨(), by simpa [nodeLevel, nodeLength, nodeAllocation] using admitted, trivial⟩
    | inner inner =>
      simp only [inner.allocatedBytes_eq_ok, Except.mapError, bind_ok, require_ok,
        pure_ok, Except.ok.injEq, exists_eq_left', not_or, not_lt]
      exact ⟨(), ⟨by simpa [nodeLevel, nodeLength, nodeAllocation] using admitted, low⟩, trivial⟩

theorem PendingNode.admits_eq_true_iff {level logicalLength allocatedBytes : ℕ} :
    candidate.admits level logicalLength allocatedBytes = true ↔
      (∀ expected ∈ candidate.expectedLevel, expected = level) ∧
        (∀ expected ∈ candidate.expectedLength, expected = logicalLength) ∧
        (∀ expected ∈ candidate.expectedAllocatedBytes, expected = allocatedBytes) := by
  simp [admits, Option.all_eq_true, and_assoc]

def PendingNode.ofChild (parent : PendingNode ObjectId) (child : ManifestChildRange ObjectId)
    (level : ℕ) : PendingNode ObjectId :=
  { objectId := child.child, absoluteOffset := parent.absoluteOffset + child.logicalOffset,
    expectedLength := some child.logicalLength, expectedLevel := some level,
    expectedAllocatedBytes := some child.allocatedBytes }

section

variable (parent : PendingNode ObjectId) (child : ManifestChildRange ObjectId) (level : ℕ)

include parent child level

@[simp]
theorem PendingNode.ofChild_objectId : (ofChild parent child level).objectId = child.child :=
  rfl

@[simp]
theorem PendingNode.ofChild_absoluteOffset :
    (ofChild parent child level).absoluteOffset = parent.absoluteOffset + child.logicalOffset :=
  rfl

end

variable {child : ManifestChildRange ObjectId} {level : ℕ}

theorem pendingChild_ok {candidate pending : PendingNode ObjectId} :
    pendingChild candidate child level = .ok pending ↔
      candidate.absoluteOffset + child.logicalOffset < 2 ^ 64 ∧
        pending = ofChild candidate child level := by
  unfold pendingChild
  simp only [bind_ok, checkedAdd_ok, pure_ok]
  constructor
  · intro placed
    rcases placed with ⟨_, ⟨fits, rfl⟩, rfl⟩
    exact ⟨fits, rfl⟩
  · intro placed
    rcases placed with ⟨fits, rfl⟩
    exact ⟨_, ⟨fits, rfl⟩, rfl⟩

theorem pendingChild_of_lt (fits : candidate.absoluteOffset + child.logicalOffset < 2 ^ 64)
    (level : ℕ) :
    pendingChild candidate child level = .ok (ofChild candidate child level) :=
  pendingChild_ok.mpr ⟨fits, rfl⟩

/-- A reference announces the exact totals of the extents of its subtree. -/
structure Refers (subtree : ObjectId → List ManifestExtent → Prop) (reference : NodeRef ObjectId)
    (extents : List ManifestExtent) : Prop where
  length : reference.logicalLength = totalLength extents
  allocation : reference.allocatedBytes = extentAllocation extents
  stands : subtree reference.objectId extents

/-- References to consecutive subtrees, with all their extents. -/
inductive Forest (subtree : ObjectId → List ManifestExtent → Prop) :
    List (NodeRef ObjectId) → List ManifestExtent → Prop where
  | nil : Forest subtree [] []
  | cons {reference : NodeRef ObjectId} {rest : List (NodeRef ObjectId)}
      {piece others : List ManifestExtent} (first : Refers subtree reference piece)
      (following : Forest subtree rest others) : Forest subtree (reference :: rest)
        (piece ++ others)

/-- Nodes under their identities. An identity may have more than one node as long as collisions
are not excluded. -/
abbrev Nodes (ObjectId : Type) := ObjectId → ManifestNode ObjectId → Prop

/-- A complete tree of the level stands under the identity and holds the extents. -/
def TreeOf (nodes : Nodes ObjectId) : ℕ → ObjectId → List ManifestExtent → Prop
  | 0, objectId, extents => ∃ leaf, nodes objectId (.leaf leaf) ∧ leaf.extents = extents
  | level + 1, objectId, extents => ∃ node, nodes objectId (.inner node) ∧
      node.level = level + 1 ∧
      Forest (TreeOf nodes level) (node.children.map nodeRefFromChild) extents

/-- What a reader finds. -/
abbrev Found (read : NodeReader ObjectId) : Nodes ObjectId :=
  fun objectId node => read objectId = .ok node

abbrev Subtree (read : NodeReader ObjectId) : ℕ → ObjectId → List ManifestExtent → Prop :=
  TreeOf (Found read)

namespace Forest

variable {subtree : ObjectId → List ManifestExtent → Prop}

theorem append {others : List (NodeRef ObjectId)} {more : List ManifestExtent}
    (first : Forest subtree references extents) (second : Forest subtree others more) :
    Forest subtree (references ++ others) (extents ++ more) := by
  induction first with
  | nil => exact second
  | cons refers following ih =>
    rw [append_assoc]
    exact cons refers ih

theorem singleton (refers : Refers subtree reference extents) :
    Forest subtree [reference] extents := by
  have forest := cons refers nil
  rwa [append_nil] at forest

theorem append_cases {left right : List (NodeRef ObjectId)}
    (forest : Forest subtree (left ++ right) extents) :
    ∃ leftExtents rightExtents, Forest subtree left leftExtents ∧
      Forest subtree right rightExtents ∧ extents = leftExtents ++ rightExtents := by
  induction left generalizing extents with
  | nil => exact ⟨[], extents, nil, forest, rfl⟩
  | cons reference rest ih =>
    rcases forest with _ | ⟨refers, following⟩
    rcases ih following with ⟨leftExtents, rightExtents, leftForest, rightForest, rfl⟩
    exact ⟨_, rightExtents, cons refers leftForest, rightForest, (append_assoc ..).symm⟩

theorem singleton_iff : Forest subtree [reference] extents ↔ Refers subtree reference extents := by
  constructor
  · intro forest
    rcases forest with _ | ⟨refers, following⟩
    cases following
    rwa [append_nil]
  · exact singleton

theorem mono {weaker : ObjectId → List ManifestExtent → Prop}
    (implies : ∀ objectId piece, subtree objectId piece → weaker objectId piece)
    (forest : Forest subtree references extents) : Forest weaker references extents := by
  induction forest with
  | nil => exact nil
  | cons refers following ih =>
    exact cons ⟨refers.length, refers.allocation, implies _ _ refers.stands⟩ ih

theorem length_eq (forest : Forest subtree references extents) :
    (references.map NodeRef.logicalLength).sum = totalLength extents := by
  induction forest with
  | nil => rfl
  | cons refers following ih => simp [refers.length, ih]

theorem allocation_eq (forest : Forest subtree references extents) :
    (references.map NodeRef.allocatedBytes).sum = extentAllocation extents := by
  induction forest with
  | nil => rfl
  | cons refers following ih => simp [refers.allocation, ih]

theorem valid (holds : ∀ objectId piece, subtree objectId piece → ∀ extent ∈ piece, extent.Valid)
    (forest : Forest subtree references extents) : ∀ extent ∈ extents, extent.Valid := by
  induction forest with
  | nil => simp
  | cons refers following ih =>
    intro extent mem
    rcases mem_append.mp mem with inside | behind
    · exact holds _ _ refers.stands extent inside
    · exact ih extent behind

end Forest

/-- Every node stays under its identity. -/
def Extends (nodes wider : Nodes ObjectId) : Prop :=
  ∀ objectId node, nodes objectId node → wider objectId node

variable {nodes wider : Nodes ObjectId}

theorem ChildPartition.sum_lengths {start finish : ℕ}
    {children : List (ManifestChildRange ObjectId)}
    (partition : ChildPartition start children finish) :
    start + ((children.map nodeRefFromChild).map NodeRef.logicalLength).sum = finish := by
  induction children generalizing start with
  | nil => exact partition
  | cons child rest ih =>
    rcases partition with ⟨_, _, _, restPartition⟩
    have summed := ih restPartition
    simp only [map_cons, sum_cons, nodeRefFromChild] at summed ⊢
    omega

theorem Forest.size {node : ManifestInnerNode ObjectId}
    (forest : Forest subtree (node.children.map nodeRefFromChild) extents) :
    totalLength extents = node.fileLength := by
  have summed := ChildPartition.sum_lengths node.valid.partition
  rwa [forest.length_eq, zero_add] at summed

namespace TreeOf

variable {objectId : ObjectId}

theorem mono (extension : Extends nodes wider) (subtree : TreeOf nodes level objectId extents) :
    TreeOf wider level objectId extents := by
  induction level generalizing objectId extents with
  | zero =>
    rcases subtree with ⟨leaf, readable, holds⟩
    exact ⟨leaf, extension _ _ readable, holds⟩
  | succ level ih =>
    rcases subtree with ⟨node, readable, atLevel, forest⟩
    exact ⟨node, extension _ _ readable, atLevel, forest.mono fun _ _ => ih⟩

variable (subtree : TreeOf nodes level objectId extents)

include subtree

theorem valid : ∀ extent ∈ extents, extent.Valid := by
  induction level generalizing objectId extents with
  | zero =>
    rcases subtree with ⟨leaf, _, rfl⟩
    exact leaf.partition.valid
  | succ level ih =>
    rcases subtree with ⟨node, _, _, forest⟩
    exact forest.valid fun _ _ => ih

/-- What a reader finds where the subtree stands: its leaf, or its node over a forest. -/
theorem opened {node : ManifestNode ObjectId} (extension : Extends nodes (Found read))
    (readable : read objectId = .ok node) :
    (∃ leaf, level = 0 ∧ node = .leaf leaf ∧ leaf.extents = extents ∧ nodes objectId node) ∨
      ∃ inner below, level = below + 1 ∧ node = .inner inner ∧ inner.level = below + 1 ∧
        Forest (TreeOf nodes below) (inner.children.map nodeRefFromChild) extents := by
  cases level with
  | zero =>
    rcases subtree with ⟨leaf, leafRead, holds⟩
    cases (extension _ _ leafRead).symm.trans readable
    exact .inl ⟨leaf, rfl, rfl, holds, leafRead⟩
  | succ level =>
    rcases subtree with ⟨inner, innerRead, atLevel, forest⟩
    cases (extension _ _ innerRead).symm.trans readable
    exact .inr ⟨inner, level, rfl, rfl, atLevel, forest⟩

theorem node_facts : ∃ node, nodes objectId node ∧ nodeLevel node = level ∧
      nodeLength node = totalLength extents ∧ nodeAllocation node = extentAllocation extents ∧
      totalLength extents < 2 ^ 64 := by
  cases level with
  | zero =>
    rcases subtree with ⟨leaf, readable, rfl⟩
    have bounded := leaf.partition.bounded
    rw [leaf.length_eq] at bounded
    exact ⟨.leaf leaf, readable, rfl, leaf.length_eq, rfl, bounded⟩
  | succ level =>
    rcases subtree with ⟨node, readable, atLevel, forest⟩
    have summed := forest.size
    have allocated := forest.allocation_eq
    rw [List.map_map] at allocated
    exact ⟨.inner node, readable, atLevel, summed.symm, allocated, summed ▸ node.valid.bounded⟩

theorem bounded : totalLength extents < 2 ^ 64 := by
  rcases subtree.node_facts with ⟨_, _, _, _, _, bounded⟩
  exact bounded

end TreeOf

theorem Refers.mono (extension : Extends nodes wider)
    (refers : Refers (TreeOf nodes level) reference extents) :
    Refers (TreeOf wider level) reference extents :=
  { refers with stands := refers.stands.mono extension }

theorem Forest.extend (extension : Extends nodes wider)
    (forest : Forest (TreeOf nodes level) references extents) :
    Forest (TreeOf wider level) references extents :=
  forest.mono fun _ _ => TreeOf.mono extension

theorem Forest.readable (forest : Forest (TreeOf nodes level) references extents)
    (mem : reference ∈ references) : ∃ found, nodes reference.objectId found := by
  induction forest with
  | nil => cases mem
  | cons refers following ih =>
    rcases mem_cons.mp mem with rfl | behind
    · rcases refers.stands.node_facts with ⟨node, readable, _⟩
      exact ⟨node, readable⟩
    · exact ih behind

/-- What a parent, or the caller for the root, may announce about a subtree. -/
structure Announces (candidate : PendingNode ObjectId) (level : ℕ)
    (extents : List ManifestExtent) : Prop where
  level : ∀ expected ∈ candidate.expectedLevel, expected = level
  length : ∀ expected ∈ candidate.expectedLength, expected = totalLength extents
  allocation : ∀ expected ∈ candidate.expectedAllocatedBytes, expected = extentAllocation extents

theorem openNode_of_subtree (subtree : Subtree read level candidate.objectId extents)
    (readable : read candidate.objectId = .ok node) : openNode read candidate = .ok node ↔
      Announces candidate level extents ∧ level ≤ MAX_TREE_LEVEL := by
  rcases subtree.node_facts with ⟨found, found_eq, rfl, length, allocation, _⟩
  rw [found_eq] at readable
  cases readable
  rw [openNode_ok, admits_eq_true_iff, length, allocation]
  constructor
  · intro opened
    rcases opened with ⟨_, ⟨atLevel, atLength, atAllocation⟩, low⟩
    exact ⟨⟨atLevel, atLength, atAllocation⟩, low⟩
  · intro accepted
    rcases accepted with ⟨announces, low⟩
    exact ⟨found_eq, ⟨announces.level, announces.length, announces.allocation⟩, low⟩

theorem Refers.announces {subtree : ObjectId → List ManifestExtent → Prop}
    (refers : Refers subtree (nodeRefFromChild child) extents) (parent : PendingNode ObjectId)
    (level : ℕ) : Announces (ofChild parent child level) level extents := by
  refine ⟨?_, ?_, ?_⟩
  · intro expected mem
    exact (mem_some_iff.mp mem).symm
  · intro expected mem
    rw [← mem_some_iff.mp mem]
    exact refers.length
  · intro expected mem
    rw [← mem_some_iff.mp mem]
    exact refers.allocation

end Fastdup.Store
