import Fastdup.Format.Manifest
import Fastdup.Library.FaultyStorage

/-!
# Manifest trees

A Manifest tree is a content-addressed tree of leaves and inner nodes. Every edit is copy on
write: it reads the nodes on the path it changes, encodes new nodes and returns the identity of
the new root. Nodes are written under the identity of their encoding, here the function
`identity`; a reader returns the decoded node of an identity. What an edit encodes is noted in
its order; `remember_object` drops a node whose identity it has seen.

The walks of the source keep their pending nodes on a stack. A node's children are pushed
together and in reverse, so the stack holds the rest of a depth-first traversal, which is
written here as a recursion. Its fuel is one more than the highest level of a tree.
-/

namespace Fastdup.Store

open Library Checked Format

def LEAF_TARGET_LOGICAL_BYTES : ℕ := 64 * 1024 * 1024
def MAX_LEAF_EXTENTS : ℕ := 1024
def MAX_INNER_CHILDREN : ℕ := 1024
def MAX_TREE_LEVEL : ℕ := 16

/-- Why a tree operation is refused. -/
inductive ManifestTreeError (ObjectId : Type) where
  | io (kind : IoErrorKind)
  | metadata (error : MetadataFormatError)
  | inner (error : ManifestInnerNodeError)
  | identityMismatch (objectId : ObjectId)
  | invalidTree
  | invalidReplacement
  | treeTooDeep
  | treeTooLarge
  | arithmeticOverflow
  deriving DecidableEq

/-- A root with the figures a caller expects of it. -/
structure ManifestTreeSummary (ObjectId : Type) where
  root : ObjectId
  logicalSize : ℕ
  allocatedBytes : ℕ
  deriving DecidableEq

/-- An extent at its place in the file. -/
structure ManifestRangeExtent where
  logicalOffset : ℕ
  extent : ManifestExtent
  deriving DecidableEq

/-- The root of an edit, with every node that it encoded. -/
structure EncodedManifestTree (ObjectId : Type) where
  root : ObjectId
  encoded : List (ObjectId × ManifestNode ObjectId)

/-- A node as its parent will list it. -/
structure NodeRef (ObjectId : Type) where
  logicalLength : ℕ
  allocatedBytes : ℕ
  objectId : ObjectId
  deriving DecidableEq

/-- A node still to be read, and what its parent said of it. -/
structure PendingNode (ObjectId : Type) where
  objectId : ObjectId
  absoluteOffset : ℕ
  expectedLength : Option ℕ
  expectedLevel : Option ℕ
  expectedAllocatedBytes : Option ℕ

/-- `decode_manifest_node` over the reader of a store. -/
abbrev NodeReader (ObjectId : Type) :=
  ObjectId → Except (ManifestTreeError ObjectId) (ManifestNode ObjectId)

/-- An edit notes the nodes that it encodes. -/
abbrev Edit (ObjectId : Type) :=
  StateT (List (ObjectId × ManifestNode ObjectId)) (Except (ManifestTreeError ObjectId))

variable {ObjectId σ : Type}

def extentsLength (extents : List ManifestExtent) : Except (ManifestTreeError ObjectId) ℕ :=
  extents.foldlM
    (fun total extent => checkedAdd .arithmeticOverflow total extent.logicalLength) 0

/-- Adds bytes of an extent to an allocation total, unless the extent is a hole. -/
def addAllocated (total : ℕ) (extent : ManifestExtent) (bytes : ℕ) :
    Except (ManifestTreeError ObjectId) ℕ :=
  if extent.isHole then .ok total else checkedAdd .arithmeticOverflow total bytes

def manifestAllocatedBytes (extents : List ManifestExtent) :
    Except (ManifestTreeError ObjectId) ℕ :=
  extents.foldlM (fun total extent => addAllocated total extent extent.logicalLength) 0

/-- Whether a node's facts are those its parent announced. -/
def PendingNode.admits (candidate : PendingNode ObjectId) (level logicalLength allocatedBytes : ℕ) :
    Bool :=
  candidate.expectedLevel.all (· == level) &&
    candidate.expectedLength.all (· == logicalLength) &&
    candidate.expectedAllocatedBytes.all (· == allocatedBytes)

/-- Reads a node and checks it against its parent, as every traversal does first. -/
def openNode (read : NodeReader ObjectId) (candidate : PendingNode ObjectId) :
    Except (ManifestTreeError ObjectId) (ManifestNode ObjectId) := do
  match ← read candidate.objectId with
  | .leaf leaf =>
    let allocatedBytes ← manifestAllocatedBytes leaf.extents
    require (candidate.admits 0 leaf.fileLength allocatedBytes = false) .invalidTree
    return .leaf leaf
  | .inner node =>
    let allocatedBytes ← node.allocatedBytes.mapError .inner
    require (candidate.admits node.level node.fileLength allocatedBytes = false ∨
      node.level > MAX_TREE_LEVEL) .invalidTree
    return .inner node

def PendingNode.ofRoot (root : ObjectId) (expectedLength expectedAllocatedBytes : Option ℕ) :
    PendingNode ObjectId :=
  { objectId := root, absoluteOffset := 0, expectedLength, expectedLevel := none,
    expectedAllocatedBytes }

/-- A child, with what its parent says of it. -/
def pendingChild (parent : PendingNode ObjectId) (child : ManifestChildRange ObjectId)
    (level : ℕ) : Except (ManifestTreeError ObjectId) (PendingNode ObjectId) := do
  let absoluteOffset ← checkedAdd .arithmeticOverflow parent.absoluteOffset child.logicalOffset
  return { objectId := child.child, absoluteOffset, expectedLength := some child.logicalLength,
           expectedLevel := some level, expectedAllocatedBytes := some child.allocatedBytes }

def nodeRefFromChild (child : ManifestChildRange ObjectId) : NodeRef ObjectId :=
  { logicalLength := child.logicalLength, allocatedBytes := child.allocatedBytes,
    objectId := child.child }

/-- The half-open ranges meet. -/
def meets (requested : Option (ℕ × ℕ)) (start finish : ℕ) : Bool :=
  requested.all fun (requestedStart, requestedEnd) =>
    decide (finish > requestedStart ∧ start < requestedEnd)

/-- Visits the extents of one leaf and returns where the last one ends. -/
def visitExtents (requested : Option (ℕ × ℕ))
    (visit : σ → ℕ → ManifestExtent → Except (ManifestTreeError ObjectId) σ) (base localOffset : ℕ)
    (state : σ) : List ManifestExtent → Except (ManifestTreeError ObjectId) (ℕ × σ)
  | [] => .ok (localOffset, state)
  | extent :: rest => do
      let absoluteOffset ← checkedAdd .arithmeticOverflow base localOffset
      let extentEnd ← checkedAdd .arithmeticOverflow absoluteOffset extent.logicalLength
      let state' ←
        if meets requested absoluteOffset extentEnd then visit state absoluteOffset extent
        else .ok state
      let localEnd ← checkedAdd .arithmeticOverflow localOffset extent.logicalLength
      visitExtents requested visit base localEnd state' rest

/-- The children of a node that a walk has still to visit. -/
def pendingChildren (requested : Option (ℕ × ℕ)) (candidate : PendingNode ObjectId)
    (childLevel : ℕ) : List (ManifestChildRange ObjectId) →
    Except (ManifestTreeError ObjectId) (List (PendingNode ObjectId))
  | [] => .ok []
  | child :: rest => do
      -- The source pushes the children in reverse, so the last one is checked first.
      let pending ← pendingChildren requested candidate childLevel rest
      let next ← pendingChild candidate child childLevel
      let childEnd ← checkedAdd .arithmeticOverflow next.absoluteOffset child.logicalLength
      return if meets requested next.absoluteOffset childEnd then next :: pending else pending

/-- Walks one subtree and returns the length of its node. -/
def walkNode (read : NodeReader ObjectId) (requested : Option (ℕ × ℕ))
    (visit : σ → ℕ → ManifestExtent → Except (ManifestTreeError ObjectId) σ) :
    ℕ → PendingNode ObjectId → σ → Except (ManifestTreeError ObjectId) (ℕ × σ)
  | 0, _, _ => .error .invalidTree
  | fuel + 1, candidate, state => do
      match ← openNode read candidate with
      | .leaf leaf =>
        let (localOffset, state') ←
          visitExtents requested visit candidate.absoluteOffset 0 state leaf.extents
        require (localOffset ≠ leaf.fileLength) .invalidTree
        return (leaf.fileLength, state')
      | .inner node =>
        let pending ← pendingChildren requested candidate (node.level - 1) node.children
        let state' ← pending.foldlM
          (fun reached child => do
            let (_, reached') ← walkNode read requested visit fuel child reached
            return reached') state
        return (node.fileLength, state')

/-- Visits the extents of a range in file order. -/
def walkManifestTree (root : ObjectId) (requested : Option (ℕ × ℕ))
    (expectedRootLength : Option ℕ) (read : NodeReader ObjectId)
    (visit : σ → ℕ → ManifestExtent → Except (ManifestTreeError ObjectId) σ) (state : σ) :
    Except (ManifestTreeError ObjectId) (ℕ × σ) :=
  walkNode read requested visit (MAX_TREE_LEVEL + 1)
    (PendingNode.ofRoot root expectedRootLength none) state

/-- Walks the complete tree, visits its extents in order and counts what it allocates. -/
def scanManifestTree (root : ObjectId) (read : NodeReader ObjectId)
    (visit : σ → ℕ → ManifestExtent → Except (ManifestTreeError ObjectId) σ) (state : σ) :
    Except (ManifestTreeError ObjectId) (ManifestTreeSummary ObjectId × σ) := do
  let (logicalSize, allocatedBytes, state') ← walkManifestTree root none none read
    (fun (allocated, reached) offset extent => do
      let allocated' ← addAllocated allocated extent extent.logicalLength
      let reached' ← visit reached offset extent
      return (allocated', reached')) (0, state)
  return ({ root, logicalSize, allocatedBytes }, state')

/-- The extents that meet a range, at their places. -/
def readManifestTreeRange (root : ObjectId) (expectedLogicalSize offset length : ℕ)
    (read : NodeReader ObjectId) :
    Except (ManifestTreeError ObjectId) (List ManifestRangeExtent) :=
  if length = 0 ∨ offset ≥ expectedLogicalSize then .ok []
  else do
    let finish := min (min (offset + length) (2 ^ 64 - 1)) expectedLogicalSize
    let (logicalSize, extents) ← walkManifestTree root (some (offset, finish))
      (some expectedLogicalSize) read
      (fun extents logicalOffset extent => .ok (extents ++ [{ logicalOffset, extent }])) []
    require (logicalSize ≠ expectedLogicalSize) .invalidTree
    return extents

/-- The allocated bytes of one leaf inside the requested range, added to `allocated`. -/
def addLeafAllocation (offset finish base localOffset allocated : ℕ) :
    List ManifestExtent → Except (ManifestTreeError ObjectId) ℕ
  | [] => .ok allocated
  | extent :: rest => do
      let absoluteOffset ← checkedAdd .arithmeticOverflow base localOffset
      let extentEnd ← checkedAdd .arithmeticOverflow absoluteOffset extent.logicalLength
      let allocated' ← addAllocated allocated extent
        (min extentEnd finish - max absoluteOffset offset)
      let localEnd ← checkedAdd .arithmeticOverflow localOffset extent.logicalLength
      addLeafAllocation offset finish base localEnd allocated' rest

/-- Adds the children that lie inside the requested range by their announced totals and
returns those that only meet it. -/
def addChildAllocation (offset finish : ℕ) (candidate : PendingNode ObjectId) (childLevel : ℕ)
    (allocated : ℕ) : List (ManifestChildRange ObjectId) →
    Except (ManifestTreeError ObjectId) (ℕ × List (PendingNode ObjectId))
  | [] => .ok (allocated, [])
  | child :: rest => do
      let (allocated', pending) ←
        addChildAllocation offset finish candidate childLevel allocated rest
      let next ← pendingChild candidate child childLevel
      let childEnd ← checkedAdd .arithmeticOverflow next.absoluteOffset child.logicalLength
      if childEnd ≤ offset ∨ next.absoluteOffset ≥ finish then
        return (allocated', pending)
      else if offset ≤ next.absoluteOffset ∧ childEnd ≤ finish then
        let total ← checkedAdd .arithmeticOverflow allocated' child.allocatedBytes
        return (total, pending)
      else
        return (allocated', next :: pending)

/-- A child that lies inside the range counts without being read. -/
def addNodeAllocation (read : NodeReader ObjectId) (offset finish : ℕ) :
    ℕ → PendingNode ObjectId → ℕ → Except (ManifestTreeError ObjectId) ℕ
  | 0, _, _ => .error .invalidTree
  | fuel + 1, candidate, allocated => do
      match ← openNode read candidate with
      | .leaf leaf =>
        addLeafAllocation offset finish candidate.absoluteOffset 0 allocated leaf.extents
      | .inner node =>
        let (allocated', pending) ←
          addChildAllocation offset finish candidate (node.level - 1) allocated node.children
        pending.foldlM
          (fun total child => addNodeAllocation read offset finish fuel child total) allocated'

def allocatedBytesInManifestTreeRange (root : ObjectId) (expectedLogicalSize offset length : ℕ)
    (read : NodeReader ObjectId) : Except (ManifestTreeError ObjectId) ℕ :=
  if length = 0 ∨ offset ≥ expectedLogicalSize then .ok 0
  else
    let finish := min (min (offset + length) (2 ^ 64 - 1)) expectedLogicalSize
    addNodeAllocation read offset finish (MAX_TREE_LEVEL + 1)
      (PendingNode.ofRoot root (some expectedLogicalSize) none) 0

def allocatedBytesInRange (requestedStart requestedEnd : ℕ) (extents : List ManifestRangeExtent) :
    Except (ManifestTreeError ObjectId) ℕ :=
  extents.foldlM
    (fun total located =>
      if located.extent.isHole then .ok total
      else do
        let extentEnd ← checkedAdd .arithmeticOverflow located.logicalOffset
          located.extent.logicalLength
        checkedAdd .arithmeticOverflow total
          (min extentEnd requestedEnd - max located.logicalOffset requestedStart)) 0

/-- The part of an extent of `selectedLength` bytes that starts `skipped` bytes into it. -/
def sliceExtent (skipped selectedLength : ℕ) :
    ManifestExtent → Except (ManifestTreeError ObjectId) ManifestExtent
  | .data logicalLength chunkId =>
    if selectedLength = logicalLength then .ok (.data logicalLength chunkId)
    else do
      let chunkLength ← toU32 .arithmeticOverflow logicalLength
      let chunkOffset ← toU32 .arithmeticOverflow skipped
      return .dataSlice selectedLength chunkId chunkLength chunkOffset
  | .dataSlice _ chunkId chunkLength chunkOffset => do
      let shift ← toU32 .arithmeticOverflow skipped
      let chunkOffset' ← toU32 .arithmeticOverflow (chunkOffset + shift)
      return .dataSlice selectedLength chunkId chunkLength chunkOffset'
  | .hole _ => .ok (.hole selectedLength)
  | .fill _ value => .ok (.fill selectedLength value)

/-- The selected part of an extent that covers the range from `cursor` to `finish`. -/
def selectExtent (requestedStart requestedEnd cursor finish : ℕ) (extent : ManifestExtent) :
    Except (ManifestTreeError ObjectId) (List ManifestExtent) :=
  let start := max cursor requestedStart
  let selectedEnd := min finish requestedEnd
  if start < selectedEnd then do
    let selected ← sliceExtent (start - cursor) (selectedEnd - start) extent
    return [selected]
  else
    .ok []

def sliceExtentsFrom (requestedStart requestedEnd cursor : ℕ) :
    List ManifestExtent → Except (ManifestTreeError ObjectId) (List ManifestExtent)
  | [] => do
      require (cursor < requestedEnd) .invalidReplacement
      return []
  | extent :: rest => do
      let finish ← checkedAdd .arithmeticOverflow cursor extent.logicalLength
      let selected ← selectExtent requestedStart requestedEnd cursor finish extent
      if finish ≥ requestedEnd then
        return selected
      else
        let others ← sliceExtentsFrom requestedStart requestedEnd finish rest
        return selected ++ others

/-- The extents cut to a range. -/
def sliceExtents (extents : List ManifestExtent) (requestedStart requestedEnd : ℕ) :
    Except (ManifestTreeError ObjectId) (List ManifestExtent) := do
  require (requestedStart > requestedEnd) .invalidReplacement
  sliceExtentsFrom requestedStart requestedEnd 0 extents

section Building

variable (identity : ManifestNode ObjectId → ObjectId)

/-- Encodes a node and hands it to `remember_object`. -/
def encodeNode (node : ManifestNode ObjectId) : Edit ObjectId ObjectId :=
  fun encoded => .ok (identity node, encoded ++ [(identity node, node)])

/-- The first node of an identity is kept. -/
def rememberObject [DecidableEq ObjectId] (objects : List (ObjectId × ManifestNode ObjectId))
    (object : ObjectId × ManifestNode ObjectId) : List (ObjectId × ManifestNode ObjectId) :=
  if object.1 ∈ objects.map Prod.fst then objects else objects ++ [object]

/-- The objects that an edit returns. -/
def EncodedManifestTree.objects [DecidableEq ObjectId] (tree : EncodedManifestTree ObjectId) :
    List (ObjectId × ManifestNode ObjectId) :=
  tree.encoded.foldl rememberObject []

/-- Encodes a leaf and refers to it. -/
def pushLeaf (extents : List ManifestExtent) (logicalLength : ℕ) :
    Edit ObjectId (NodeRef ObjectId) := do
  let leaf ← check ((ManifestLeaf.new logicalLength extents).mapError .metadata)
  let allocatedBytes ← check (manifestAllocatedBytes leaf.extents)
  let objectId ← encodeNode identity (.leaf leaf)
  return { logicalLength, allocatedBytes, objectId }

/-- Leaves end at multiples of the target length. -/
def nextWindowEnd (offset : ℕ) : ℕ :=
  let finish := (offset / LEAF_TARGET_LOGICAL_BYTES + 1) * LEAF_TARGET_LOGICAL_BYTES
  if finish < 2 ^ 64 then finish else 2 ^ 64 - 1

/-- Collects extents in `current`, which started at `leafStart`, until the leaf is full or
the end of its window is reached. -/
def encodeLeavesFrom (current : List ManifestExtent) (leafStart cursor windowEnd : ℕ) :
    List ManifestExtent → Edit ObjectId (List (NodeRef ObjectId))
  | [] => do
      if current.isEmpty then
        return []
      else
        let leaf ← pushLeaf identity current (cursor - leafStart)
        return [leaf]
  | extent :: rest => do
      let cursor' ← check (checkedAdd .arithmeticOverflow cursor extent.logicalLength)
      let collected := current ++ [extent]
      if collected.length = MAX_LEAF_EXTENTS ∨ cursor' ≥ windowEnd then
        let leaf ← pushLeaf identity collected (cursor' - leafStart)
        let leaves ← encodeLeavesFrom [] cursor' cursor' (nextWindowEnd cursor') rest
        return leaf :: leaves
      else
        encodeLeavesFrom collected leafStart cursor' windowEnd rest

/-- Packs extents into leaves, window by window. -/
def encodeLeaves (extents : List ManifestExtent) : Edit ObjectId (List (NodeRef ObjectId)) := do
  if extents.isEmpty then
    let leaf ← check ((ManifestLeaf.new 0 []).mapError .metadata)
    let objectId ← encodeNode identity (.leaf leaf)
    return [{ logicalLength := 0, allocatedBytes := 0, objectId }]
  else
    encodeLeavesFrom identity [] 0 0 (nextWindowEnd 0) extents

/-- The ranges of a group of children, placed one after the other from `offset`. -/
def childRanges (offset : ℕ) : List (NodeRef ObjectId) →
    Except (ManifestTreeError ObjectId) (List (ManifestChildRange ObjectId) × ℕ)
  | [] => .ok ([], offset)
  | child :: rest => do
      let range ← (ManifestChildRange.newWithAllocatedBytes offset child.logicalLength
        child.allocatedBytes child.objectId).mapError ManifestTreeError.inner
      let next ← checkedAdd .arithmeticOverflow offset child.logicalLength
      let (ranges, finish) ← childRanges next rest
      return (range :: ranges, finish)

/-- Encodes an inner node over the children. -/
def encodeParent (level : ℕ) (children : List (NodeRef ObjectId)) :
    Edit ObjectId (NodeRef ObjectId) := do
  let (ranges, logicalLength) ← check (childRanges 0 children)
  let node ← check ((ManifestInnerNode.new logicalLength level ranges).mapError .inner)
  let objectId ← encodeNode identity (.inner node)
  let allocatedBytes ← check (children.foldlM
    (fun total child => checkedAdd .arithmeticOverflow total child.allocatedBytes) 0)
  return { logicalLength, allocatedBytes, objectId }

/-- One inner node for each full group of children. -/
def encodeParents (level : ℕ) (children : List (NodeRef ObjectId)) :
    Edit ObjectId (List (NodeRef ObjectId)) :=
  (children.toChunks MAX_INNER_CHILDREN).mapM (encodeParent identity level)

/-- Groups children under parents of the given level. -/
def encodeParentForest (level : ℕ) (children : List (NodeRef ObjectId)) :
    Edit ObjectId (List (NodeRef ObjectId)) := do
  check (require (level = 0 ∨ level > MAX_TREE_LEVEL ∨ children.isEmpty) .invalidTree)
  encodeParents identity level children

/-- Adds levels over a forest of the given level until one root is left. -/
def raiseForest (parents : ℕ → List (NodeRef ObjectId) → Edit ObjectId (List (NodeRef ObjectId))) :
    ℕ → ℕ → List (NodeRef ObjectId) → Edit ObjectId (NodeRef ObjectId)
  | 0, _, _ => throw .treeTooDeep
  | fuel + 1, level, forest =>
    match forest with
    | [] => throw .invalidTree
    | [root] => return root
    | _ => do
        check (require (level + 1 > MAX_TREE_LEVEL) .treeTooDeep)
        let forest' ← parents (level + 1) forest
        raiseForest parents fuel (level + 1) forest'

def validateLayout (fileLength : ℕ) (extents : List ManifestExtent) :
    Except (ManifestTreeError ObjectId) Unit :=
  (validatePartition fileLength extents).mapError ManifestTreeError.metadata

/-- A tree built from its extents. -/
def encodeManifestTree (logicalSize : ℕ) (extents : List ManifestExtent) :
    Except (ManifestTreeError ObjectId) (EncodedManifestTree ObjectId) := do
  validateLayout logicalSize extents
  let (root, encoded) ← StateT.run (do
    let leaves ← encodeLeaves identity extents
    raiseForest (encodeParents identity) (MAX_TREE_LEVEL + 1) 0 leaves) []
  return { root := root.objectId, encoded }

/-- The reference of a node that an edit leaves as it is. -/
def unchangedLeaf (candidate : PendingNode ObjectId) (leaf : ManifestLeaf) :
    Except (ManifestTreeError ObjectId) (NodeRef ObjectId) := do
  let allocatedBytes ← manifestAllocatedBytes leaf.extents
  return { logicalLength := leaf.fileLength, allocatedBytes, objectId := candidate.objectId }

/-- The leaf branch of `rewrite_node`. -/
def rewriteLeaf (start finish : ℕ) (replacement : List ManifestExtent)
    (candidate : PendingNode ObjectId) (leaf : ManifestLeaf) :
    Edit ObjectId (NodeRef ObjectId) := do
  let leafEnd ← check (checkedAdd .arithmeticOverflow candidate.absoluteOffset leaf.fileLength)
  let overlapStart := max start candidate.absoluteOffset
  let overlapEnd := min finish leafEnd
  if overlapStart ≥ overlapEnd then
    check (unchangedLeaf candidate leaf)
  else
    let before ← check (sliceExtents leaf.extents 0 (overlapStart - candidate.absoluteOffset))
    let inside ← check (sliceExtents replacement (overlapStart - start) (overlapEnd - start))
    let after ← check (sliceExtents leaf.extents (overlapEnd - candidate.absoluteOffset)
      leaf.fileLength)
    pushLeaf identity (before ++ inside ++ after) leaf.fileLength

/-- The reference of one child after the rewrite, at its old offset. -/
def rewriteChild (rewrite : PendingNode ObjectId → Edit ObjectId (NodeRef ObjectId))
    (start finish : ℕ) (candidate : PendingNode ObjectId) (childLevel : ℕ)
    (child : ManifestChildRange ObjectId) : Edit ObjectId (ManifestChildRange ObjectId) := do
  let pending ← check (pendingChild candidate child childLevel)
  let absoluteEnd ← check
    (checkedAdd .arithmeticOverflow pending.absoluteOffset child.logicalLength)
  let childRef ← if absoluteEnd > start ∧ pending.absoluteOffset < finish then rewrite pending
    else pure (nodeRefFromChild child)
  check ((ManifestChildRange.newWithAllocatedBytes child.logicalOffset childRef.logicalLength
    childRef.allocatedBytes childRef.objectId).mapError .inner)

/-- Rewrites the leaves that meet the range and the nodes above them. -/
def rewriteNode (read : NodeReader ObjectId) (start finish : ℕ)
    (replacement : List ManifestExtent) :
    ℕ → PendingNode ObjectId → Edit ObjectId (NodeRef ObjectId)
  | 0, _ => throw .invalidTree
  | fuel + 1, candidate => do
      match ← check (openNode read candidate) with
      | .leaf leaf => rewriteLeaf identity start finish replacement candidate leaf
      | .inner node =>
        let children ← node.children.mapM
          (rewriteChild (rewriteNode read start finish replacement fuel) start finish candidate
            (node.level - 1))
        let rewritten ← check
          ((ManifestInnerNode.new node.fileLength node.level children).mapError .inner)
        let allocatedBytes ← check (rewritten.allocatedBytes.mapError .inner)
        let objectId ← encodeNode identity (.inner rewritten)
        return { logicalLength := node.fileLength, allocatedBytes, objectId }

/-- Replaces a range by extents of the same length. -/
def rewriteManifestTreeRange (root : ObjectId) (expectedLogicalSize start finish : ℕ)
    (replacement : List ManifestExtent) (read : NodeReader ObjectId) :
    Except (ManifestTreeError ObjectId) (EncodedManifestTree ObjectId) := do
  require (start > finish ∨ finish > expectedLogicalSize) .invalidReplacement
  let replacementLength ← extentsLength replacement
  require (finish - start ≠ replacementLength) .invalidReplacement
  validateLayout replacementLength replacement
  if start = finish then
    return { root, encoded := [] }
  else
    let (rewritten, encoded) ← (rewriteNode identity read start finish replacement
      (MAX_TREE_LEVEL + 1) (PendingNode.ofRoot root (some expectedLogicalSize) none)).run []
    require (rewritten.logicalLength ≠ expectedLogicalSize) .invalidTree
    return { root := rewritten.objectId, encoded }

def rewriteManifestTreeRangeSuccessor (previous : ManifestTreeSummary ObjectId)
    (start finish : ℕ) (replacement : List ManifestExtent) (read : NodeReader ObjectId) :
    Except (ManifestTreeError ObjectId)
      (EncodedManifestTree ObjectId × ManifestTreeSummary ObjectId) := do
  require (start > finish ∨ finish > previous.logicalSize) .invalidReplacement
  let touched ← readManifestTreeRange previous.root previous.logicalSize start (finish - start) read
  let removedAllocated ← allocatedBytesInRange start finish touched
  let addedAllocated ← manifestAllocatedBytes replacement
  let tree ← rewriteManifestTreeRange identity previous.root previous.logicalSize start finish
    replacement read
  let remaining ← checkedSub .arithmeticOverflow previous.allocatedBytes removedAllocated
  let allocatedBytes ← checkedAdd .arithmeticOverflow remaining addedAllocated
  return (tree, { root := tree.root, logicalSize := previous.logicalSize, allocatedBytes })

/-- Only the right edge of the tree is rewritten. -/
def appendLeavesToRightSpine (read : NodeReader ObjectId)
    (appendedLeaves : List (NodeRef ObjectId)) :
    ℕ → PendingNode ObjectId → Edit ObjectId (ℕ × List (NodeRef ObjectId))
  | 0, _ => throw .invalidTree
  | fuel + 1, candidate => do
      match ← check (openNode read candidate) with
      | .leaf leaf =>
        if leaf.fileLength ≠ 0 then
          let reference ← check (unchangedLeaf candidate leaf)
          return (0, reference :: appendedLeaves)
        else
          return (0, appendedLeaves)
      | .inner node =>
        match node.children.getLast? with
        | none => throw .invalidTree
        | some last =>
          let pending ← check (pendingChild candidate last (node.level - 1))
          let (observedLevel, appendedChildren) ←
            appendLeavesToRightSpine read appendedLeaves fuel pending
          check (require (observedLevel ≠ node.level - 1) .invalidTree)
          let parents ← encodeParentForest identity node.level
            (node.children.dropLast.map nodeRefFromChild ++ appendedChildren)
          return (node.level, parents)

/-- Appends extents at the end of the file. -/
def appendManifestTree (previous : ManifestTreeSummary ObjectId) (appended : List ManifestExtent)
    (read : NodeReader ObjectId) :
    Except (ManifestTreeError ObjectId)
      (EncodedManifestTree ObjectId × ManifestTreeSummary ObjectId) := do
  let appendedLength ← extentsLength appended
  require (appendedLength = 0) .invalidReplacement
  let appendedAllocated ← manifestAllocatedBytes appended
  let logicalSize ← checkedAdd .arithmeticOverflow previous.logicalSize appendedLength
  let allocatedBytes ← checkedAdd .arithmeticOverflow previous.allocatedBytes appendedAllocated
  validateLayout appendedLength appended
  let (root, encoded) ← StateT.run (do
    let appendedLeaves ← encodeLeaves identity appended
    let (level, forest) ← appendLeavesToRightSpine identity read appendedLeaves
      (MAX_TREE_LEVEL + 1)
      (PendingNode.ofRoot previous.root (some previous.logicalSize) (some previous.allocatedBytes))
    raiseForest (encodeParentForest identity) (MAX_TREE_LEVEL + 1) level forest) []
  return ({ root := root.objectId, encoded },
    { root := root.objectId, logicalSize, allocatedBytes })

/-- The children that a truncation keeps. The child that holds the cut is truncated itself. -/
def retainChildren (truncate : PendingNode ObjectId → ℕ → Edit ObjectId (NodeRef ObjectId))
    (candidate : PendingNode ObjectId) (childLevel retainedLength : ℕ) :
    List (ManifestChildRange ObjectId) → Edit ObjectId (List (NodeRef ObjectId))
  | [] => return []
  | child :: rest => do
      let childEnd ← check
        (checkedAdd .arithmeticOverflow child.logicalOffset child.logicalLength)
      if retainedLength ≥ childEnd then
        if retainedLength = childEnd then
          return [nodeRefFromChild child]
        else
          let retained ← retainChildren truncate candidate childLevel retainedLength rest
          return nodeRefFromChild child :: retained
      else if retainedLength > child.logicalOffset then
        let pending ← check (pendingChild candidate child childLevel)
        let last ← truncate pending (retainedLength - child.logicalOffset)
        return [last]
      else
        return []

/-- Keeps the children before the cut and cuts the one it falls into. -/
def truncateNode (read : NodeReader ObjectId) :
    ℕ → PendingNode ObjectId → ℕ → Edit ObjectId (NodeRef ObjectId)
  | 0, _, _ => throw .invalidTree
  | fuel + 1, candidate, retainedLength => do
      check (require (retainedLength = 0 ∨ candidate.expectedLength.any (retainedLength ≥ ·))
        .invalidReplacement)
      match ← check (openNode read candidate) with
      | .leaf leaf =>
        let extents ← check (sliceExtents leaf.extents 0 retainedLength)
        pushLeaf identity extents retainedLength
      | .inner node =>
        let retained ← retainChildren (truncateNode read fuel) candidate (node.level - 1)
          retainedLength node.children
        check (require (retained.isEmpty) .invalidTree)
        let parents ← encodeParentForest identity node.level retained
        match parents with
        | [root] =>
          check (require (root.logicalLength ≠ retainedLength) .invalidTree)
          return root
        | _ => throw .invalidTree

/-- Cuts the file at a length. -/
def truncateManifestTree (previous : ManifestTreeSummary ObjectId) (logicalSize : ℕ)
    (read : NodeReader ObjectId) :
    Except (ManifestTreeError ObjectId)
      (EncodedManifestTree ObjectId × ManifestTreeSummary ObjectId) := do
  require (logicalSize ≥ previous.logicalSize) .invalidReplacement
  if logicalSize = 0 then
    let tree ← encodeManifestTree identity 0 []
    return (tree, { root := tree.root, logicalSize := 0, allocatedBytes := 0 })
  else
    let (root, encoded) ← (truncateNode identity read (MAX_TREE_LEVEL + 1)
      (PendingNode.ofRoot previous.root (some previous.logicalSize) (some previous.allocatedBytes))
      logicalSize).run []
    require (root.logicalLength ≠ logicalSize) .invalidTree
    return ({ root := root.objectId, encoded },
      { root := root.objectId, logicalSize, allocatedBytes := root.allocatedBytes })

def encodeExtentsAtLevel (extents : List ManifestExtent) (targetLevel : ℕ) :
    Edit ObjectId (List (NodeRef ObjectId)) := do
  if extents.isEmpty then
    return []
  else
    let logicalLength ← check (extentsLength extents)
    check (validateLayout logicalLength extents)
    let leaves ← encodeLeaves identity extents
    (List.range targetLevel).foldlM
      (fun forest level => encodeParentForest identity (level + 1) forest) leaves

/-- Whether a child holds the replaced range; an empty range must lie strictly inside. -/
def containsRange (start finish childStart childEnd : ℕ) : Bool :=
  if start = finish then decide (childStart < start ∧ start < childEnd)
  else decide (childStart ≤ start ∧ finish ≤ childEnd)

/-- The first child that holds the whole replaced range, with the children around it. -/
def containingChild (start finish : ℕ) : List (ManifestChildRange ObjectId) →
    Except (ManifestTreeError ObjectId) (Option (List (ManifestChildRange ObjectId) ×
      ManifestChildRange ObjectId × List (ManifestChildRange ObjectId)))
  | [] => .ok none
  | child :: rest => do
      let childEnd ← checkedAdd .arithmeticOverflow child.logicalOffset child.logicalLength
      if containsRange start finish child.logicalOffset childEnd then
        return some ([], child, rest)
      else
        let found ← containingChild start finish rest
        return found.map fun (before, target, after) => (child :: before, target, after)

/-- Splices one child and checks that its level is the one its parent announced. -/
def spliceChild (splice : PendingNode ObjectId → ℕ → ℕ → List ManifestExtent →
      Edit ObjectId (ℕ × List (NodeRef ObjectId)))
    (candidate : PendingNode ObjectId) (childLevel : ℕ) (child : ManifestChildRange ObjectId)
    (start finish : ℕ) (replacement : List ManifestExtent) :
    Edit ObjectId (List (NodeRef ObjectId)) := do
  let pending ← check (pendingChild candidate child childLevel)
  let (observedLevel, rewritten) ← splice pending start finish replacement
  check (require (observedLevel ≠ childLevel) .invalidTree)
  return rewritten

/-- What stays of a child before the replaced range. -/
def keepBefore (spliceTail : ManifestChildRange ObjectId → ℕ → ℕ →
      Edit ObjectId (List (NodeRef ObjectId)))
    (start : ℕ) (child : ManifestChildRange ObjectId) :
    Edit ObjectId (List (NodeRef ObjectId)) := do
  let childEnd ← check (checkedAdd .arithmeticOverflow child.logicalOffset child.logicalLength)
  if childEnd ≤ start then
    return [nodeRefFromChild child]
  else if child.logicalOffset < start then
    spliceTail child (start - child.logicalOffset) child.logicalLength
  else
    return []

/-- What stays of a child after the replaced range. -/
def keepAfter (spliceHead : ManifestChildRange ObjectId → ℕ → ℕ →
      Edit ObjectId (List (NodeRef ObjectId)))
    (finish : ℕ) (child : ManifestChildRange ObjectId) :
    Edit ObjectId (List (NodeRef ObjectId)) := do
  let childEnd ← check (checkedAdd .arithmeticOverflow child.logicalOffset child.logicalLength)
  if child.logicalOffset ≥ finish then
    return [nodeRefFromChild child]
  else if childEnd > finish then
    spliceHead child 0 (finish - child.logicalOffset)
  else
    return []

def spliceChildren (splice : ManifestChildRange ObjectId → ℕ → ℕ → List ManifestExtent →
      Edit ObjectId (List (NodeRef ObjectId)))
    (childLevel start finish : ℕ) (replacement : List ManifestExtent)
    (children : List (ManifestChildRange ObjectId)) : Edit ObjectId (List (NodeRef ObjectId)) := do
  match ← check (containingChild start finish children) with
  | some (before, target, after) =>
    let rewritten ← splice target (start - target.logicalOffset) (finish - target.logicalOffset)
      replacement
    return before.map nodeRefFromChild ++ rewritten ++ after.map nodeRefFromChild
  | none =>
    let kept ← children.mapM
      (keepBefore (fun child first last => splice child first last []) start)
    let inserted ← encodeExtentsAtLevel identity replacement childLevel
    let rest ← children.mapM
      (keepAfter (fun child first last => splice child first last []) finish)
    return kept.flatten ++ inserted ++ rest.flatten

/-- Replaces a range by extents of any length, and rebalances what it touches. -/
def spliceNode (read : NodeReader ObjectId) :
    ℕ → PendingNode ObjectId → ℕ → ℕ → List ManifestExtent →
      Edit ObjectId (ℕ × List (NodeRef ObjectId))
  | 0, _, _, _, _ => throw .invalidTree
  | fuel + 1, candidate, start, finish, replacement => do
      match ← check (openNode read candidate) with
      | .leaf leaf =>
        check (require (start > finish ∨ finish > leaf.fileLength) .invalidTree)
        let before ← check (sliceExtents leaf.extents 0 start)
        let after ← check (sliceExtents leaf.extents finish leaf.fileLength)
        let extents := before ++ replacement ++ after
        let logicalLength ← check (extentsLength extents)
        if logicalLength = 0 then
          return (0, [])
        else
          check (validateLayout logicalLength extents)
          let leaves ← encodeLeaves identity extents
          return (0, leaves)
      | .inner node =>
        check (require (start > finish ∨ finish > node.fileLength) .invalidTree)
        let children ← spliceChildren identity
          (spliceChild (spliceNode read fuel) candidate (node.level - 1)) (node.level - 1)
          start finish replacement node.children
        if children.isEmpty then
          return (node.level, [])
        else
          let parents ← encodeParentForest identity node.level children
          return (node.level, parents)

/-- Replaces a range and moves what follows. -/
def spliceManifestTree (previous : ManifestTreeSummary ObjectId) (start finish : ℕ)
    (replacement : List ManifestExtent) (read : NodeReader ObjectId) :
    Except (ManifestTreeError ObjectId)
      (EncodedManifestTree ObjectId × ManifestTreeSummary ObjectId) := do
  require (start > finish ∨ finish > previous.logicalSize ∨
    (start = finish ∧ replacement.isEmpty)) .invalidReplacement
  let replacementLength ← extentsLength replacement
  let replacementAllocated ← manifestAllocatedBytes replacement
  validateLayout replacementLength replacement
  let retainedSize ← checkedSub .arithmeticOverflow previous.logicalSize (finish - start)
  let logicalSize ← checkedAdd .arithmeticOverflow retainedSize replacementLength
  let removedAllocated ← allocatedBytesInManifestTreeRange previous.root previous.logicalSize start
    (finish - start) read
  let retainedAllocated ← checkedSub .arithmeticOverflow previous.allocatedBytes removedAllocated
  let allocatedBytes ← checkedAdd .arithmeticOverflow retainedAllocated replacementAllocated
  if logicalSize = 0 then
    let tree ← encodeManifestTree identity 0 []
    return (tree, { root := tree.root, logicalSize := 0, allocatedBytes := 0 })
  else
    let (root, encoded) ← StateT.run (do
      let (level, forest) ← spliceNode identity read (MAX_TREE_LEVEL + 1)
        (PendingNode.ofRoot previous.root (some previous.logicalSize)
          (some previous.allocatedBytes)) start finish replacement
      raiseForest (encodeParentForest identity) (MAX_TREE_LEVEL + 1) level forest) []
    require (root.logicalLength ≠ logicalSize ∨ root.allocatedBytes ≠ allocatedBytes) .invalidTree
    return ({ root := root.objectId, encoded },
      { root := root.objectId, logicalSize, allocatedBytes })

end Building

end Fastdup.Store
