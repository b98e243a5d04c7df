import Fastdup.Store.ManifestTree.Refinement

/-!
# When a rewrite succeeds

A rewritten leaf keeps its range, so all extents that end up in it have to fit one Metadata
Object. `rewrite_node` does not split such a leaf, as the encoder of new leaves and the splice
do. A replacement of valid extents inside a valid tree therefore succeeds if and only if every
leaf it meets has room for what stays of its extents and for the part of the replacement that
falls into it; nothing else can fail.
-/

namespace Fastdup.Store

open Library Checked Format List Nat ManifestChildRange ManifestLeaf PendingNode ChildPartition

variable {ObjectId : Type}

/-- A leaf of the tree under a node at offset `base`, with the offset it stands at. -/
inductive LeafAt (read : NodeReader ObjectId) : ObjectId → ℕ → ℕ → ManifestLeaf → Prop where
  | here {objectId : ObjectId} {base : ℕ} {leaf : ManifestLeaf}
      (readable : read objectId = .ok (.leaf leaf)) : LeafAt read objectId base base leaf
  | descend {objectId : ObjectId} {base offset : ℕ} {node : ManifestInnerNode ObjectId}
      {child : ManifestChildRange ObjectId} {leaf : ManifestLeaf}
      (readable : read objectId = .ok (.inner node)) (member : child ∈ node.children)
      (beneath : LeafAt read child.child (base + child.logicalOffset) offset leaf) :
      LeafAt read objectId base offset leaf

/-- The extents of a rewritten leaf at `offset`: those before the overlap, those of the
replacement inside it and those behind it. -/
def rewrittenCount (start finish offset : ℕ) (replacement : List ManifestExtent)
    (leaf : ManifestLeaf) : ℕ :=
  let overlapStart := max start offset
  let overlapEnd := min finish (offset + leaf.fileLength)
  touchedCount 0 0 (overlapStart - offset) leaf.extents +
    touchedCount 0 (overlapStart - start) (overlapEnd - start) replacement +
    touchedCount 0 (overlapEnd - offset) leaf.fileLength leaf.extents

/-- Every leaf that the replaced range meets has room for its new extents. -/
def LeavesHaveRoom (read : NodeReader ObjectId) (start finish : ℕ)
    (replacement : List ManifestExtent) (objectId : ObjectId) (base : ℕ) : Prop :=
  ∀ offset leaf, LeafAt read objectId base offset leaf →
    max start offset < min finish (offset + leaf.fileLength) →
    rewrittenCount start finish offset replacement leaf ≤ MAX_FLATTENED_EXTENTS

variable {offset level : ℕ} {leaf : ManifestLeaf} {extents piece : List ManifestExtent}
  {child : ManifestChildRange ObjectId} {log' : List (ObjectId × ManifestNode ObjectId)}
  {children : List (ManifestChildRange ObjectId)} {candidate : PendingNode ObjectId}

theorem LeafAt.bounds {read : NodeReader ObjectId} {objectId : ObjectId} {base : ℕ}
    (at_ : LeafAt read objectId base offset leaf) (subtree : Subtree read level objectId extents) :
    base ≤ offset ∧ offset + leaf.fileLength ≤ base + totalLength extents := by
  induction at_ generalizing level extents with
  | here readable =>
    cases level with
    | zero =>
      rcases subtree with ⟨leaf', readable', rfl⟩
      cases readable.symm.trans readable'
      rw [length_eq]
      omega
    | succ level =>
      rcases subtree with ⟨node, readable', _⟩
      cases readable.symm.trans readable'
  | @descend objectId base offset node child leaf readable mem beneath ih =>
    cases level with
    | zero =>
      rcases subtree with ⟨leaf', readable', _⟩
      cases readable.symm.trans readable'
    | succ level =>
      rcases subtree with ⟨_, readable', _, forest⟩
      cases readable.symm.trans readable'
      have total := forest.size
      have inside := node.valid.partition.bounds_of_mem mem
      rcases forest.refers_of_mem (mem_map_of_mem mem) with ⟨piece, refers⟩
      have bounds := ih refers.stands
      have pieceLength := refers.length
      simp only [nodeRefFromChild] at pieceLength
      omega

section Room

variable {read : NodeReader ObjectId} {start finish base : ℕ} {replacement : List ManifestExtent}
  {objectId : ObjectId}

theorem leavesHaveRoom_leaf_iff (readable : read objectId = .ok (.leaf leaf)) :
    LeavesHaveRoom read start finish replacement objectId base ↔
      (max start base < min finish (base + leaf.fileLength) →
        rewrittenCount start finish base replacement leaf ≤ MAX_FLATTENED_EXTENTS) := by
  constructor
  · intro room
    exact room base leaf (LeafAt.here readable)
  · intro fits offset found at_
    cases at_ with
    | here readable' =>
      rw [readable] at readable'
      cases readable'
      exact fits
    | descend readable' =>
      rw [readable] at readable'
      cases readable'

theorem leavesHaveRoom_inner_iff {node : ManifestInnerNode ObjectId}
    (readable : read objectId = .ok (.inner node)) :
    LeavesHaveRoom read start finish replacement objectId base ↔ ∀ child ∈ node.children,
        LeavesHaveRoom read start finish replacement child.child (base + child.logicalOffset) := by
  constructor
  · intro room child mem offset leaf beneath
    exact room offset leaf (LeafAt.descend readable mem beneath)
  · intro room offset leaf at_
    cases at_ with
    | here readable' =>
      rw [readable] at readable'
      cases readable'
    | descend readable' mem beneath =>
      rw [readable] at readable'
      cases readable'
      exact room _ mem offset leaf beneath

theorem leavesHaveRoom_of_apart (subtree : Subtree read level objectId extents)
    (apart : base + totalLength extents ≤ start ∨ finish ≤ base ∨ finish ≤ start) :
    LeavesHaveRoom read start finish replacement objectId base := by
  intro offset leaf at_ meeting
  have bounds := at_.bounds subtree
  omega

end Room

/-- Rewriting subtrees of a level fails only for want of room, and it keeps their length. -/
structure RewritesWithRoom (read : NodeReader ObjectId) (start finish : ℕ)
    (replacement : List ManifestExtent) (level : ℕ)
    (rewrite : PendingNode ObjectId → Edit ObjectId (NodeRef ObjectId)) : Prop where
  completes : ∀ (candidate : PendingNode ObjectId) (extents : List ManifestExtent)
    (log : List (ObjectId × ManifestNode ObjectId)),
    Subtree read level candidate.objectId extents → Announces candidate level extents →
    candidate.absoluteOffset + totalLength extents < 2 ^ 64 →
    ((∃ result, rewrite candidate log = .ok result) ↔
      LeavesHaveRoom read start finish replacement candidate.objectId candidate.absoluteOffset)
  sized : ∀ (candidate : PendingNode ObjectId) (extents : List ManifestExtent)
    (log log' : List (ObjectId × ManifestNode ObjectId)) (reference : NodeRef ObjectId),
    Subtree read level candidate.objectId extents →
    rewrite candidate log = .ok (reference, log') →
    reference.logicalLength = totalLength extents ∧
      reference.allocatedBytes ≤ reference.logicalLength

section Children

variable {read : NodeReader ObjectId} {log : List (ObjectId × ManifestNode ObjectId)}
  {start finish : ℕ} {replacement : List ManifestExtent}
  {rewrite : PendingNode ObjectId → Edit ObjectId (NodeRef ObjectId)}

section

variable (rewrites : RewritesWithRoom read start finish replacement level rewrite)

include rewrites

theorem rewriteChild_completes_iff
    (refers : Refers (Subtree read level) (nodeRefFromChild child) piece)
    (positive : 0 < child.logicalLength) (allocated : child.allocatedBytes ≤ child.logicalLength)
    (placed : candidate.absoluteOffset + child.logicalOffset + child.logicalLength < 2 ^ 64) :
    (∃ result, rewriteChild rewrite start finish candidate level child log = .ok result) ↔
      LeavesHaveRoom read start finish replacement child.child
        (candidate.absoluteOffset + child.logicalOffset) := by
  have pieceLength : child.logicalLength = totalLength piece := refers.length
  have fits : candidate.absoluteOffset + child.logicalOffset < 2 ^ 64 := by omega
  have inRange : child.logicalOffset + child.logicalLength < 2 ^ 64 := by omega
  have ends : checkedAdd ManifestTreeError.arithmeticOverflow
      (ofChild candidate child level).absoluteOffset child.logicalLength =
      (.ok (candidate.absoluteOffset + child.logicalOffset + child.logicalLength) :
        Except (ManifestTreeError ObjectId) ℕ) :=
    checkedAdd_of_lt placed
  simp only [rewriteChild, state_bind_of_ok (check_of_ok (pendingChild_of_lt fits level) log),
    state_bind_of_ok (check_of_ok ends log)]
  by_cases meeting : candidate.absoluteOffset + child.logicalOffset + child.logicalLength > start ∧
      (ofChild candidate child level).absoluteOffset < finish
  · have within := rewrites.completes (ofChild candidate child level) piece log
      refers.stands (refers.announces candidate level)
      (by rwa [ofChild_absoluteOffset, ← pieceLength])
    rw [ofChild_objectId, ofChild_absoluteOffset] at within
    rw [if_pos meeting, ← within]
    simp only [state_bind_ok, check_ok, mapError_ok, newWithAllocatedBytes_ok]
    constructor
    · intro completes
      rcases completes with ⟨_, reference, log', rewritten, _⟩
      exact ⟨_, rewritten⟩
    · intro completes
      rcases completes with ⟨⟨reference, log'⟩, rewritten⟩
      have sized := rewrites.sized _ piece log log' reference refers.stands rewritten
      exact ⟨(⟨child.logicalOffset, reference.logicalLength, reference.objectId,
        reference.allocatedBytes⟩, log'), reference, log', rewritten,
        ⟨sized.2, by omega, by omega, rfl⟩, rfl⟩
  · rw [if_neg meeting]
    constructor
    · intro _
      rw [ofChild_absoluteOffset] at meeting
      apply leavesHaveRoom_of_apart refers.stands
      omega
    · intro _
      refine ⟨(child, log), ?_⟩
      simp only [state_bind_ok, state_pure_ok, check_ok, mapError_ok, newWithAllocatedBytes_ok]
      exact ⟨nodeRefFromChild child, log, rfl, ⟨allocated, positive, inRange, rfl⟩, rfl⟩

theorem rewriteChild_sized {range : ManifestChildRange ObjectId}
    (refers : Refers (Subtree read level) (nodeRefFromChild child) piece)
    (rewritten : rewriteChild rewrite start finish candidate level child log = .ok (range,
      log')) :
    range.logicalOffset = child.logicalOffset ∧ range.logicalLength = child.logicalLength ∧
      0 < range.logicalLength ∧ range.allocatedBytes ≤ range.logicalLength := by
  have pieceLength : child.logicalLength = totalLength piece := refers.length
  simp only [rewriteChild, state_bind_ok, check_ok, pendingChild_ok] at rewritten
  rcases rewritten with ⟨pending, _, ⟨⟨_, rfl⟩, rfl⟩, absoluteEnd, _, ⟨_, rfl⟩, rewritten⟩
  split at rewritten
  · simp only [state_bind_ok, check_ok, mapError_ok, newWithAllocatedBytes_ok] at rewritten
    rcases rewritten with ⟨reference, log₁, rewrittenChild, ⟨allocated, positive, _, rfl⟩, _⟩
    refine ⟨rfl, ?_, positive, allocated⟩
    rw [pieceLength]
    exact (rewrites.sized _ piece _ _ _ refers.stands rewrittenChild).1
  · simp only [state_bind_ok, state_pure_ok, check_ok, mapError_ok,
      newWithAllocatedBytes_ok] at rewritten
    rcases rewritten with ⟨reference, log₁, same, ⟨allocated, positive, _, rfl⟩, _⟩
    cases same
    exact ⟨rfl, rfl, positive, allocated⟩

variable {nodeEnd : ℕ} (partition : ChildPartition offset children nodeEnd)
  (forest : Forest (Subtree read level) (children.map nodeRefFromChild) extents)

include partition forest

theorem rewriteChildren_completes_iff (placed : candidate.absoluteOffset + nodeEnd < 2 ^ 64) :
    (∃ result, children.mapM (rewriteChild rewrite start finish candidate level) log =
        .ok result) ↔ ∀ child ∈ children, LeavesHaveRoom read start finish replacement child.child
        (candidate.absoluteOffset + child.logicalOffset) := by
  induction children generalizing offset extents log with
  | nil =>
    constructor
    · intro _ child mem
      cases mem
    · intro _
      exact ⟨([], log), rfl⟩
  | cons child rest ih =>
    rcases partition with ⟨rfl, positive, allocated, restPartition⟩
    have ordered := restPartition.le
    rcases forest with _ | ⟨refers, following⟩
    have first : ∀ staged, (∃ result, rewriteChild rewrite start finish candidate level child
        staged = .ok result) ↔ LeavesHaveRoom read start finish replacement child.child
          (candidate.absoluteOffset + child.logicalOffset) := by
      intro staged
      exact rewriteChild_completes_iff rewrites refers positive allocated (by omega)
    simp only [mapM_cons, state_bind_ok, state_pure_ok, mem_cons, forall_eq_or_imp]
    constructor
    · intro completes
      rcases completes with ⟨_, range, log₁, rewritten, ranges, log₂, others, _⟩
      exact ⟨(first log).mp ⟨_, rewritten⟩, (ih restPartition following).mp ⟨_, others⟩⟩
    · intro room
      rcases (first log).mpr room.1 with ⟨⟨range, log₁⟩, rewritten⟩
      rcases (ih restPartition following).mpr room.2 with ⟨⟨ranges, log₂⟩, others⟩
      exact ⟨_, range, log₁, rewritten, ranges, log₂, others, rfl⟩

theorem rewriteChildren_partition {ranges : List (ManifestChildRange ObjectId)}
    (rewritten : children.mapM (rewriteChild rewrite start finish candidate level) log =
      .ok (ranges, log')) :
    ChildPartition offset ranges nodeEnd ∧ ranges.length = children.length := by
  induction children generalizing offset extents log ranges with
  | nil =>
    cases rewritten
    exact ⟨partition, rfl⟩
  | cons child rest ih =>
    rcases partition with ⟨rfl, _, _, restPartition⟩
    rcases forest with _ | ⟨refers, following⟩
    simp only [mapM_cons, state_bind_ok, state_pure_ok] at rewritten
    rcases rewritten with ⟨range, log₁, rewrittenChild, others, log₂, rewrittenRest, ran⟩
    cases ran
    rcases rewriteChild_sized rewrites refers rewrittenChild with
      ⟨sameOffset, sameLength, positive, allocated⟩
    rcases ih restPartition following rewrittenRest with ⟨newPartition, sameCount⟩
    refine ⟨⟨sameOffset, positive, allocated, ?_⟩, congrArg Nat.succ sameCount⟩
    rwa [sameLength]

end

end Children

section Rewriting

variable {identity : ManifestNode ObjectId → ObjectId}
  {read : NodeReader ObjectId} {log : List (ObjectId × ManifestNode ObjectId)}
  {start finish : ℕ} {replacement : List ManifestExtent}

theorem pushLeaf_completes_iff {logicalLength : ℕ} (valid : ∀ extent ∈ extents, extent.Valid)
    (total : totalLength extents = logicalLength) (bounded : logicalLength < 2 ^ 64) :
    (∃ result, pushLeaf identity extents logicalLength log = .ok result) ↔
      extents.length ≤ MAX_FLATTENED_EXTENTS := by
  constructor
  · intro completes
    rcases completes with ⟨⟨reference, log'⟩, pushed⟩
    simp only [pushLeaf, state_bind_ok, check_ok, mapError_ok, new_ok] at pushed
    rcases pushed with ⟨leaf, _, ⟨⟨_, held⟩, _⟩, _⟩
    rw [← held]
    exact leaf.fits
  · intro fits
    have built : (ManifestLeaf.new logicalLength extents).mapError ManifestTreeError.metadata =
        (.ok ⟨logicalLength, extents, ⟨valid, total, bounded⟩, fits⟩ :
          Except (ManifestTreeError ObjectId) ManifestLeaf) :=
      mapError_ok.mpr (new_ok.mpr ⟨rfl, rfl⟩)
    set leaf : ManifestLeaf := ⟨logicalLength, extents, ⟨valid, total, bounded⟩, fits⟩
    refine ⟨(⟨logicalLength, extentAllocation leaf.extents, identity (.leaf leaf)⟩,
      log ++ [(identity (.leaf leaf), .leaf leaf)]), ?_⟩
    simp only [pushLeaf, state_bind_ok, check_ok, built, state_pure_ok]
    exact ⟨leaf, log, ⟨rfl, rfl⟩, _, log, ⟨manifestAllocatedBytes_leaf leaf, rfl⟩, _, _,
      rfl, rfl⟩

section

variable (exact : start + totalLength replacement = finish) (small : finish < 2 ^ 64)
  (valid : ∀ extent ∈ replacement, extent.Valid)

include exact small valid

theorem rewriteLeaf_completes_iff (placed : candidate.absoluteOffset + leaf.fileLength < 2 ^ 64) :
    (∃ result, rewriteLeaf identity start finish replacement candidate leaf log = .ok result) ↔
      (max start candidate.absoluteOffset <
          min finish (candidate.absoluteOffset + leaf.fileLength) →
        rewrittenCount start finish candidate.absoluteOffset replacement leaf ≤
          MAX_FLATTENED_EXTENTS) := by
  have leafLength := leaf.length_eq
  have bounded := leaf.partition.bounded
  have ends : checkedAdd ManifestTreeError.arithmeticOverflow candidate.absoluteOffset
      leaf.fileLength = (.ok (candidate.absoluteOffset + leaf.fileLength) :
        Except (ManifestTreeError ObjectId) ℕ) :=
    checkedAdd_of_lt placed
  simp only [rewriteLeaf, state_bind_of_ok (check_of_ok ends log)]
  by_cases apart : max start candidate.absoluteOffset ≥
      min finish (candidate.absoluteOffset + leaf.fileLength)
  · have kept : unchangedLeaf candidate leaf = .ok ⟨leaf.fileLength,
        extentAllocation leaf.extents, candidate.objectId⟩ := by
      simp [unchangedLeaf, manifestAllocatedBytes_leaf]
    rw [if_pos apart, check_of_ok kept]
    constructor
    · intro _ meeting
      omega
    · intro _
      exact ⟨_, rfl⟩
  · rw [if_neg apart]
    have toOverlap : max start candidate.absoluteOffset - candidate.absoluteOffset ≤
        totalLength leaf.extents := by omega
    have inOverlap : max start candidate.absoluteOffset - start ≤
        min finish (candidate.absoluteOffset + leaf.fileLength) - start := by omega
    have fromOverlap : min finish (candidate.absoluteOffset + leaf.fileLength) -
        candidate.absoluteOffset ≤ leaf.fileLength := by omega
    rcases sliceExtents_eq ObjectId leaf.partition.valid (by omega) (zero_le _) toOverlap with
      ⟨before, slicedBefore, partBefore⟩
    rcases sliceExtents_eq ObjectId valid (by omega) inOverlap (by omega) with
      ⟨inside, slicedInside, partInside⟩
    rcases sliceExtents_eq ObjectId leaf.partition.valid (by omega) fromOverlap (by omega) with
      ⟨after, slicedAfter, partAfter⟩
    rw [state_bind_of_ok (check_of_ok slicedBefore log),
      state_bind_of_ok (check_of_ok slicedInside log),
      state_bind_of_ok (check_of_ok slicedAfter log)]
    have valid' : ∀ extent ∈ before ++ inside ++ after, extent.Valid := by
      intro extent mem
      rcases mem_append.mp mem with front | behind
      · rcases mem_append.mp front with kept | new
        · exact partBefore.valid extent kept
        · exact partInside.valid extent new
      · exact partAfter.valid extent behind
    have total : totalLength (before ++ inside ++ after) = leaf.fileLength := by
      rw [← length_extentCells, extentCells_append, extentCells_append, partBefore.cells,
        partInside.cells, partAfter.cells]
      simp only [length_append, length_window, length_extentCells]
      omega
    rw [pushLeaf_completes_iff valid' total bounded, length_append, length_append,
      partBefore.count, partInside.count, partAfter.count]
    constructor
    · intro fits _
      exact fits
    · intro fits
      exact fits (by omega)

omit exact small valid in
theorem rewriteLeaf_sized {reference : NodeRef ObjectId}
    (rewritten : rewriteLeaf identity start finish replacement candidate leaf log =
      .ok (reference, log')) : reference.logicalLength = leaf.fileLength ∧
      reference.allocatedBytes ≤ reference.logicalLength := by
  have counted : ∀ held : ManifestLeaf, extentAllocation held.extents ≤ held.fileLength := by
    intro held
    rw [held.length_eq]
    exact extentAllocation_le held.extents
  simp only [rewriteLeaf, state_bind_ok] at rewritten
  rcases rewritten with ⟨leafEnd, _, _, rewritten⟩
  split at rewritten
  · simp only [check_ok, unchangedLeaf, manifestAllocatedBytes_leaf, ok_bind, pure_ok] at rewritten
    rcases rewritten with ⟨rfl, _⟩
    exact ⟨rfl, counted leaf⟩
  · simp only [state_bind_ok, pushLeaf, check_ok, mapError_ok, new_ok, state_pure_ok] at rewritten
    rcases rewritten with ⟨before, _, _, inside, _, _, after, _, _, held, _, ⟨⟨sized, _⟩, _⟩,
      allocated, _, ⟨sum, _⟩, _, _, _, ran⟩
    cases ran
    rw [manifestAllocatedBytes_leaf] at sum
    cases sum
    refine ⟨rfl, ?_⟩
    rw [← sized]
    exact counted held

theorem rewriteNode_leaf_withRoom (fuel : ℕ) : RewritesWithRoom read start finish replacement 0
      (rewriteNode identity read start finish replacement (fuel + 1)) := by
  refine ⟨?_, ?_⟩
  · intro candidate extents log subtree announces placed
    have stands := subtree
    rcases subtree with ⟨leaf, readable, rfl⟩
    have opened := (openNode_of_subtree stands readable).mpr ⟨announces, zero_le _⟩
    rw [leavesHaveRoom_leaf_iff readable, rewriteNode,
      state_bind_of_ok (check_of_ok opened log)]
    exact rewriteLeaf_completes_iff exact small valid (by rwa [leaf.length_eq])
  · intro candidate extents log log' reference subtree rewritten
    rcases subtree with ⟨leaf, readable, rfl⟩
    simp only [rewriteNode, state_bind_ok, check_ok, openNode_ok] at rewritten
    rcases rewritten with ⟨node, _, ⟨⟨readable', _⟩, rfl⟩, rewritten⟩
    rw [readable] at readable'
    cases readable'
    rw [← leaf.length_eq]
    exact rewriteLeaf_sized rewritten

omit exact small valid in
theorem rewriteNode_inner_withRoom {fuel : ℕ}
    (below : RewritesWithRoom read start finish replacement level
      (rewriteNode identity read start finish replacement fuel))
    (low : level + 1 ≤ MAX_TREE_LEVEL) : RewritesWithRoom read start finish replacement (level + 1)
      (rewriteNode identity read start finish replacement (fuel + 1)) := by
  refine ⟨?_, ?_⟩
  · intro candidate extents log subtree announces placed
    have stands := subtree
    rcases subtree with ⟨node, readable, atLevel, forest⟩
    have total := forest.size
    rw [total] at placed
    have opened := (openNode_of_subtree stands readable).mpr ⟨announces, low⟩
    rw [leavesHaveRoom_inner_iff readable, ← rewriteChildren_completes_iff below
      node.valid.partition forest placed, rewriteNode,
      state_bind_of_ok (check_of_ok opened log)]
    simp only [atLevel, Nat.add_sub_cancel, state_bind_ok]
    constructor
    · intro completes
      rcases completes with ⟨_, ranges, log₁, rewritten, _⟩
      exact ⟨_, rewritten⟩
    · intro completes
      rcases completes with ⟨⟨ranges, log₁⟩, rewritten⟩
      rcases rewriteChildren_partition below node.valid.partition forest rewritten with
        ⟨partition, sameCount⟩
      have nonempty : ranges ≠ [] := by
        intro empty
        rw [empty] at sameCount
        exact node.valid.nonempty (length_eq_zero_iff.mp sameCount.symm)
      set rewrittenNode : ManifestInnerNode ObjectId := ⟨node.fileLength, level + 1, ranges,
        succ_pos level, nonempty, partition, node.valid.bounded, sameCount ▸ node.valid.fits⟩
      simp only [check_ok, mapError_ok, ManifestInnerNode.new_ok]
      exact ⟨_, ranges, log₁, rewritten, rewrittenNode, log₁, ⟨⟨rfl, rfl, rfl⟩, rfl⟩, _,
        log₁, ⟨rewrittenNode.allocatedBytes_eq_ok, rfl⟩, _, _, rfl, rfl⟩
  · intro candidate extents log log' reference subtree rewritten
    rcases subtree with ⟨node, readable, atLevel, forest⟩
    have total := forest.size
    simp only [rewriteNode, state_bind_ok, check_ok, openNode_ok] at rewritten
    rcases rewritten with ⟨found, _, ⟨⟨readable', _⟩, rfl⟩, rewritten⟩
    rw [readable] at readable'
    cases readable'
    simp only [state_bind_ok, check_ok, mapError_ok,
      ManifestInnerNode.new_ok, state_pure_ok] at rewritten
    rcases rewritten with ⟨ranges, _, _, rewrittenNode, _, ⟨⟨sized, _, _⟩, rfl⟩, allocated, _,
      ⟨counted, rfl⟩, _, _, _, ran⟩
    cases ran
    refine ⟨total.symm, ?_⟩
    rw [rewrittenNode.allocatedBytes_eq_ok] at counted
    cases counted
    rw [← sized]
    have bound := rewrittenNode.valid.partition.allocation_le
    rwa [zero_add] at bound

theorem rewriteNode_withRoom {fuel : ℕ} (enough : level < fuel) (low : level ≤ MAX_TREE_LEVEL) :
    RewritesWithRoom read start finish replacement level
      (rewriteNode identity read start finish replacement fuel) := by
  induction fuel generalizing level with
  | zero => omega
  | succ fuel ih =>
    cases level with
    | zero => exact rewriteNode_leaf_withRoom exact small valid fuel
    | succ level =>
      have below := ih (lt_of_succ_lt_succ enough) (le_of_succ_le low)
      exact rewriteNode_inner_withRoom below low

end

section Replacing

variable {previous : ManifestTreeSummary ObjectId}

section

variable (scanned : scanExtents read previous.root = .ok (previous, extents))
  (ordered : start ≤ finish) (inside : finish ≤ previous.logicalSize)
  (partition : Partition (finish - start) replacement)

include scanned ordered inside partition

theorem rewriteManifestTreeRange_completes_iff :
    (∃ tree, rewriteManifestTreeRange identity previous.root previous.logicalSize start finish
        replacement read = .ok tree) ↔
      LeavesHaveRoom read start finish replacement previous.root 0 := by
  rcases scanned_subtree scanned with ⟨level, low, subtree, _, size, _⟩
  have bounded := subtree.bounded
  have total := partition.total
  have measured : (extentsLength replacement : Except (ManifestTreeError ObjectId) ℕ) =
      .ok (finish - start) :=
    extentsLength_ok.mpr ⟨total.symm, partition.bounded⟩
  have layout : (validateLayout (finish - start) replacement :
      Except (ManifestTreeError ObjectId) Unit) = .ok () :=
    mapError_ok.mpr (validatePartition_ok.mpr partition)
  have permitted : ¬ (start > finish ∨ finish > previous.logicalSize) := by omega
  rw [rewriteManifestTreeRange, require, if_neg permitted, ok_bind, measured, ok_bind, require,
    if_neg (not_not.mpr rfl), ok_bind, layout, ok_bind]
  split
  · constructor
    · intro _
      apply leavesHaveRoom_of_apart subtree
      omega
    · intro _
      exact ⟨_, rfl⟩
  · have rewrites : RewritesWithRoom read start finish replacement level
        (rewriteNode identity read start finish replacement (MAX_TREE_LEVEL + 1)) :=
      rewriteNode_withRoom (by omega) (by omega) partition.valid (lt_succ_of_le low) low
    set root := ofRoot previous.root (some previous.logicalSize) none
    have completes := rewrites.completes root extents [] subtree (announces_root (by simp [size]))
      (by change 0 + totalLength extents < 2 ^ 64; omega)
    rw [show LeavesHaveRoom read start finish replacement previous.root 0 ↔ _ from completes.symm]
    simp only [StateT.run, bind_ok, require_ok, pure_ok]
    constructor
    · intro ran
      rcases ran with ⟨_, result, rewritten, _⟩
      exact ⟨result, rewritten⟩
    · intro ran
      rcases ran with ⟨⟨reference, log⟩, rewritten⟩
      have sized := rewrites.sized root extents [] log reference subtree rewritten
      exact ⟨_, (reference, log), rewritten, (), not_not.mpr (sized.1.trans size.symm), rfl⟩

theorem rewriteManifestTreeRangeSuccessor_completes_iff :
    (∃ result, rewriteManifestTreeRangeSuccessor identity previous start finish replacement read =
        .ok result) ↔
      ∃ tree, rewriteManifestTreeRange identity previous.root previous.logicalSize start finish
        replacement read = .ok tree := by
  rcases scanned_subtree scanned with ⟨level, low, subtree, _, size, allocation⟩
  have bounded := subtree.bounded
  have total := partition.total
  have permitted : ¬ (start > finish ∨ finish > previous.logicalSize) := by omega
  have counted : ∃ touched, readManifestTreeRange previous.root previous.logicalSize start
      (finish - start) read = .ok touched ∧ (allocatedBytesInRange start finish touched :
        Except (ManifestTreeError ObjectId) ℕ) = .ok (rangeAllocation 0 start finish extents) := by
    by_cases empty : start = finish
    · refine ⟨[], ?_, ?_⟩
      · rw [readManifestTreeRange, if_pos (by omega)]
      · rw [rangeAllocation_outside (by omega)]
        rfl
    · rw [size]
      exact ⟨_, readManifestTreeRange_eq low subtree (by omega) (by omega),
        allocatedBytesInRange_eq bounded⟩
  rcases counted with ⟨touched, touchedRead, removedCounted⟩
  have added := extentAllocation_le replacement
  have addedCounted : (manifestAllocatedBytes replacement :
      Except (ManifestTreeError ObjectId) ℕ) = .ok (extentAllocation replacement) :=
    manifestAllocatedBytes_ok.mpr ⟨rfl, by omega⟩
  -- What is allocated after the replacement is part of the file, so no sum or difference fails.
  have balance := @spliced_allocation extents start finish replacement ordered
  have covered : allocatedCells (spliceCells start finish (extentCells replacement)
      (extentCells extents)) ≤ totalLength extents := by
    have counted := allocatedCells_le_length
      (spliceCells start finish (extentCells replacement) (extentCells extents))
    have length : (spliceCells start finish (extentCells replacement)
        (extentCells extents)).length = totalLength extents := by
      simp only [spliceCells, length_append, length_take, length_drop, length_extentCells]
      omega
    rwa [length] at counted
  have removed := rangeAllocation_le 0 start finish extents
  rw [rewriteManifestTreeRangeSuccessor, require, if_neg permitted, ok_bind, touchedRead, ok_bind,
    removedCounted, ok_bind, addedCounted, ok_bind]
  simp only [bind_ok, checkedSub_ok, checkedAdd_ok, pure_ok]
  constructor
  · intro ran
    rcases ran with ⟨_, tree, rewritten, _⟩
    exact ⟨tree, rewritten⟩
  · intro ran
    rcases ran with ⟨tree, rewritten⟩
    exact ⟨_, tree, rewritten, _, ⟨by omega, rfl⟩, _, ⟨by omega, rfl⟩, rfl⟩

end

/-- A replacement succeeds if and only if every leaf it meets has room for its new extents. -/
theorem rewrite_successor_completes_iff_leaves_have_room
    (scanned : scanExtents read previous.root = .ok (previous, extents))
    (ordered : start ≤ finish) (inside : finish ≤ previous.logicalSize)
    (partition : Partition (finish - start) replacement) :
    (∃ result, rewriteManifestTreeRangeSuccessor identity previous start finish replacement read =
        .ok result) ↔
      LeavesHaveRoom read start finish replacement previous.root 0 := by
  rw [rewriteManifestTreeRangeSuccessor_completes_iff scanned ordered inside partition]
  exact rewriteManifestTreeRange_completes_iff scanned ordered inside partition

end Replacing

end Rewriting

/-- One byte written into the leading hole of a sparse file. -/
theorem rewrite_successor_completes_in_sparse_leaf :
    LeavesHaveRoom sampleReader 5 6 [.fill 1 9] sampleSummary.root 0 := by
  have scanned : scanExtents sampleReader sampleSummary.root =
      .ok (sampleSummary, sampleExtents) := by decide
  have partition : Partition (6 - 5) [.fill 1 9] :=
    validatePartition_ok.mp (by decide : validatePartition 1 [.fill 1 9] = .ok ())
  have accepted : (rewriteManifestTreeRangeSuccessor sampleIdentity sampleSummary 5 6
      [.fill 1 9] sampleReader).toBool = true := by decide
  exact (rewrite_successor_completes_iff_leaves_have_room scanned (by decide) (by decide)
    partition).mp (exists_of_toBool accepted)

theorem touchedCount_all {base finish : ℕ} (valid : ∀ extent ∈ extents, extent.Valid)
    (covered : base + totalLength extents ≤ finish) :
    touchedCount base base finish extents = extents.length := by
  have count : (placed base extents).length = extents.length := by
    rw [← length_map Prod.snd, map_snd_placed]
  rw [touchedCount, ← count]
  apply countP_eq_length.mpr
  intro item mem
  rcases item with ⟨offset, extent⟩
  have bounds := bounds_of_mem_placed mem
  have held : extent ∈ extents := by
    rw [← map_snd_placed base extents]
    exact mem_map_of_mem mem
  have positive := (valid extent held).positive
  simp only [decide_eq_true_eq]
  omega

/-- A leaf that holds the whole range gets every extent of the replacement. -/
theorem length_le_rewrittenCount {start finish : ℕ} {replacement : List ManifestExtent}
    (partition : Partition (finish - start) replacement) (starts : offset ≤ start)
    (ends : finish ≤ offset + leaf.fileLength) :
    replacement.length ≤ rewrittenCount start finish offset replacement leaf := by
  have all : touchedCount 0 0 (finish - start) replacement = replacement.length :=
    touchedCount_all partition.valid (by rw [partition.total]; omega)
  simp only [rewrittenCount, Nat.max_eq_left starts, Nat.min_eq_left ends, Nat.sub_self, all]
  omega

def holeExtents : List ManifestExtent :=
  [.hole (MAX_FLATTENED_EXTENTS + 1)]

def holeTree : EncodedManifestTree MetadataObjectId :=
  (encodeManifestTree sampleIdentity (MAX_FLATTENED_EXTENTS + 1) holeExtents).toOption.getD
    { root := unusedId, encoded := [] }

def holeSummary : ManifestTreeSummary MetadataObjectId :=
  { root := holeTree.root, logicalSize := MAX_FLATTENED_EXTENTS + 1, allocatedBytes := 0 }

def holeReader : NodeReader MetadataObjectId :=
  overlay emptyReader holeTree.objects

/-- One extent for each byte of the hole. -/
def bytewiseFill : List ManifestExtent :=
  List.replicate (MAX_FLATTENED_EXTENTS + 1) (.fill 1 0)

theorem bytewiseFill_partition : Partition (MAX_FLATTENED_EXTENTS + 1 - 0) bytewiseFill := by
  refine ⟨?_, ?_, by decide⟩
  · intro extent mem
    rw [eq_of_mem_replicate mem]
    exact one_pos
  · simp [totalLength, bytewiseFill, ManifestExtent.logicalLength]

/-- A file of one hole is encoded, but one extent for each of its bytes does not fit its leaf. -/
theorem rewrite_successor_stuck_on_hole :
    encodeManifestTree sampleIdentity holeSummary.logicalSize holeExtents = .ok holeTree ∧
      scanExtents holeReader holeSummary.root = .ok (holeSummary, holeExtents) ∧
      Partition holeSummary.logicalSize bytewiseFill ∧
      ¬ ∃ result, rewriteManifestTreeRangeSuccessor sampleIdentity holeSummary 0
        holeSummary.logicalSize bytewiseFill holeReader = .ok result := by
  have scanned : scanExtents holeReader holeSummary.root = .ok (holeSummary, holeExtents) := by
    decide
  refine ⟨rfl, scanned, bytewiseFill_partition, ?_⟩
  rw [rewriteManifestTreeRangeSuccessor_completes_iff scanned (zero_le _) le_rfl
    bytewiseFill_partition, rewriteManifestTreeRange_completes_iff scanned (zero_le _) le_rfl
    bytewiseFill_partition]
  intro room
  have readable : ∃ leaf, holeReader holeSummary.root = .ok (.leaf leaf) ∧
      leaf.fileLength = holeSummary.logicalSize := ⟨_, rfl, rfl⟩
  rcases readable with ⟨leaf, readable, sized⟩
  have fits := (leavesHaveRoom_leaf_iff readable).mp room (by rw [sized]; decide)
  have added := length_le_rewrittenCount bytewiseFill_partition (zero_le 0)
    (by rw [sized]; exact le_of_eq (zero_add _).symm : _ ≤ 0 + leaf.fileLength)
  have count : bytewiseFill.length = MAX_FLATTENED_EXTENTS + 1 := length_replicate
  exact absurd (le_trans added fits) (by rw [count]; exact not_succ_le_self _)

end Fastdup.Store
