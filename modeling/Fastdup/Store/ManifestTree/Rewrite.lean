import Fastdup.Store.ManifestTree.Building

/-!
# Rewriting a range of a Manifest tree

`rewrite_node` descends into the children that the replaced range meets and rewrites their
leaves. A subtree at an absolute offset then denotes its old bytes, overwritten at that offset;
since overwriting works piece by piece, the children of a node together denote the overwritten
bytes of the node.

The old tree stands in a collection `base` that may hold less than the reader the code uses. What
is built therefore only refers to the nodes of `base` and to encoded nodes.
-/

namespace Fastdup.Store

open Library Checked Format SlicesOf

variable {ObjectId : Type} {identity : ManifestNode ObjectId → ObjectId}
  {base : Nodes ObjectId} {read : NodeReader ObjectId}
  {log log' : List (ObjectId × ManifestNode ObjectId)}

/-- The reference stands for a subtree with these byte sources. -/
def Denotes (subtree : ObjectId → List ManifestExtent → Prop) (reference : NodeRef ObjectId)
    (cells : List ByteSource) : Prop :=
  ∃ extents, Refers subtree reference extents ∧ extentCells extents = cells

def ForestDenotes (subtree : ObjectId → List ManifestExtent → Prop)
    (references : List (NodeRef ObjectId)) (cells : List ByteSource) : Prop :=
  ∃ extents, Forest subtree references extents ∧ extentCells extents = cells

variable {candidate : PendingNode ObjectId} {start finish : ℕ}
  {replacement extents : List ManifestExtent}

theorem rewriteLeaf_spec (staged : Staged identity base log) {leaf : ManifestLeaf}
    {reference : NodeRef ObjectId} (exact : start + totalLength replacement = finish)
    (small : finish < 2 ^ 64) (valid : ∀ extent ∈ replacement, extent.Valid)
    (readable : base candidate.objectId (.leaf leaf))
    (rewritten : rewriteLeaf identity start finish replacement candidate leaf log =
      .ok (reference, log')) : Grows identity base log log' ∧
      Denotes (TreeOf (Among base log') 0) reference
        (overwrite candidate.absoluteOffset start (extentCells replacement)
          (extentCells leaf.extents)) := by
  simp only [rewriteLeaf, state_bind_ok, check_ok, checkedAdd_ok] at rewritten
  rcases rewritten with ⟨leafEnd, _, ⟨⟨fits, rfl⟩, rfl⟩, rewritten⟩
  have leafLength := leaf.length_eq
  split at rewritten
  · -- The replaced range does not meet the leaf.
    simp only [check_ok, unchangedLeaf, bind_ok, manifestAllocatedBytes_leaf,
      pure_ok, Except.ok.injEq, exists_eq_left'] at rewritten
    rcases rewritten with ⟨rfl, rfl⟩
    have stands : TreeOf (Among base log') 0 candidate.objectId leaf.extents :=
      ⟨leaf, .inl readable, rfl⟩
    refine ⟨Grows.refl staged, leaf.extents, ⟨leafLength, rfl, stands⟩, ?_⟩
    rw [overwrite_apart]
    rw [length_extentCells, length_extentCells]
    omega
  · simp only [state_bind_ok, check_ok] at rewritten
    rcases rewritten with ⟨before, _, ⟨slicedBefore, rfl⟩, inside, _, ⟨slicedInside, rfl⟩, after, _,
      ⟨slicedAfter, rfl⟩, pushed⟩
    have partBefore := of_eq leaf.partition.valid (by omega) (by omega) (by omega) slicedBefore
    have partInside := of_eq valid (by omega) (by omega) (by omega) slicedInside
    have partAfter := of_eq leaf.partition.valid (by omega) (by omega) (by omega) slicedAfter
    have grown := pushLeaf_spec staged pushed
    refine ⟨grown.1, _, grown.2.1, ?_⟩
    have ending : min finish (candidate.absoluteOffset + leaf.fileLength) =
        min (start + (extentCells replacement).length)
          (candidate.absoluteOffset + (extentCells leaf.extents).length) := by
      rw [length_extentCells, length_extentCells]
      omega
    rw [overwrite_eq_windows rfl ending (by omega), extentCells_append, extentCells_append,
      partBefore.cells, partInside.cells, partAfter.cells, length_extentCells, leafLength]
    rfl

/-- What rewriting a subtree amounts to, as a property of the rewriting function. -/
def RewritesSubtrees (identity : ManifestNode ObjectId → ObjectId) (base : Nodes ObjectId)
    (start : ℕ) (replacement : List ManifestExtent) (level : ℕ)
    (rewrite : PendingNode ObjectId → Edit ObjectId (NodeRef ObjectId)) : Prop :=
  ∀ {candidate : PendingNode ObjectId} {extents : List ManifestExtent}
    {log log' : List (ObjectId × ManifestNode ObjectId)} {reference : NodeRef ObjectId},
    Staged identity base log →
    TreeOf base level candidate.objectId extents →
    rewrite candidate log = .ok (reference, log') →
    Grows identity base log log' ∧
      Denotes (TreeOf (Among base log') level) reference
        (overwrite candidate.absoluteOffset start (extentCells replacement) (extentCells extents))

variable {rewrite : PendingNode ObjectId → Edit ObjectId (NodeRef ObjectId)}

section

variable {level : ℕ} (staged : Staged identity base log)
  (rewrites : RewritesSubtrees identity base start replacement level rewrite)
  (exact : start + totalLength replacement = finish)

include staged rewrites exact

theorem rewriteChild_spec {child range : ManifestChildRange ObjectId}
    (refers : Refers (TreeOf base level) (nodeRefFromChild child) extents)
    (rewritten : rewriteChild rewrite start finish candidate level child log = .ok (range,
      log')) : Grows identity base log log' ∧
      Denotes (TreeOf (Among base log') level) (nodeRefFromChild range)
        (overwrite (candidate.absoluteOffset + child.logicalOffset) start
          (extentCells replacement) (extentCells extents)) := by
  simp only [rewriteChild, state_bind_ok, check_ok, pendingChild_ok, checkedAdd_ok] at rewritten
  rcases rewritten with ⟨pending, _, ⟨⟨_, rfl⟩, rfl⟩, absoluteEnd, _, ⟨⟨_, ends⟩, rfl⟩, rewritten⟩
  have pieceLength : child.logicalLength = totalLength extents := refers.length
  rw [PendingNode.ofChild_absoluteOffset] at ends rewritten
  split at rewritten
  · simp only [state_bind_ok, check_ok, mapError_ok,
      ManifestChildRange.newWithAllocatedBytes_ok] at rewritten
    rcases rewritten with ⟨reference, log₁, rewrittenChild, ⟨_, _, _, rfl⟩, rfl⟩
    exact rewrites staged refers.stands rewrittenChild
  · simp only [state_bind_ok, state_pure_ok, check_ok, mapError_ok,
      ManifestChildRange.newWithAllocatedBytes_ok] at rewritten
    rcases rewritten with ⟨reference, log₁, same, ⟨_, _, _, rfl⟩, rfl⟩
    cases same
    refine ⟨Grows.refl staged, extents, refers.mono (Among.old base _), ?_⟩
    rw [overwrite_apart]
    rw [length_extentCells, length_extentCells]
    omega

omit staged rewrites exact in
/-- Edits of consecutive children put together, for an edit of the bytes that works piece by
piece. -/
theorem forest_of_mapM {γ : Type} (refs : γ → List (NodeRef ObjectId))
    {step : ManifestChildRange ObjectId → Edit ObjectId γ}
    (edit : ℕ → List ByteSource → List ByteSource) (edit_nil : ∀ position, edit position [] = [])
    (edit_append : ∀ position left right, edit position (left ++ right) = edit position left ++
      edit (position + left.length) right)
    (edits : ∀ {child : ManifestChildRange ObjectId} {piece : List ManifestExtent}
      {log log' : List (ObjectId × ManifestNode ObjectId)} {result : γ},
        Staged identity base log → Refers (TreeOf base level) (nodeRefFromChild child) piece →
          step child log = .ok (result, log') → Grows identity base log log' ∧
            ForestDenotes (TreeOf (Among base log') level) (refs result)
              (edit child.logicalOffset (extentCells piece)))
    (staged : Staged identity base log) {offset nodeEnd : ℕ}
    {children : List (ManifestChildRange ObjectId)}
    (partition : ChildPartition offset children nodeEnd)
    (forest : Forest (TreeOf base level) (children.map nodeRefFromChild) extents)
    {results : List γ} (mapped : (children.mapM step) log = .ok (results, log')) :
    Grows identity base log log' ∧
      ForestDenotes (TreeOf (Among base log') level) (results.flatMap refs)
        (edit offset (extentCells extents)) := by
  induction children generalizing log offset extents results with
  | nil =>
    cases mapped
    cases forest
    exact ⟨.refl staged, [], .nil, (edit_nil offset).symm⟩
  | cons child rest ih =>
    simp only [List.mapM_cons, state_bind_ok, state_pure_ok] at mapped
    rcases mapped with ⟨group, log₁, stepped, others, log₂, mappedRest, ran⟩
    cases ran
    rcases partition with ⟨rfl, _, _, restPartition⟩
    rcases forest with _ | ⟨refers, following⟩
    rename_i piece remaining
    have pieceLength : child.logicalLength = totalLength piece := refers.length
    rcases edits staged refers stepped with ⟨grown, newPiece, newForest, newCells⟩
    rcases ih grown.staged restPartition following mappedRest with
      ⟨later, newRemaining, restForest, restCells⟩
    refine ⟨grown.trans later, newPiece ++ newRemaining,
      (newForest.extend later.extension).append restForest, ?_⟩
    rw [extentCells_append, extentCells_append, edit_append, newCells, restCells,
      length_extentCells, ← pieceLength]

/-- The children of a node are rewritten one after the other, each at its offset. -/
theorem rewriteChildren_spec {offset nodeEnd : ℕ}
    {children ranges : List (ManifestChildRange ObjectId)}
    (partition : ChildPartition offset children nodeEnd)
    (forest : Forest (TreeOf base level) (children.map nodeRefFromChild) extents)
    (rewritten : (children.mapM (rewriteChild rewrite start finish candidate level)) log =
      .ok (ranges, log')) : Grows identity base log log' ∧
      ForestDenotes (TreeOf (Among base log') level) (ranges.map nodeRefFromChild)
        (overwrite (candidate.absoluteOffset + offset) start (extentCells replacement)
          (extentCells extents)) := by
  rw [List.map_eq_flatMap]
  refine forest_of_mapM _ (fun position => overwrite (candidate.absoluteOffset + position) start
    (extentCells replacement)) (fun _ => rfl) ?_ ?_ staged partition forest rewritten
  · intro position left right
    rw [overwrite_append, Nat.add_assoc]
  · intro child piece log log' range staged refers rewritten
    rcases rewriteChild_spec staged rewrites exact refers rewritten with
      ⟨grown, extents, refers, cells⟩
    exact ⟨grown, extents, .singleton refers, cells⟩

end

theorem rewriteNode_spec (reads : Extends base (Found read))
    (exact : start + totalLength replacement = finish) (small : finish < 2 ^ 64)
    (valid : ∀ extent ∈ replacement, extent.Valid) (fuel level : ℕ) :
    RewritesSubtrees identity base start replacement level
      (rewriteNode identity read start finish replacement fuel) := by
  induction fuel generalizing level with
  | zero =>
    intro candidate extents log log' reference _ _ rewritten
    cases rewritten
  | succ fuel ih =>
    intro candidate extents log log' reference staged subtree rewritten
    simp only [rewriteNode, state_bind_ok, check_ok, openNode_ok] at rewritten
    rcases rewritten with ⟨node, _, ⟨⟨readable, _⟩, rfl⟩, rewritten⟩
    rcases subtree.opened reads readable with ⟨leaf, rfl, rfl, rfl, leafRead⟩ |
      ⟨inner, level, rfl, rfl, atLevel, forest⟩
    · exact rewriteLeaf_spec staged exact small valid leafRead rewritten
    · simp only [state_bind_ok, check_ok, mapError_ok,
        ManifestInnerNode.new_ok, state_pure_ok, atLevel, Nat.add_sub_cancel] at rewritten
      rcases rewritten with ⟨ranges, log₁, rewrittenChildren, node, _,
        ⟨⟨sized, newLevel, held⟩, rfl⟩, allocated, _, ⟨counted, rfl⟩, objectId, log₂,
        encoded, ran⟩
      cases ran
      rcases rewriteChildren_spec staged (ih level) exact
        inner.valid.partition forest rewrittenChildren with ⟨grown, newExtents, newForest, cells⟩
      rw [← held] at newForest
      have later := encodeInner_spec grown.staged newLevel newForest encoded
      refine ⟨grown.trans later.1, newExtents, ⟨?_, ?_, later.2⟩, cells⟩
      · rw [newForest.size]
        exact sized.symm
      · rw [node.allocatedBytes_eq_ok] at counted
        cases counted
        have summed := newForest.allocation_eq
        rw [List.map_map] at summed
        exact summed

end Fastdup.Store
