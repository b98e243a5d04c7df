import Fastdup.Store.ManifestTree.Rewrite

/-!
# Appending to, truncating and splicing a Manifest tree

An append adds leaves at the right end of the right spine, a truncation keeps the children up
to the cut and truncates the one that holds it, and a splice replaces a range by extents of any
length. All three build a forest of the level of the node they edit, so that the parents can be
built over it.
-/

namespace Fastdup.Store

open Library Checked Format List Nat SlicesOf Forest Grows

variable {ObjectId : Type} {identity : ManifestNode ObjectId → ObjectId}
  {base : Nodes ObjectId} {read : NodeReader ObjectId}
  {log log' : List (ObjectId × ManifestNode ObjectId)}

variable {level offset nodeEnd : ℕ} {candidate : PendingNode ObjectId}
  {references : List (NodeRef ObjectId)}

theorem appendLeavesToRightSpine_spec (reads : Extends base (Found read)) {fuel : ℕ}
    {extents appended : List ManifestExtent} {appendedLeaves : List (NodeRef ObjectId)}
    {observedLevel : ℕ} (staged : Staged identity base log)
    (appendedForest : Forest (TreeOf (Among base log) 0) appendedLeaves appended)
    (subtree : TreeOf base level candidate.objectId extents)
    (ran : appendLeavesToRightSpine identity read appendedLeaves fuel candidate log =
      .ok ((observedLevel, references), log')) :
    Grows identity base log log' ∧ observedLevel = level ∧
      Forest (TreeOf (Among base log') level) references (extents ++ appended) := by
  induction fuel generalizing level candidate extents references observedLevel log' with
  | zero => cases ran
  | succ fuel ih =>
    simp only [appendLeavesToRightSpine, state_bind_ok, check_ok, openNode_ok] at ran
    rcases ran with ⟨node, _, ⟨⟨readable, _⟩, rfl⟩, ran⟩
    rcases subtree.opened reads readable with ⟨leaf, rfl, rfl, rfl, leafRead⟩ |
      ⟨inner, level, rfl, rfl, atLevel, forest⟩
    · simp only at ran
      split at ran
      · simp only [state_bind_ok, check_ok, unchangedLeaf, bind_ok,
          manifestAllocatedBytes_leaf, pure_ok, Except.ok.injEq, exists_eq_left',
          state_pure_ok] at ran
        rcases ran with ⟨reference, _, ⟨rfl, rfl⟩, ran⟩
        cases ran
        have stands : TreeOf (Among base log') 0 candidate.objectId leaf.extents :=
          ⟨leaf, .inl leafRead, rfl⟩
        exact ⟨refl staged, rfl, cons ⟨leaf.length_eq, rfl, stands⟩ appendedForest⟩
      · rename_i empty
        rw [not_not, leaf.length_eq, totalLength_eq_zero_iff leaf.partition.valid] at empty
        cases ran
        rw [empty]
        exact ⟨refl staged, rfl, appendedForest⟩
    · cases isLast : inner.children.getLast? with
      | none =>
        simp only [isLast] at ran
        cases ran
      | some last =>
        simp only [isLast, state_bind_ok, check_ok, pendingChild_ok,
          require_ok, state_pure_ok, atLevel, Nat.add_sub_cancel] at ran
        rcases ran with ⟨_, _, ⟨⟨_, rfl⟩, rfl⟩, ⟨childLevel, appendedChildren⟩, log₁,
          descended, _, _, ⟨_, rfl⟩, parents, log₂, encoded, result⟩
        cases result
        rw [← dropLast_append_getLast? last isLast, map_append] at forest
        rcases forest.append_cases with ⟨kept, piece, keptForest, lastForest, rfl⟩
        have lastRefers := singleton_iff.mp lastForest
        rcases ih lastRefers.stands descended with ⟨grown, _, childForest⟩
        have later := encodeParentForest_spec grown.staged
          ((keptForest.extend (Among.old base _)).append childForest) encoded
        rw [append_assoc]
        exact ⟨grown.trans later.1, rfl, later.2⟩

/-- What truncating a subtree amounts to, as a property of the truncating function. -/
def TruncatesSubtrees (identity : ManifestNode ObjectId → ObjectId) (base : Nodes ObjectId)
    (level : ℕ) (truncate : PendingNode ObjectId → ℕ → Edit ObjectId (NodeRef ObjectId)) : Prop :=
  ∀ {candidate : PendingNode ObjectId} {extents : List ManifestExtent} {retainedLength : ℕ}
    {log log' : List (ObjectId × ManifestNode ObjectId)} {reference : NodeRef ObjectId},
    Staged identity base log →
    TreeOf base level candidate.objectId extents →
    retainedLength ≤ totalLength extents →
    truncate candidate retainedLength log = .ok (reference, log') →
    Grows identity base log log' ∧
      Denotes (TreeOf (Among base log') level) reference
        ((extentCells extents).take retainedLength)

variable {extents : List ManifestExtent} {children : List (ManifestChildRange ObjectId)}

theorem retainChildren_spec (staged : Staged identity base log) {retainedLength : ℕ}
    {truncate : PendingNode ObjectId → ℕ → Edit ObjectId (NodeRef ObjectId)}
    (truncates : TruncatesSubtrees identity base level truncate)
    (partition : ChildPartition offset children nodeEnd)
    (forest : Forest (TreeOf base level) (children.map nodeRefFromChild) extents)
    (retained : retainChildren truncate candidate level retainedLength children log =
      .ok (references, log')) : Grows identity base log log' ∧
      ForestDenotes (TreeOf (Among base log') level) references
        ((extentCells extents).take (retainedLength - offset)) := by
  induction children generalizing log offset extents references with
  | nil =>
    cases retained
    cases forest
    exact ⟨refl staged, [], nil, by simp⟩
  | cons child rest ih =>
    rcases partition with ⟨rfl, _, _, restPartition⟩
    rcases forest with _ | ⟨refers, following⟩
    rename_i piece remaining
    have pieceLength : child.logicalLength = totalLength piece := refers.length
    have kept := refers.mono (Among.old base log)
    simp only [retainChildren, state_bind_ok, check_ok, checkedAdd_ok] at retained
    rcases retained with ⟨childEnd, _, ⟨⟨_, rfl⟩, rfl⟩, retained⟩
    rw [extentCells_append, take_append, length_extentCells]
    split at retained
    · have whole : (extentCells piece).take (retainedLength - child.logicalOffset) =
          extentCells piece := by
        apply take_of_length_le
        rw [length_extentCells]
        omega
      rw [whole]
      split at retained
      · cases retained
        have nothing : retainedLength - child.logicalOffset - totalLength piece = 0 := by omega
        rw [nothing, take_zero, append_nil]
        exact ⟨refl staged, piece, singleton kept, rfl⟩
      · simp only [state_bind_ok, state_pure_ok] at retained
        rcases retained with ⟨others, log₁, retainedRest, ran⟩
        cases ran
        rcases ih staged restPartition following retainedRest with
          ⟨grown, newExtents, newForest, newCells⟩
        refine ⟨grown, piece ++ newExtents, cons (kept.mono grown.extension) newForest, ?_⟩
        rw [extentCells_append, newCells, pieceLength, sub_add_eq]
    · have nothing : retainedLength - child.logicalOffset - totalLength piece = 0 := by omega
      rw [nothing, take_zero, append_nil]
      split at retained
      · simp only [state_bind_ok, check_ok, pendingChild_ok, state_pure_ok] at retained
        rcases retained with ⟨_, _, ⟨⟨_, rfl⟩, rfl⟩, last, log₁, truncated, ran⟩
        cases ran
        rcases truncates staged refers.stands (by omega) truncated with
          ⟨grown, newExtents, newRefers, newCells⟩
        exact ⟨grown, newExtents, singleton newRefers, newCells⟩
      · rw [state_pure_ok] at retained
        cases retained
        have before : retainedLength - child.logicalOffset = 0 := by omega
        rw [before, take_zero]
        exact ⟨refl staged, [], nil, rfl⟩

theorem truncateNode_spec (reads : Extends base (Found read)) (fuel level : ℕ) :
    TruncatesSubtrees identity base level (truncateNode identity read fuel) := by
  induction fuel generalizing level with
  | zero =>
    intro candidate extents retainedLength log log' reference _ _ _ truncated
    cases truncated
  | succ fuel ih =>
    intro candidate extents retainedLength log log' reference staged subtree inside
      truncated
    simp only [truncateNode, state_bind_ok, check_ok, openNode_ok] at truncated
    rcases truncated with ⟨_, _, ⟨_, rfl⟩, node, _, ⟨⟨readable, _⟩, rfl⟩, truncated⟩
    rcases subtree.opened reads readable with ⟨leaf, rfl, rfl, rfl, leafRead⟩ |
      ⟨inner, level, rfl, rfl, atLevel, forest⟩
    · simp only [state_bind_ok, check_ok] at truncated
      rcases truncated with ⟨slices, _, ⟨sliced, rfl⟩, pushed⟩
      have bounded := leaf.partition.bounded
      rw [leaf.length_eq] at bounded
      have part := of_eq leaf.partition.valid bounded (zero_le _) inside sliced
      have grown := pushLeaf_spec staged pushed
      refine ⟨grown.1, slices, grown.2.1, ?_⟩
      rw [part.cells, Nat.sub_zero, Nat.sub_zero, window_zero]
    · simp only [state_bind_ok, check_ok, atLevel, Nat.add_sub_cancel] at truncated
      rcases truncated with ⟨retained, log₁, kept, _, _, ⟨_, rfl⟩, parents, log₂,
        encoded, truncated⟩
      rcases retainChildren_spec staged (ih level) inner.valid.partition
        forest kept with ⟨grown, newExtents, newForest, newCells⟩
      have later := encodeParentForest_spec grown.staged newForest encoded
      split at truncated
      · simp only [state_bind_ok, check_ok, state_pure_ok] at truncated
        rcases truncated with ⟨_, _, ⟨_, rfl⟩, ran⟩
        cases ran
        exact ⟨grown.trans later.1, newExtents, singleton_iff.mp later.2, newCells⟩
      · cases truncated

/-- The edit on the byte sources themselves. -/
def spliceCells (start finish : ℕ) (replacement cells : List ByteSource) : List ByteSource :=
  cells.take start ++ replacement ++ cells.drop finish

theorem encodeExtentsAtLevel_spec (staged : Staged identity base log)
    (encoded : encodeExtentsAtLevel identity extents level log = .ok (references, log')) :
    Grows identity base log log' ∧
      Forest (TreeOf (Among base log') level) references extents := by
  unfold encodeExtentsAtLevel at encoded
  split at encoded
  · rename_i none
    cases encoded
    rw [isEmpty_iff.mp none]
    exact ⟨refl staged, nil⟩
  · simp only [state_bind_ok, check_ok] at encoded
    rcases encoded with ⟨_, _, ⟨_, rfl⟩, _, _, ⟨_, rfl⟩, leaves, log₁, encodedLeaves, raised⟩
    have grown := encodeLeaves_spec staged encodedLeaves
    induction level generalizing references log' with
    | zero =>
      cases raised
      exact grown
    | succ level ih =>
      simp only [range_succ, foldlM_append, foldlM_cons, foldlM_nil,
        bind_pure, state_bind_ok] at raised
      rcases raised with ⟨forest, log₂, raisedBelow, encodedParents⟩
      have below := ih raisedBelow
      have above := encodeParentForest_spec below.1.staged below.2
        encodedParents
      exact ⟨below.1.trans above.1, above.2⟩

theorem bounds_of_containsRange {start finish childStart childEnd : ℕ}
    (contains : containsRange start finish childStart childEnd = true) :
    childStart ≤ start ∧ finish ≤ childEnd := by
  unfold containsRange at contains
  split at contains
  · rw [decide_eq_true_eq] at contains
    omega
  · exact of_decide_eq_true contains

theorem containingChild_spec {start finish : ℕ}
    {children before after : List (ManifestChildRange ObjectId)}
    {target : ManifestChildRange ObjectId} (partition : ChildPartition offset children nodeEnd)
    (found : containingChild start finish children = .ok (some (before, target, after))) :
    children = before ++ target :: after ∧ target.logicalOffset ≤ start ∧
      finish ≤ target.logicalOffset + target.logicalLength ∧ target.logicalOffset =
        offset + ((before.map nodeRefFromChild).map NodeRef.logicalLength).sum := by
  induction children generalizing offset before with
  | nil => cases found
  | cons child rest ih =>
    rcases partition with ⟨rfl, _, _, restPartition⟩
    simp only [containingChild, bind_ok, checkedAdd_ok] at found
    rcases found with ⟨childEnd, ⟨_, rfl⟩, found⟩
    split at found
    · rename_i contains
      cases found
      have bounds := bounds_of_containsRange contains
      exact ⟨rfl, bounds.1, bounds.2, rfl⟩
    · simp only [bind_ok, pure_ok] at found
      rcases found with ⟨later, foundLater, placed⟩
      cases later with
      | none => cases placed
      | some parts =>
        cases placed
        rcases ih restPartition foundLater with ⟨rfl, first, last, position⟩
        refine ⟨rfl, first, last, ?_⟩
        rw [position, map_cons, map_cons, sum_cons, add_assoc]
        rfl

/-- What splicing a subtree amounts to, as a property of the splicing function. -/
def SplicesChildren (identity : ManifestNode ObjectId → ObjectId) (base : Nodes ObjectId)
    (level : ℕ) (splice : ManifestChildRange ObjectId → ℕ → ℕ → List ManifestExtent →
      Edit ObjectId (List (NodeRef ObjectId))) : Prop :=
  ∀ {child : ManifestChildRange ObjectId} {extents replacement : List ManifestExtent}
    {start finish : ℕ} {log log' : List (ObjectId × ManifestNode ObjectId)}
    {references : List (NodeRef ObjectId)},
    Staged identity base log →
    TreeOf base level child.child extents →
    splice child start finish replacement log = .ok (references, log') →
    Grows identity base log log' ∧
      ForestDenotes (TreeOf (Among base log') level) references
        (spliceCells start finish (extentCells replacement) (extentCells extents))

section Splicing

variable {start finish : ℕ} {splice : ManifestChildRange ObjectId → ℕ → ℕ → List ManifestExtent →
    Edit ObjectId (List (NodeRef ObjectId))}

section

variable {child : ManifestChildRange ObjectId} {piece : List ManifestExtent}
  (splices : SplicesChildren identity base level splice) (staged : Staged identity base log)
  (refers : Refers (TreeOf base level) (nodeRefFromChild child) piece)

include splices staged refers

theorem keepBefore_spec
    (kept : keepBefore (fun child first last => splice child first last []) start child log
      = .ok (references, log')) : Grows identity base log log' ∧
      ForestDenotes (TreeOf (Among base log') level) references
        ((extentCells piece).take (start - child.logicalOffset)) := by
  have pieceLength : child.logicalLength = totalLength piece := refers.length
  simp only [keepBefore, state_bind_ok, check_ok, checkedAdd_ok] at kept
  rcases kept with ⟨childEnd, _, ⟨⟨_, rfl⟩, rfl⟩, kept⟩
  split at kept
  · cases kept
    rw [take_of_length_le (by rw [length_extentCells]; omega)]
    exact ⟨refl staged, piece,
      singleton (refers.mono (Among.old base _)), rfl⟩
  · split at kept
    · rcases splices staged refers.stands kept with ⟨grown, newExtents, newForest, newCells⟩
      refine ⟨grown, newExtents, newForest, ?_⟩
      rw [newCells, spliceCells, extentCells_nil, append_nil,
        drop_of_length_le (by rw [length_extentCells]; omega), append_nil]
    · cases kept
      have nothing : start - child.logicalOffset = 0 := by omega
      rw [nothing, take_zero]
      exact ⟨refl staged, [], nil, rfl⟩

theorem keepAfter_spec
    (kept : keepAfter (fun child first last => splice child first last []) finish child log
      = .ok (references, log')) : Grows identity base log log' ∧
      ForestDenotes (TreeOf (Among base log') level) references
        ((extentCells piece).drop (finish - child.logicalOffset)) := by
  have pieceLength : child.logicalLength = totalLength piece := refers.length
  simp only [keepAfter, state_bind_ok, check_ok, checkedAdd_ok] at kept
  rcases kept with ⟨childEnd, _, ⟨⟨_, rfl⟩, rfl⟩, kept⟩
  split at kept
  · cases kept
    have nothing : finish - child.logicalOffset = 0 := by omega
    rw [nothing, drop_zero]
    exact ⟨refl staged, piece,
      singleton (refers.mono (Among.old base _)), rfl⟩
  · split at kept
    · rcases splices staged refers.stands kept with ⟨grown, newExtents, newForest, newCells⟩
      refine ⟨grown, newExtents, newForest, ?_⟩
      rw [newCells, spliceCells, extentCells_nil, take_zero, nil_append, nil_append]
    · cases kept
      rw [drop_of_length_le (by rw [length_extentCells]; omega)]
      exact ⟨refl staged, [], nil, rfl⟩

end

theorem spliceCells_inside {replacement front piece back : List ByteSource}
    (after : front.length ≤ start) (ordered : start ≤ finish)
    (before : finish ≤ front.length + piece.length) :
    spliceCells start finish replacement (front ++ (piece ++ back)) =
      front ++ (spliceCells (start - front.length) (finish - front.length) replacement piece ++
        back) := by
  unfold spliceCells
  rw [take_append, take_of_length_le after, take_append,
    Nat.sub_eq_zero_of_le (show start - front.length ≤ piece.length by omega), take_zero,
    drop_append, drop_of_length_le (show front.length ≤ finish by omega),
      drop_append,
    Nat.sub_eq_zero_of_le (show finish - front.length ≤ piece.length by omega), drop_zero]
  simp

theorem spliceChildren_spec (splices : SplicesChildren identity base level splice)
    (staged : Staged identity base log) {children : List (ManifestChildRange ObjectId)}
    {extents replacement : List ManifestExtent} (ordered : start ≤ finish)
    (partition : ChildPartition 0 children nodeEnd)
    (forest : Forest (TreeOf base level) (children.map nodeRefFromChild) extents)
    (spliced : spliceChildren identity splice level start finish replacement children log =
      .ok (references, log')) : Grows identity base log log' ∧
      ForestDenotes (TreeOf (Among base log') level) references
        (spliceCells start finish (extentCells replacement) (extentCells extents)) := by
  simp only [spliceChildren, state_bind_ok, check_ok] at spliced
  rcases spliced with ⟨containing, _, ⟨found, rfl⟩, spliced⟩
  cases containing with
  | some parts =>
    rcases parts with ⟨before, target, after⟩
    simp only [state_bind_ok, state_pure_ok] at spliced
    rcases spliced with ⟨rewritten, log₁, splicedTarget, ran⟩
    cases ran
    rcases containingChild_spec partition found with ⟨rfl, first, last, position⟩
    rw [map_append, map_cons] at forest
    rcases forest.append_cases with ⟨front, rest, frontForest, restForest, rfl⟩
    rcases restForest with _ | ⟨refers, backForest⟩
    rename_i piece back
    have pieceLength : target.logicalLength = totalLength piece := refers.length
    rw [frontForest.length_eq, zero_add] at position
    rcases splices staged refers.stands splicedTarget with
      ⟨grown, newPiece, newForest, newCells⟩
    have extension := Among.old base log'
    refine ⟨grown, (front ++ newPiece) ++ back,
      ((frontForest.extend extension).append newForest).append (backForest.extend extension), ?_⟩
    rw [extentCells_append, extentCells_append, extentCells_append, extentCells_append, newCells,
      position, spliceCells_inside (by rw [length_extentCells]; omega) ordered
        (by rw [length_extentCells, length_extentCells]; omega), length_extentCells,
      append_assoc]
  | none =>
    simp only [state_bind_ok, state_pure_ok] at spliced
    rcases spliced with ⟨kept, log₁, keptBefore, inserted, log₂, encoded, others,
      log₃, keptAfter, ran⟩
    cases ran
    have front := forest_of_mapM id (fun position cells => cells.take (start - position))
      (by simp) (by intro position left right; rw [take_append, sub_add_eq])
      (fun staged refers kept => keepBefore_spec splices staged refers kept)
      staged partition forest keptBefore
    rw [flatMap_id] at front
    rcases front with ⟨grownFront, frontExtents, frontForest, frontCells⟩
    have middle := encodeExtentsAtLevel_spec grownFront.staged encoded
    have back := forest_of_mapM id (fun position cells => cells.drop (finish - position))
      (by simp) (by intro position left right; rw [drop_append, sub_add_eq])
      (fun staged refers kept => keepAfter_spec splices staged refers kept)
      middle.1.staged partition forest keptAfter
    rw [flatMap_id] at back
    rcases back with ⟨grownBack, backExtents, backForest, backCells⟩
    have frontStays := (frontForest.extend middle.1.extension).extend grownBack.extension
    refine ⟨(grownFront.trans middle.1).trans grownBack,
      (frontExtents ++ replacement) ++ backExtents,
      (frontStays.append (middle.2.extend grownBack.extension)).append backForest, ?_⟩
    rw [extentCells_append, extentCells_append, frontCells, backCells, Nat.sub_zero, Nat.sub_zero,
      spliceCells]

def SplicesSubtrees (identity : ManifestNode ObjectId → ObjectId) (base : Nodes ObjectId)
    (level : ℕ) (splice : PendingNode ObjectId → ℕ → ℕ → List ManifestExtent →
      Edit ObjectId (ℕ × List (NodeRef ObjectId))) : Prop :=
  ∀ {candidate : PendingNode ObjectId} {extents replacement : List ManifestExtent}
    {start finish : ℕ} {log log' : List (ObjectId × ManifestNode ObjectId)}
    {observedLevel : ℕ} {references : List (NodeRef ObjectId)},
    Staged identity base log →
    TreeOf base level candidate.objectId extents →
    splice candidate start finish replacement log =
      .ok ((observedLevel, references), log') →
    Grows identity base log log' ∧ observedLevel = level ∧
      ForestDenotes (TreeOf (Among base log') level) references
        (spliceCells start finish (extentCells replacement) (extentCells extents))

theorem spliceChild_spec {spliceNode : PendingNode ObjectId → ℕ → ℕ → List ManifestExtent →
      Edit ObjectId (ℕ × List (NodeRef ObjectId))}
    (splices : SplicesSubtrees identity base level spliceNode) (candidate : PendingNode ObjectId) :
    SplicesChildren identity base level (spliceChild spliceNode candidate level) := by
  intro child extents replacement start finish log log' references staged subtree spliced
  simp only [spliceChild, state_bind_ok, check_ok, pendingChild_ok, state_pure_ok] at spliced
  rcases spliced with ⟨_, _, ⟨⟨_, rfl⟩, rfl⟩, ⟨observedLevel, rewritten⟩, log₁, splicedNode, _,
    _, ⟨_, rfl⟩, ran⟩
  cases ran
  rcases splices staged subtree splicedNode with ⟨grown, _, denotes⟩
  exact ⟨grown, denotes⟩

theorem spliceNode_spec (reads : Extends base (Found read)) (fuel level : ℕ) :
    SplicesSubtrees identity base level (spliceNode identity read fuel) := by
  induction fuel generalizing level with
  | zero =>
    intro candidate extents replacement start finish log log' observedLevel references
      _ _ spliced
    cases spliced
  | succ fuel ih =>
    intro candidate extents replacement start finish log log' observedLevel references
      staged subtree spliced
    simp only [spliceNode, state_bind_ok, check_ok, openNode_ok] at spliced
    rcases spliced with ⟨node, _, ⟨⟨readable, _⟩, rfl⟩, spliced⟩
    rcases subtree.opened reads readable with ⟨leaf, rfl, rfl, rfl, leafRead⟩ |
      ⟨inner, level, rfl, rfl, atLevel, forest⟩
    · simp only [state_bind_ok, check_ok, require_ok, extentsLength_ok] at spliced
      rcases spliced with ⟨_, _, ⟨inside, rfl⟩, before, _, ⟨slicedBefore, rfl⟩, after, _,
        ⟨slicedAfter, rfl⟩, logicalLength, _, ⟨⟨total, _⟩, rfl⟩, spliced⟩
      have leafLength := leaf.length_eq
      have bounded := leaf.partition.bounded
      have partBefore := of_eq leaf.partition.valid (by omega) (by omega) (by omega) slicedBefore
      have partAfter := of_eq leaf.partition.valid (by omega) (by omega) (by omega) slicedAfter
      have cells : extentCells (before ++ replacement ++ after) =
          spliceCells start finish (extentCells replacement) (extentCells leaf.extents) := by
        rw [extentCells_append, extentCells_append, partBefore.cells, partAfter.cells,
          Nat.sub_zero, Nat.sub_zero, Nat.sub_zero, window_zero,
          window_to_end (by rw [length_extentCells]; omega), spliceCells]
      split at spliced
      · rename_i empty
        cases spliced
        refine ⟨refl staged, rfl, [], nil, ?_⟩
        rw [← cells]
        symm
        apply length_eq_zero_iff.mp
        rw [length_extentCells, ← total, empty]
      · simp only [state_bind_ok, check_ok, state_pure_ok] at spliced
        rcases spliced with ⟨_, _, ⟨_, rfl⟩, leaves, log₁, encoded, ran⟩
        cases ran
        have grown := encodeLeaves_spec staged encoded
        exact ⟨grown.1, rfl, _, grown.2, cells⟩
    · simp only [state_bind_ok, check_ok, require_ok, atLevel, Nat.add_sub_cancel] at spliced
      rcases spliced with ⟨_, _, ⟨inside, rfl⟩, children, log₁, splicedChildren, spliced⟩
      rcases spliceChildren_spec (spliceChild_spec (ih level) candidate)
        staged (by omega) inner.valid.partition forest splicedChildren with
        ⟨grown, newExtents, newForest, newCells⟩
      split at spliced
      · rename_i empty
        rw [state_pure_ok] at spliced
        cases spliced
        rw [isEmpty_iff.mp empty] at newForest
        cases newForest
        exact ⟨grown, rfl, [], nil, newCells⟩
      · simp only [state_bind_ok, state_pure_ok] at spliced
        rcases spliced with ⟨parents, log₂, encoded, ran⟩
        cases ran
        have later := encodeParentForest_spec grown.staged newForest encoded
        exact ⟨grown.trans later.1, rfl, newExtents, later.2, newCells⟩

end Splicing

end Fastdup.Store
