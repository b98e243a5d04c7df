import Fastdup.Store.ManifestTree.Slices

/-!
# Building Manifest nodes

An edit starts from the nodes of a tree and notes the nodes it encodes. What it builds stands
among both, so every edit only `Grows` what a tree can be made of, and a subtree that was found
once stays. Nothing is said of collisions here: an identity may come to have several nodes.
-/

namespace Fastdup.Store

open Library Checked Format List Forest

variable {ObjectId : Type}

theorem childRanges_spec {offset finish : ℕ} {children : List (NodeRef ObjectId)}
    {ranges : List (ManifestChildRange ObjectId)}
    (placed : childRanges offset children = .ok (ranges, finish)) :
    ranges.map nodeRefFromChild = children ∧
      finish = offset + (children.map NodeRef.logicalLength).sum := by
  induction children generalizing offset ranges with
  | nil =>
    cases placed
    exact ⟨rfl, rfl⟩
  | cons child rest ih =>
    simp only [childRanges, bind_ok, mapError_ok,
      ManifestChildRange.newWithAllocatedBytes_ok, checkedAdd_ok, pure_ok] at placed
    rcases placed with ⟨range, ⟨_, _, _, rfl⟩, next, ⟨_, rfl⟩, ⟨others, finish'⟩, placedRest, ran⟩
    cases ran
    rcases ih placedRest with ⟨same, ending⟩
    refine ⟨?_, ?_⟩
    · rw [map_cons, same]
      rfl
    · rw [ending, map_cons, sum_cons, Nat.add_assoc]

/-- The old nodes and the encoded ones. -/
def Among (base : Nodes ObjectId) (log : List (ObjectId × ManifestNode ObjectId)) :
    Nodes ObjectId :=
  fun objectId node => base objectId node ∨ (objectId, node) ∈ log

theorem Among.old (base : Nodes ObjectId) (log : List (ObjectId × ManifestNode ObjectId)) :
    Extends base (Among base log) :=
  fun _ _ => Or.inl

/-- The node has all its children. -/
def HasChildren (nodes : Nodes ObjectId) (node : ManifestNode ObjectId) : Prop :=
  ∀ inner, node = .inner inner → ∀ child ∈ inner.children, ∃ found, nodes child.child found

/-- The encoded nodes stand under their identities, and children come before parents. -/
structure Staged (identity : ManifestNode ObjectId → ObjectId) (base : Nodes ObjectId)
    (log : List (ObjectId × ManifestNode ObjectId)) : Prop where
  authentic : ∀ entry ∈ log, identity entry.2 = entry.1
  childrenFirst : ∀ before entry after, log = before ++ entry :: after →
    HasChildren (Among base before) entry.2

/-- An edit keeps what there was. -/
structure Grows (identity : ManifestNode ObjectId → ObjectId) (base : Nodes ObjectId)
    (log log' : List (ObjectId × ManifestNode ObjectId)) : Prop where
  staged : Staged identity base log'
  extension : Extends (Among base log) (Among base log')

variable {reference : NodeRef ObjectId} {leaves parents : List (NodeRef ObjectId)}

section Growing

variable {identity : ManifestNode ObjectId → ObjectId} {base : Nodes ObjectId}
  {log log' log'' : List (ObjectId × ManifestNode ObjectId)}

theorem Grows.refl (staged : Staged identity base log) : Grows identity base log log :=
  ⟨staged, fun _ _ readable => readable⟩

theorem Grows.trans (first : Grows identity base log log')
    (second : Grows identity base log' log'') : Grows identity base log log'' :=
  ⟨second.staged, fun objectId node readable =>
    second.extension objectId node (first.extension objectId node readable)⟩

theorem staged_nil (base : Nodes ObjectId) : Staged identity base [] := by
  refine ⟨by simp, ?_⟩
  intro before entry after split
  cases before <;> cases split

/-- What `raise_forest` needs to know about the encoder of parents. -/
def RaisesForests (identity : ManifestNode ObjectId → ObjectId) (base : Nodes ObjectId)
    (parents : ℕ → List (NodeRef ObjectId) → Edit ObjectId (List (NodeRef ObjectId))) : Prop :=
  ∀ {log log' : List (ObjectId × ManifestNode ObjectId)} {level : ℕ}
    {children encoded : List (NodeRef ObjectId)} {extents : List ManifestExtent},
    Staged identity base log →
    Forest (TreeOf (Among base log) level) children extents →
    parents (level + 1) children log = .ok (encoded, log') →
    Grows identity base log log' ∧
      Forest (TreeOf (Among base log') (level + 1)) encoded extents

section

variable (staged : Staged identity base log)

include staged

theorem encodeNode_spec {node : ManifestNode ObjectId} {objectId : ObjectId}
    (children : HasChildren (Among base log) node)
    (encoded : encodeNode identity node log = .ok (objectId, log')) :
    objectId = identity node ∧ Grows identity base log log' ∧
      Among base log' (identity node) node := by
  cases encoded
  refine ⟨rfl, ⟨⟨?_, ?_⟩, ?_⟩, .inr (by simp)⟩
  · intro entry mem
    rcases mem_append.mp mem with old | new
    · exact staged.authentic entry old
    · rw [mem_singleton.mp new]
  · intro before entry after split
    rcases eq_nil_or_concat after with rfl | ⟨init, last, rfl⟩
    · rcases append_inj' split rfl with ⟨rfl, single⟩
      cases single
      exact children
    · rw [concat_eq_append, ← cons_append, ← append_assoc] at split
      rcases append_inj' split rfl with ⟨old, _⟩
      exact staged.childrenFirst before entry init old
  · exact fun _ _ => Or.imp_right (mem_append_left _)

variable {extents : List ManifestExtent}

theorem pushLeaf_spec {logicalLength : ℕ}
    (pushed : pushLeaf identity extents logicalLength log = .ok (reference, log')) :
    Grows identity base log log' ∧
      Refers (TreeOf (Among base log') 0) reference extents ∧
      reference.logicalLength = logicalLength := by
  simp only [pushLeaf, state_bind_ok, check_ok, mapError_ok,
    ManifestLeaf.new_ok, manifestAllocatedBytes_ok, state_pure_ok] at pushed
  rcases pushed with ⟨leaf, _, ⟨⟨sized, held⟩, rfl⟩, allocated, _, ⟨⟨counted, _⟩, rfl⟩, objectId,
    log₁, encoded, ran⟩
  cases ran
  rcases encodeNode_spec staged
    (show HasChildren _ (.leaf leaf) by intro inner impossible; cases impossible) encoded with
    ⟨rfl, grown, stands⟩
  refine ⟨grown, ⟨?_, ?_, ?_⟩, rfl⟩
  · rw [← sized, leaf.length_eq, held]
  · rw [counted, held]
  · exact ⟨leaf, stands, held⟩

theorem encodeLeavesFrom_spec {current extents : List ManifestExtent}
    {leafStart cursor windowEnd : ℕ}
    (encoded : encodeLeavesFrom identity current leafStart cursor windowEnd extents log =
      .ok (leaves, log')) : Grows identity base log log' ∧
      Forest (TreeOf (Among base log') 0) leaves (current ++ extents) := by
  induction extents generalizing current leafStart cursor windowEnd log leaves with
  | nil =>
    rw [append_nil]
    simp only [encodeLeavesFrom] at encoded
    split at encoded
    · rename_i none
      cases encoded
      rw [isEmpty_iff.mp none]
      exact ⟨Grows.refl staged, nil⟩
    · simp only [state_bind_ok, state_pure_ok] at encoded
      rcases encoded with ⟨leaf, log₁, pushed, ran⟩
      cases ran
      have grown := pushLeaf_spec staged pushed
      exact ⟨grown.1, singleton grown.2.1⟩
  | cons extent rest ih =>
    simp only [encodeLeavesFrom, state_bind_ok, check_ok] at encoded
    rcases encoded with ⟨cursor', _, ⟨_, rfl⟩, encoded⟩
    have regrouped : current ++ extent :: rest = (current ++ [extent]) ++ rest := by simp
    rw [regrouped]
    split at encoded
    · simp only [state_bind_ok, state_pure_ok] at encoded
      rcases encoded with ⟨leaf, log₁, pushed, others, log₂, encodedRest, ran⟩
      cases ran
      have grown := pushLeaf_spec staged pushed
      have later := ih grown.1.staged encodedRest
      refine ⟨grown.1.trans later.1, cons ?_ later.2⟩
      exact grown.2.1.mono later.1.extension
    · exact ih staged encoded

theorem encodeLeaves_spec
    (encoded : encodeLeaves identity extents log = .ok (leaves, log')) :
    Grows identity base log log' ∧
      Forest (TreeOf (Among base log') 0) leaves extents := by
  unfold encodeLeaves at encoded
  split at encoded
  · rename_i none
    rw [isEmpty_iff.mp none]
    simp only [state_bind_ok, check_ok, mapError_ok, ManifestLeaf.new_ok, state_pure_ok] at encoded
    rcases encoded with ⟨leaf, _, ⟨⟨_, held⟩, rfl⟩, objectId, log₁, encoded, ran⟩
    cases ran
    rcases encodeNode_spec staged
      (show HasChildren _ (.leaf leaf) by intro inner impossible; cases impossible) encoded with
      ⟨rfl, grown, stands⟩
    exact ⟨grown, singleton ⟨rfl, rfl, leaf, stands, held⟩⟩
  · exact encodeLeavesFrom_spec staged encoded

variable {level : ℕ}

theorem encodeInner_spec {node : ManifestInnerNode ObjectId} (atLevel : node.level = level + 1)
    (forest : Forest (TreeOf (Among base log) level)
      (node.children.map nodeRefFromChild) extents) {objectId : ObjectId}
    (encoded : encodeNode identity (.inner node) log = .ok (objectId, log')) :
    Grows identity base log log' ∧ TreeOf (Among base log') (level + 1) objectId extents := by
  have complete : HasChildren (Among base log) (.inner node) := by
    intro inner same child mem
    cases same
    exact forest.readable (mem_map_of_mem mem)
  rcases encodeNode_spec staged complete encoded with ⟨rfl, grown, stands⟩
  exact ⟨grown, node, stands, atLevel, forest.extend grown.extension⟩

variable {children : List (NodeRef ObjectId)}
  (forest : Forest (TreeOf (Among base log) level) children extents)

include forest

theorem encodeParent_spec
    (encoded : encodeParent identity (level + 1) children log = .ok (reference, log')) :
    Grows identity base log log' ∧
      Refers (TreeOf (Among base log') (level + 1)) reference extents := by
  simp only [encodeParent, state_bind_ok, check_ok, mapError_ok,
    ManifestInnerNode.new_ok, state_pure_ok] at encoded
  rcases encoded with ⟨⟨ranges, finish⟩, _, ⟨placed, rfl⟩, node, _, ⟨⟨sized, atLevel, held⟩, rfl⟩,
    objectId, log₁, encoded, allocated, _, ⟨summed, rfl⟩, ran⟩
  cases ran
  rcases childRanges_spec placed with ⟨same, ending⟩
  have refers : node.children.map nodeRefFromChild = children := by
    rw [← same]
    exact congrArg _ held
  have nodeForest := forest
  rw [← refers] at nodeForest
  have grown := encodeInner_spec staged atLevel nodeForest encoded
  refine ⟨grown.1, ?_, ?_, grown.2⟩
  · rw [ending, Nat.zero_add, forest.length_eq]
  · rw [(foldlM_checkedAdd_ok.mp summed).1, forest.allocation_eq]

omit staged forest

theorem encodeParents_spec : RaisesForests identity base (encodeParents identity) := by
  intro log log' level children parents extents staged forest encoded
  unfold encodeParents at encoded
  rw [← flatten_toChunks MAX_INNER_CHILDREN children] at forest
  generalize children.toChunks MAX_INNER_CHILDREN = groups at forest encoded
  induction groups generalizing log extents parents with
  | nil =>
    cases encoded
    cases forest
    exact ⟨Grows.refl staged, nil⟩
  | cons group rest ih =>
    simp only [mapM_cons, state_bind_ok, state_pure_ok] at encoded
    rcases encoded with ⟨parent, log₁, encodedGroup, others, log₂, encodedRest, ran⟩
    cases ran
    rcases forest.append_cases with ⟨piece, remaining, groupForest, restForest, rfl⟩
    have grown := encodeParent_spec staged groupForest encodedGroup
    have later := ih grown.1.staged (restForest.extend grown.1.extension) encodedRest
    exact ⟨grown.1.trans later.1, cons (grown.2.mono later.1.extension) later.2⟩

theorem encodeParentForest_spec :
    RaisesForests identity base (encodeParentForest identity) := by
  intro log log' level children parents extents staged forest encoded
  simp only [encodeParentForest, state_bind_ok, check_ok] at encoded
  rcases encoded with ⟨_, _, ⟨_, rfl⟩, encoded⟩
  exact encodeParents_spec staged forest encoded

end

theorem raiseForest_spec
    {parents : ℕ → List (NodeRef ObjectId) → Edit ObjectId (List (NodeRef ObjectId))}
    (raises : RaisesForests identity base parents) (staged : Staged identity base log)
    {fuel level : ℕ} {forest : List (NodeRef ObjectId)} (low : level ≤ MAX_TREE_LEVEL)
    (stands : Forest (TreeOf (Among base log) level) forest extents)
    {root : NodeRef ObjectId}
    (raised : raiseForest parents fuel level forest log = .ok (root, log')) :
    Grows identity base log log' ∧ ∃ rootLevel, rootLevel ≤ MAX_TREE_LEVEL ∧
        Refers (TreeOf (Among base log') rootLevel) root extents := by
  induction fuel generalizing level forest log with
  | zero => cases raised
  | succ fuel ih =>
    unfold raiseForest at raised
    split at raised
    · cases raised
    · cases raised
      exact ⟨Grows.refl staged, level, low, singleton_iff.mp stands⟩
    · simp only [state_bind_ok, check_ok, require_ok] at raised
      rcases raised with ⟨_, _, ⟨notDeep, rfl⟩, forest', log₁, encoded, raised⟩
      have grown := raises staged stands encoded
      have later := ih grown.1.staged (by omega) grown.2 raised
      exact ⟨grown.1.trans later.1, later.2⟩

end Growing

end Fastdup.Store
