import Fastdup.Store.ManifestTree.Meaning

/-!
# Walks over Manifest trees

On a subtree every walk succeeds and visits the placed extents that meet the requested range.
The proofs go by the level of the subtree; at an inner node a second induction follows its
children. A complete walk in turn only succeeds on a subtree, so `scan_manifest_tree` accepts
exactly the roots of trees of at most the highest level, and its summary is exact.
-/

namespace Fastdup.Store

open Library Checked Format List Nat PendingNode Option

variable {ObjectId σ : Type}

def placed (base : ℕ) : List ManifestExtent → List (ℕ × ManifestExtent)
  | [] => []
  | extent :: rest => (base, extent) :: placed (base + extent.logicalLength) rest

theorem placed_append (base : ℕ) (left right : List ManifestExtent) :
    placed base (left ++ right) = placed base left ++ placed (base + totalLength left) right := by
  induction left generalizing base with
  | nil => rfl
  | cons extent rest ih =>
    rw [cons_append, placed, placed, ih, totalLength_cons, add_assoc]
    rfl

variable {extents : List ManifestExtent} {offset localOffset fuel level allocated : ℕ}
  {requested : Option (ℕ × ℕ)} {state : σ} {candidate : PendingNode ObjectId} {root : ObjectId}

theorem bounds_of_mem_placed {base : ℕ} {extent : ManifestExtent}
    (mem : (offset, extent) ∈ placed base extents) :
    base ≤ offset ∧ offset + extent.logicalLength ≤ base + totalLength extents := by
  induction extents generalizing base with
  | nil => cases mem
  | cons first rest ih =>
    rw [placed, mem_cons] at mem
    rw [totalLength_cons]
    rcases mem with here | behind
    · cases here
      omega
    · have bounds := ih behind
      omega

theorem map_snd_placed (base : ℕ) (extents : List ManifestExtent) :
    (placed base extents).map Prod.snd = extents := by
  induction extents generalizing base with
  | nil => rfl
  | cons extent rest ih => rw [placed, map_cons, ih]

def meetsExtent (requested : Option (ℕ × ℕ)) (item : ℕ × ManifestExtent) : Bool :=
  meets requested item.1 (item.1 + item.2.logicalLength)

theorem filter_placed_eq_nil {base : ℕ}
    (apart : meets requested base (base + totalLength extents) = false) :
    (placed base extents).filter (meetsExtent requested) = [] := by
  apply filter_eq_nil_iff.mpr
  intro item mem
  have bounds := bounds_of_mem_placed mem
  cases requested with
  | none => simp [meets] at apart
  | some range =>
    simp only [meetsExtent, meets, all_some, decide_eq_true_eq, decide_eq_false_iff_not] at apart ⊢
    omega

/-- The visitor over a list of placed extents. -/
def visitAll (visit : σ → ℕ → ManifestExtent → Except (ManifestTreeError ObjectId) σ) (state : σ)
    (items : List (ℕ × ManifestExtent)) : Except (ManifestTreeError ObjectId) σ :=
  items.foldlM (fun reached item => visit reached item.1 item.2) state

theorem visitExtents_eq {visit : σ → ℕ → ManifestExtent → Except (ManifestTreeError ObjectId) σ}
    {base : ℕ} (fits : base + localOffset + totalLength extents < 2 ^ 64) :
    visitExtents requested visit base localOffset state extents = (visitAll visit state
        ((placed (base + localOffset) extents).filter (meetsExtent requested))).map
        fun reached => (localOffset + totalLength extents, reached) := by
  induction extents generalizing localOffset state with
  | nil => rfl
  | cons extent rest ih =>
    rw [totalLength_cons] at fits
    have restFits : base + (localOffset + extent.logicalLength) + totalLength rest < 2 ^ 64 := by
      omega
    have shifted : base + localOffset + extent.logicalLength =
        base + (localOffset + extent.logicalLength) := add_assoc ..
    rw [visitExtents, checkedAdd_of_lt (by omega), ok_bind, checkedAdd_of_lt (by omega), ok_bind,
      checkedAdd_of_lt (by omega), placed, totalLength_cons, ← add_assoc localOffset]
    by_cases met : meets requested (base + localOffset)
        (base + localOffset + extent.logicalLength) = true
    · have selected : meetsExtent requested (base + localOffset, extent) = true := met
      rw [if_pos met, filter_cons_of_pos selected, visitAll, foldlM_cons]
      cases visited : visit state (base + localOffset) extent with
      | error error => rfl
      | ok state' =>
        simp only [ok_bind]
        rw [ih restFits, shifted]
        rfl
    · have skipped : ¬ meetsExtent requested (base + localOffset, extent) = true := met
      rw [if_neg met, filter_cons_of_neg skipped]
      simp only [ok_bind]
      rw [ih restFits, shifted]

section Walking

variable {read : NodeReader ObjectId}
  {visit : σ → ℕ → ManifestExtent → Except (ManifestTreeError ObjectId) σ}

/-- What the walk of a subtree amounts to, as a property of the fuel that is left. -/
def WalksSubtrees (read : NodeReader ObjectId) (requested : Option (ℕ × ℕ))
    (visit : σ → ℕ → ManifestExtent → Except (ManifestTreeError ObjectId) σ) (fuel level : ℕ) :
    Prop :=
  ∀ (candidate : PendingNode ObjectId) (extents : List ManifestExtent) (state : σ),
    Subtree read level candidate.objectId extents → Announces candidate level extents →
    candidate.absoluteOffset + totalLength extents < 2 ^ 64 →
    walkNode read requested visit fuel candidate state =
      (visitAll visit state
        ((placed candidate.absoluteOffset extents).filter (meetsExtent requested))).map
        fun reached => (totalLength extents, reached)

variable {children : List (ManifestChildRange ObjectId)}

/-- The children of a node are visited in order, the ones outside the range left out. -/
theorem walk_children {start finish : ℕ} (candidate : PendingNode ObjectId)
    (walks : WalksSubtrees read requested visit fuel level)
    (partition : ChildPartition start children finish)
    (forest : Forest (Subtree read level) (children.map nodeRefFromChild) extents)
    (fits : candidate.absoluteOffset + finish < 2 ^ 64) :
    ∃ pending, pendingChildren requested candidate level children = .ok pending ∧
      ∀ state, pending.foldlM (fun reached child => do
            let (_, reached') ← walkNode read requested visit fuel child reached
            return reached') state = visitAll visit state
          ((placed (candidate.absoluteOffset + start) extents).filter (meetsExtent requested)) := by
  induction children generalizing start extents with
  | nil =>
    cases forest
    exact ⟨[], rfl, fun _ => rfl⟩
  | cons child rest ih =>
    rcases partition with ⟨rfl, _, _, restPartition⟩
    rcases forest with _ | ⟨refers, following⟩
    rename_i piece others
    have ordered := restPartition.le
    have pieceLength : child.logicalLength = totalLength piece := refers.length
    rcases ih restPartition following with ⟨pending, made, walked⟩
    have shifted : candidate.absoluteOffset + (child.logicalOffset + child.logicalLength) =
        candidate.absoluteOffset + child.logicalOffset + totalLength piece := by omega
    rw [shifted] at walked
    simp only [pendingChildren, made, ok_bind,
      pendingChild_of_lt (show candidate.absoluteOffset + child.logicalOffset < 2 ^ 64 by omega)]
    rw [checkedAdd_of_lt (by rw [ofChild_absoluteOffset]; omega), ok_bind]
    by_cases met : meets requested (candidate.absoluteOffset + child.logicalOffset)
        (candidate.absoluteOffset + child.logicalOffset + child.logicalLength) = true
    · refine ⟨ofChild candidate child level :: pending,
        congrArg Except.ok (if_pos met), ?_⟩
      intro state
      have walkedChild := walks (ofChild candidate child level) piece state
        refers.stands (refers.announces candidate level)
        (by rw [ofChild_absoluteOffset]; omega)
      rw [placed_append, filter_append,
        show visitAll visit state (_ ++ _) = visitAll visit state _ >>= (visitAll visit · _) from
          foldlM_append, foldlM_cons, walkedChild, ofChild_absoluteOffset]
      cases visited : visitAll visit state ((placed (candidate.absoluteOffset +
          child.logicalOffset) piece).filter (meetsExtent requested)) with
      | error error => rfl
      | ok reached => exact walked reached
    · refine ⟨pending, congrArg Except.ok (if_neg met), ?_⟩
      intro state
      -- A child outside the range holds no extent that meets it.
      rw [Bool.not_eq_true, pieceLength] at met
      rw [walked, placed_append, filter_append, filter_placed_eq_nil met, nil_append]

theorem walksSubtrees (deep : level < fuel) (low : level ≤ MAX_TREE_LEVEL) :
    WalksSubtrees read requested visit fuel level := by
  induction fuel generalizing level with
  | zero => omega
  | succ fuel ih =>
    intro candidate extents state subtree announces fits
    rcases subtree.node_facts with ⟨node, readable, _⟩
    have opened := (openNode_of_subtree subtree readable).mpr ⟨announces, low⟩
    rw [walkNode, opened, ok_bind]
    rcases subtree.opened (fun _ _ => id) readable with ⟨leaf, rfl, rfl, rfl, _⟩ |
      ⟨inner, level, rfl, rfl, atLevel, forest⟩
    · simp only
      rw [visitExtents_eq (by omega), Nat.add_zero, Nat.zero_add]
      cases visitAll visit state ((placed candidate.absoluteOffset leaf.extents).filter
          (meetsExtent requested)) with
      | error error => rfl
      | ok reached => simp [Except.map, require, leaf.length_eq, pure, Except.pure]
    · have total := forest.size
      rcases walk_children candidate (@ih level (by omega) (by omega))
        inner.valid.partition forest (by omega) with ⟨pending, made, walked⟩
      simp only [atLevel, Nat.add_sub_cancel, made, ok_bind, walked state, Nat.add_zero]
      rw [← total]
      rfl

/-- The subtrees under the children, if each of them was walked completely. -/
theorem forest_of_walk {pending : List (PendingNode ObjectId)} {reached : σ}
    (sound : ∀ (child : PendingNode ObjectId) (before : σ) (after : ℕ × σ),
      walkNode read none visit fuel child before = .ok after → ∃ childLevel extents,
        childLevel ≤ MAX_TREE_LEVEL ∧ Subtree read childLevel child.objectId extents ∧
          Announces child childLevel extents)
    (made : pendingChildren none candidate level children = .ok pending)
    (walked : pending.foldlM (fun before child => do
      let (_, after) ← walkNode read none visit fuel child before
      return after) state = .ok reached) :
    ∃ extents, Forest (Subtree read level) (children.map nodeRefFromChild) extents := by
  induction children generalizing pending state with
  | nil => exact ⟨[], Forest.nil⟩
  | cons child rest ih =>
    simp only [pendingChildren, bind_ok, pendingChild_ok, pure_ok] at made
    rcases made with ⟨others, restMade, _, ⟨_, rfl⟩, _, _, rfl⟩
    simp only [meets, all_none, if_true, foldlM_cons, bind_ok, pure_ok] at walked
    rcases walked with ⟨between, ⟨after, walkedChild, rfl⟩, walkedRest⟩
    rcases sound _ _ _ walkedChild with ⟨childLevel, piece, _, subtree, announces⟩
    rcases ih restMade walkedRest with ⟨extents, forest⟩
    have sameLevel : level = childLevel := announces.level level rfl
    have sameLength : child.logicalLength = totalLength piece :=
      announces.length child.logicalLength rfl
    have sameAllocation : child.allocatedBytes = extentAllocation piece :=
      announces.allocation child.allocatedBytes rfl
    subst sameLevel
    exact ⟨piece ++ extents, Forest.cons ⟨sameLength, sameAllocation, subtree⟩ forest⟩

theorem subtree_of_walk {result : ℕ × σ}
    (walked : walkNode read none visit fuel candidate state = .ok result) :
    ∃ level extents, level ≤ MAX_TREE_LEVEL ∧ Subtree read level candidate.objectId extents ∧
      Announces candidate level extents := by
  induction fuel generalizing candidate state result with
  | zero => cases walked
  | succ fuel ih =>
    rw [walkNode, bind_ok] at walked
    rcases walked with ⟨node, opened, walked⟩
    rcases openNode_ok.mp opened with ⟨readable, admitted, low⟩
    cases node with
    | leaf leaf =>
      have subtree : Subtree read 0 candidate.objectId leaf.extents := ⟨leaf, readable, rfl⟩
      have accepted := (openNode_of_subtree subtree readable).mp opened
      exact ⟨0, leaf.extents, accepted.2, subtree, accepted.1⟩
    | inner inner =>
      simp only [bind_ok] at walked
      rcases walked with ⟨pending, made, reached, walked, _⟩
      have positive := inner.valid.level_pos
      rcases forest_of_walk (fun _ _ _ => ih) made walked with ⟨extents, forest⟩
      have atLevel : inner.level = inner.level - 1 + 1 := by omega
      have subtree : Subtree read (inner.level - 1 + 1) candidate.objectId extents :=
        ⟨inner, readable, atLevel, forest⟩
      have accepted := (openNode_of_subtree subtree readable).mp opened
      exact ⟨inner.level - 1 + 1, extents, accepted.2, subtree, accepted.1⟩

theorem announces_root {expectedRootLength : Option ℕ}
    (expected : ∀ length ∈ expectedRootLength, length = totalLength extents) :
    Announces (ofRoot root expectedRootLength none) level extents :=
  ⟨by simp [ofRoot], expected, by simp [ofRoot]⟩

theorem walkManifestTree_eq {expectedRootLength : Option ℕ} (low : level ≤ MAX_TREE_LEVEL)
    (subtree : Subtree read level root extents)
    (expected : ∀ length ∈ expectedRootLength, length = totalLength extents) :
    walkManifestTree root requested expectedRootLength read visit state =
      (visitAll visit state ((placed 0 extents).filter (meetsExtent requested))).map
        fun reached => (totalLength extents, reached) := by
  apply walksSubtrees (lt_succ_of_le low) low
  · exact subtree
  · exact announces_root expected
  · have bounded := subtree.bounded
    simpa [ofRoot] using bounded

theorem filter_meetsExtent_none (items : List (ℕ × ManifestExtent)) :
    items.filter (meetsExtent none) = items := by
  apply filter_eq_self.mpr
  intro item _
  rfl

/-- The visitor of a scan keeps the allocation total next to the caller's state. -/
theorem visitAll_counting {base : ℕ} (fits : allocated + extentAllocation extents < 2 ^ 64) :
    visitAll (fun (counted : ℕ × σ) offset extent => do
        let allocated' ← addAllocated counted.1 extent extent.logicalLength
        let reached' ← visit counted.2 offset extent
        return (allocated', reached')) (allocated, state) (placed base extents) =
      (visitAll visit state (placed base extents)).map
        fun reached => (allocated + extentAllocation extents, reached) := by
  induction extents generalizing allocated state base with
  | nil => rfl
  | cons extent rest ih =>
    rw [extentAllocation_cons] at fits
    have counted : (addAllocated allocated extent extent.logicalLength :
        Except (ManifestTreeError ObjectId) ℕ) =
        .ok (allocated + if extent.isHole then 0 else extent.logicalLength) := by
      apply (addAllocated_ok (by omega)).mpr
      exact ⟨rfl, by omega⟩
    simp only [visitAll, placed, foldlM_cons, counted, ok_bind]
    cases visited : visit state base extent with
    | error error => rfl
    | ok reached =>
      rw [extentAllocation_cons, ← add_assoc]
      exact ih (by omega)

/-- A scan accepts exactly the roots of complete trees, and its summary is exact. -/
theorem scanManifestTree_ok {result : ManifestTreeSummary ObjectId × σ} :
    scanManifestTree root read visit state = .ok result ↔
      ∃ level extents, level ≤ MAX_TREE_LEVEL ∧ Subtree read level root extents ∧
        result.1 = { root, logicalSize := totalLength extents,
                     allocatedBytes := extentAllocation extents } ∧
        visitAll visit state (placed 0 extents) = .ok result.2 := by
  have scanned : ∀ level extents, level ≤ MAX_TREE_LEVEL → Subtree read level root extents →
      scanManifestTree root read visit state =
        (visitAll visit state (placed 0 extents)).map fun reached =>
          ({ root, logicalSize := totalLength extents,
             allocatedBytes := extentAllocation extents }, reached) := by
    intro level extents low subtree
    have bounded := subtree.bounded
    have counted := extentAllocation_le extents
    unfold scanManifestTree
    rw [walkManifestTree_eq low subtree (by simp), filter_meetsExtent_none,
      visitAll_counting (by omega), zero_add]
    cases visitAll visit state (placed 0 extents) with
    | error error => rfl
    | ok reached => rfl
  constructor
  · intro accepted
    have walked := accepted
    simp only [scanManifestTree, walkManifestTree, bind_ok] at walked
    rcases walked with ⟨_, walked, _⟩
    rcases subtree_of_walk walked with ⟨level, extents, low, subtree, _⟩
    rw [scanned level extents low subtree, map_ok] at accepted
    rcases accepted with ⟨reached, visited, rfl⟩
    exact ⟨level, extents, low, subtree, rfl, visited⟩
  · intro tree
    rcases tree with ⟨level, extents, low, subtree, summarized, visited⟩
    rw [scanned level extents low subtree, visited, Except.map, ← summarized]

end Walking

/-- The bytes of a placed extent that lie inside a range and are not a hole. -/
def overlapBytes (start finish : ℕ) (item : ℕ × ManifestExtent) : ℕ :=
  if item.2.isHole then 0 else min (item.1 + item.2.logicalLength) finish - max item.1 start

def rangeAllocation (base start finish : ℕ) (extents : List ManifestExtent) : ℕ :=
  ((placed base extents).map (overlapBytes start finish)).sum

@[simp]
theorem rangeAllocation_nil (base start finish : ℕ) : rangeAllocation base start finish [] = 0 :=
  rfl

theorem rangeAllocation_cons (base start finish : ℕ) (extent : ManifestExtent)
    (rest : List ManifestExtent) : rangeAllocation base start finish (extent :: rest) =
      overlapBytes start finish (base, extent) +
        rangeAllocation (base + extent.logicalLength) start finish rest := by
  simp [rangeAllocation, placed]

theorem rangeAllocation_append (base start finish : ℕ) (left right : List ManifestExtent) :
    rangeAllocation base start finish (left ++ right) = rangeAllocation base start finish left +
        rangeAllocation (base + totalLength left) start finish right := by
  simp [rangeAllocation, placed_append]

variable {base start finish : ℕ}

theorem rangeAllocation_outside
    (apart : base + totalLength extents ≤ start ∨ finish ≤ base ∨ finish ≤ start) :
    rangeAllocation base start finish extents = 0 := by
  induction extents generalizing base with
  | nil => rfl
  | cons extent rest ih =>
    rw [totalLength_cons] at apart
    rw [rangeAllocation_cons, ih (by omega), overlapBytes]
    split
    · rfl
    · simp only
      omega

theorem rangeAllocation_inside (after : start ≤ base) (before : base + totalLength extents ≤ finish)
    : rangeAllocation base start finish extents = extentAllocation extents := by
  induction extents generalizing base with
  | nil => rfl
  | cons extent rest ih =>
    rw [totalLength_cons] at before
    rw [rangeAllocation_cons, ih (by omega) (by omega), extentAllocation_cons, overlapBytes]
    split
    · rfl
    · simp only
      omega

theorem rangeAllocation_le (base start finish : ℕ) (extents : List ManifestExtent) :
    rangeAllocation base start finish extents ≤ extentAllocation extents := by
  induction extents generalizing base with
  | nil => exact le_rfl
  | cons extent rest ih =>
    have later := ih (base + extent.logicalLength)
    rw [rangeAllocation_cons, extentAllocation_cons, overlapBytes]
    split
    · omega
    · simp only
      omega

theorem sum_overlap_filter {start finish : ℕ} (items : List (ℕ × ManifestExtent)) :
    ((items.filter (meetsExtent (some (start, finish)))).map (overlapBytes start finish)).sum =
      (items.map (overlapBytes start finish)).sum := by
  induction items with
  | nil => rfl
  | cons item rest ih =>
    by_cases met : meetsExtent (some (start, finish)) item = true
    · rw [filter_cons_of_pos met, map_cons, sum_cons, ih, map_cons, sum_cons]
    · have nothing : overlapBytes start finish item = 0 := by
        simp only [meetsExtent, meets, all_some, decide_eq_true_eq] at met
        unfold overlapBytes
        split
        · rfl
        · omega
      rw [filter_cons_of_neg met, ih, map_cons, sum_cons, nothing, zero_add]

section Counting

variable {read : NodeReader ObjectId}

theorem visitAll_collect {γ : Type} (keep : ℕ → ManifestExtent → γ) (found : List γ)
    (items : List (ℕ × ManifestExtent)) :
    (visitAll (fun collected offset extent => .ok (collected ++ [keep offset extent])) found items :
      Except (ManifestTreeError ObjectId) (List γ)) =
      .ok (found ++ items.map fun item => keep item.1 item.2) := by
  induction items generalizing found with
  | nil => simp [visitAll, pure, Except.pure]
  | cons item rest ih =>
    simp only [visitAll, foldlM_cons, ok_bind] at ih ⊢
    rw [ih]
    simp

theorem readManifestTreeRange_eq (low : level ≤ MAX_TREE_LEVEL)
    (subtree : Subtree read level root extents) (ordered : start < finish)
    (inside : finish ≤ totalLength extents) :
    readManifestTreeRange root (totalLength extents) start (finish - start) read =
      .ok (((placed 0 extents).filter (meetsExtent (some (start, finish)))).map
        fun item => ManifestRangeExtent.mk item.1 item.2) := by
  have bounded := subtree.bounded
  have ending : min (min (start + (finish - start)) (2 ^ 64 - 1)) (totalLength extents) =
      finish := by omega
  unfold readManifestTreeRange
  rw [if_neg (by omega)]
  simp only [ending]
  rw [walkManifestTree_eq low subtree (by simp), visitAll_collect]
  simp [Except.map, require, pure, Except.pure]

theorem allocatedBytesInRange_eq (bounded : totalLength extents < 2 ^ 64) :
    (allocatedBytesInRange start finish
      (((placed 0 extents).filter (meetsExtent (some (start, finish)))).map
        fun item => ManifestRangeExtent.mk item.1 item.2) :
      Except (ManifestTreeError ObjectId) ℕ) = .ok (rangeAllocation 0 start finish extents) := by
  have counted := rangeAllocation_le 0 start finish extents
  have total := extentAllocation_le extents
  unfold allocatedBytesInRange
  rw [foldlM_map]
  apply (foldlM_sum_ok ?_ (Nat.two_pow_pos 64)).mpr
  · rw [sum_overlap_filter, zero_add]
    exact ⟨rfl, by omega⟩
  · intro item mem sum total small
    have bounds := bounds_of_mem_placed (mem_of_mem_filter mem)
    simp only [overlapBytes]
    split
    · rw [Except.ok.injEq]
      omega
    · rw [checkedAdd_of_lt (by omega), ok_bind, checkedAdd_ok]
      omega

theorem addLeafAllocation_eq {finish base : ℕ}
    (fits : base + localOffset + totalLength extents < 2 ^ 64)
    (counted : allocated + rangeAllocation (base + localOffset) offset finish extents < 2 ^ 64) :
    (addLeafAllocation offset finish base localOffset allocated extents :
      Except (ManifestTreeError ObjectId) ℕ) =
      .ok (allocated + rangeAllocation (base + localOffset) offset finish extents) := by
  induction extents generalizing localOffset allocated with
  | nil => rfl
  | cons extent rest ih =>
    rw [totalLength_cons] at fits
    rw [rangeAllocation_cons, add_assoc base] at counted ⊢
    have added : (addAllocated allocated extent (min (base + localOffset + extent.logicalLength)
        finish - max (base + localOffset) offset) : Except (ManifestTreeError ObjectId) ℕ) =
        .ok (allocated + overlapBytes offset finish (base + localOffset, extent)) := by
      apply (addAllocated_ok (by omega)).mpr
      exact ⟨rfl, by omega⟩
    rw [addLeafAllocation, checkedAdd_of_lt (by omega), ok_bind, checkedAdd_of_lt (by omega),
      ok_bind, added, ok_bind, checkedAdd_of_lt (by omega), ok_bind, ih (by omega) (by omega),
      add_assoc]

/-- What counting a subtree amounts to, as a property of the fuel that is left. -/
def CountsSubtrees (read : NodeReader ObjectId) (offset finish fuel level : ℕ) : Prop :=
  ∀ (candidate : PendingNode ObjectId) (extents : List ManifestExtent) (allocated : ℕ),
    Subtree read level candidate.objectId extents → Announces candidate level extents →
    candidate.absoluteOffset + totalLength extents < 2 ^ 64 →
    allocated + rangeAllocation candidate.absoluteOffset offset finish extents < 2 ^ 64 →
    addNodeAllocation read offset finish fuel candidate allocated =
      .ok (allocated + rangeAllocation candidate.absoluteOffset offset finish extents)

/-- The announced totals of the children inside the range and the counts of those that only
meet it add up. -/
theorem count_children {finish start nodeEnd : ℕ} (candidate : PendingNode ObjectId)
    {children : List (ManifestChildRange ObjectId)}
    (counts : CountsSubtrees read offset finish fuel level)
    (partition : ChildPartition start children nodeEnd)
    (forest : Forest (Subtree read level) (children.map nodeRefFromChild) extents)
    (fits : candidate.absoluteOffset + nodeEnd < 2 ^ 64)
    (counted : allocated + rangeAllocation (candidate.absoluteOffset + start) offset finish
      extents < 2 ^ 64) : ∃ announced met pending,
      addChildAllocation offset finish candidate level allocated children =
        .ok (allocated + announced, pending) ∧
      announced + met = rangeAllocation (candidate.absoluteOffset + start) offset finish extents ∧
      ∀ total, total + met < 2 ^ 64 →
        pending.foldlM (fun sum child => addNodeAllocation read offset finish fuel child sum)
          total = .ok (total + met) := by
  induction children generalizing start extents with
  | nil =>
    cases forest
    exact ⟨0, 0, [], rfl, rfl, fun _ _ => rfl⟩
  | cons child rest ih =>
    rcases partition with ⟨rfl, _, _, restPartition⟩
    rcases forest with _ | ⟨refers, following⟩
    rename_i piece others
    have ordered := restPartition.le
    have pieceLength : child.logicalLength = totalLength piece := refers.length
    have pieceAllocation : child.allocatedBytes = extentAllocation piece := refers.allocation
    have shifted : candidate.absoluteOffset + (child.logicalOffset + child.logicalLength) =
        candidate.absoluteOffset + child.logicalOffset + totalLength piece := by omega
    rw [rangeAllocation_append, ← shifted] at counted ⊢
    rcases ih restPartition following (by omega) with ⟨announced, met, pending, made, split, rest⟩
    generalize nextEq : ofChild candidate child level = next
    have nextOffset : next.absoluteOffset = candidate.absoluteOffset + child.logicalOffset := by
      rw [← nextEq, ofChild_absoluteOffset]
    have nextMade : pendingChild candidate child level = .ok next := by
      rw [← nextEq]
      exact pendingChild_of_lt (by omega) level
    rw [← nextOffset] at counted ⊢
    simp only [addChildAllocation, made, nextMade, ok_bind]
    rw [checkedAdd_of_lt (by omega), ok_bind]
    by_cases apart : next.absoluteOffset + child.logicalLength ≤ offset ∨
        next.absoluteOffset ≥ finish
    · rw [if_pos apart, rangeAllocation_outside (by omega), zero_add]
      exact ⟨announced, met, pending, rfl, split, rest⟩
    · rw [if_neg apart]
      by_cases within : offset ≤ next.absoluteOffset ∧
          next.absoluteOffset + child.logicalLength ≤ finish
      · rw [rangeAllocation_inside (by omega) (by omega)] at counted ⊢
        rw [if_pos within, checkedAdd_of_lt (by omega), ok_bind]
        refine ⟨announced + child.allocatedBytes, met, pending, ?_, by omega, rest⟩
        rw [add_assoc]
        rfl
      · rw [if_neg within]
        refine ⟨announced, rangeAllocation next.absoluteOffset offset finish piece + met,
          next :: pending, rfl, by omega, ?_⟩
        intro total small
        have announces := refers.announces candidate level
        have stands : Subtree read level
          (ofChild candidate child level).objectId piece := refers.stands
        rw [nextEq] at announces stands
        rw [foldlM_cons, counts next piece total stands announces (by omega) (by omega),
          ok_bind, rest _ (by omega), add_assoc]

theorem countsSubtrees {finish : ℕ} (deep : level < fuel) (low : level ≤ MAX_TREE_LEVEL) :
    CountsSubtrees read offset finish fuel level := by
  induction fuel generalizing level with
  | zero => omega
  | succ fuel ih =>
    intro candidate extents allocated subtree announces fits counted
    rcases subtree.node_facts with ⟨node, readable, _⟩
    have opened := (openNode_of_subtree subtree readable).mpr ⟨announces, low⟩
    rw [addNodeAllocation, opened, ok_bind]
    rcases subtree.opened (fun _ _ => id) readable with ⟨leaf, rfl, rfl, rfl, _⟩ |
      ⟨inner, level, rfl, rfl, atLevel, forest⟩
    · exact addLeafAllocation_eq fits counted
    · have total := forest.size
      rcases count_children candidate (@ih level (by omega) (by omega)) inner.valid.partition
        forest (by omega) counted with ⟨announced, met, pending, made, split, rest⟩
      rw [add_zero] at split
      simp only [atLevel, Nat.add_sub_cancel, made, ok_bind]
      rw [rest _ (by omega), Nat.add_assoc, split]

theorem allocatedBytesInManifestTreeRange_eq (low : level ≤ MAX_TREE_LEVEL)
    (subtree : Subtree read level root extents) (ordered : start ≤ finish)
    (inside : finish ≤ totalLength extents) :
    allocatedBytesInManifestTreeRange root (totalLength extents) start (finish - start) read =
      .ok (rangeAllocation 0 start finish extents) := by
  have bounded := subtree.bounded
  have removed := rangeAllocation_le 0 start finish extents
  have total := extentAllocation_le extents
  unfold allocatedBytesInManifestTreeRange
  by_cases empty : finish - start = 0 ∨ start ≥ totalLength extents
  · rw [if_pos empty, rangeAllocation_outside (by omega)]
  · have ending : min (min (start + (finish - start)) (2 ^ 64 - 1)) (totalLength extents) =
        finish := by omega
    rw [if_neg empty]
    simp only [ending]
    have counts : CountsSubtrees read start finish (MAX_TREE_LEVEL + 1) level :=
      countsSubtrees (lt_succ_of_le low) low
    rw [counts _ extents 0 subtree (announces_root (by simp)) (by simpa [ofRoot] using bounded)
      (by simp only [ofRoot]; omega), zero_add]
    rfl

end Counting

end Fastdup.Store
