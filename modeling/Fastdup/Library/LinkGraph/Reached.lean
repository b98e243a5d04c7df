import Fastdup.Library.LinkGraph.Search
import Mathlib.Algebra.Order.BigOperators.Group.List
import Mathlib.Algebra.Order.Group.Nat

/-!
# What a search proves

The search of an arbitrary graph only finds what can be reached. A graph in which every object
with children can be reached over exactly one edge has no cycle: the number of steps from the
root is a rank.
-/

namespace Fastdup.Library.LinkGraph

open List Option

variable {Id Name : Type} [DecidableEq Id]

section Search

variable {isDirectory : Id → Bool} {good seen : Id → Prop} {state next : List Id × List Id}

theorem reach_keeps {child : Id} (seenChild : seen child) (goodChild : good child)
    (reached : reach isDirectory state child = some next)
    (holds : state.1.Nodup ∧ (∀ id ∈ state.1, seen id) ∧ ∀ id ∈ state.2, good id) :
    next.1.Nodup ∧ (∀ id ∈ next.1, seen id) ∧ ∀ id ∈ next.2, good id := by
  rcases holds with ⟨nodup, seenReached, goodPending⟩
  rw [reach] at reached
  split at reached
  · split at reached
    · cases reached
    · cases reached
      exact ⟨nodup, seenReached, goodPending⟩
  · rename_i fresh
    cases reached
    refine ⟨nodup_cons.mpr ⟨fresh, nodup⟩, ?_, ?_⟩
    · exact forall_mem_cons.mpr ⟨seenChild, seenReached⟩
    · split
      · exact forall_mem_cons.mpr ⟨goodChild, goodPending⟩
      · exact goodPending

variable {children reached pending : List Id}

theorem foldlM_reach_keeps (goodChildren : ∀ child ∈ children, seen child ∧ good child)
    (reached : children.foldlM (reach isDirectory) state = some next)
    (holds : state.1.Nodup ∧ (∀ id ∈ state.1, seen id) ∧ ∀ id ∈ state.2, good id) :
    next.1.Nodup ∧ (∀ id ∈ next.1, seen id) ∧ ∀ id ∈ next.2, good id := by
  induction children generalizing state with
  | nil =>
    cases reached
    exact holds
  | cons child rest ih =>
    rw [foldlM_cons, bind_eq_bind, bind_eq_some_iff] at reached
    rcases reached with ⟨middle, first, later⟩
    rw [forall_mem_cons] at goodChildren
    exact ih goodChildren.2 later (reach_keeps goodChildren.1.1 goodChildren.1.2 first holds)

/-- What is seen from everything that is good, and is good itself, is all that a search finds. -/
theorem search_keeps {children : Id → List Id} {fuel : ℕ} {found : List Id}
    (closed : ∀ id, good id → ∀ child ∈ children id, seen child ∧ good child)
    (nodup : reached.Nodup) (seenReached : ∀ id ∈ reached, seen id)
    (goodPending : ∀ id ∈ pending, good id)
    (searched : search isDirectory children fuel reached pending = some (some found)) :
    found.Nodup ∧ ∀ id ∈ found, seen id := by
  induction fuel generalizing reached pending with
  | zero =>
    cases pending with
    | nil =>
      cases searched
      exact ⟨nodup, seenReached⟩
    | cons parent rest => cases searched
  | succ fuel ih =>
    cases pending with
    | nil =>
      cases searched
      exact ⟨nodup, seenReached⟩
    | cons parent rest =>
      rw [search] at searched
      split at searched
      · cases searched
      · rename_i reached' pending' folded
        rw [forall_mem_cons] at goodPending
        have after := foldlM_reach_keeps (closed parent goodPending.1) folded
          ⟨nodup, seenReached, goodPending.2⟩
        exact ih after.1 after.2.1 after.2.2 searched

theorem foldlM_reach_length (reached : children.foldlM (reach isDirectory) state = some next) :
    next.2.length + state.1.length ≤ state.2.length + next.1.length := by
  induction children generalizing state with
  | nil =>
    cases reached
    omega
  | cons child rest ih =>
    rw [foldlM_cons, bind_eq_bind, bind_eq_some_iff] at reached
    rcases reached with ⟨middle, first, later⟩
    have after := ih later
    rw [reach] at first
    split at first
    · split at first
      · cases first
      · cases first
        exact after
    · cases first
      simp only [length_cons] at after
      split at after
      · rw [length_cons] at after
        omega
      · omega

/-- A search ends, also in a graph with cycles: fuel for everything that is pending or has not been
reached is enough. -/
theorem search_ne_none {children : Id → List Id} {nodes : List Id} {fuel : ℕ}
    (closed : ∀ parent, ∀ child ∈ children parent, child ∈ nodes) (nodup : reached.Nodup)
    (inside : ∀ id ∈ reached, id ∈ nodes)
    (enough : pending.length + (nodes.length - reached.length) ≤ fuel) :
    search isDirectory children fuel reached pending ≠ none := by
  induction fuel generalizing reached pending with
  | zero =>
    have nothing : pending = [] := length_eq_zero_iff.mp (by omega)
    simp [nothing, search]
  | succ fuel ih =>
    cases pending with
    | nil => simp [search]
    | cons parent rest =>
      rw [search]
      cases folded : (children parent).foldlM (reach isDirectory) (reached, rest) with
      | none => simp
      | some state =>
        have grown := foldlM_reach_length folded
        have after := @foldlM_reach_keeps _ _ isDirectory (fun _ => True) (· ∈ nodes) _ _ _
          (fun child mem => ⟨closed parent child mem, trivial⟩) folded
          ⟨nodup, inside, fun _ _ => trivial⟩
        have bounded := (after.1.subperm after.2.1).length_le
        rw [length_cons] at enough
        simp only at grown
        exact ih after.1 after.2.1 (by omega)

end Search

section Depth

/-- The node stands so many entries below the root. -/
inductive Depth (root : Id) (edges : List (Edge Id Name)) : Id → ℕ → Prop where
  | root : Depth root edges root 0
  | child {edge : Edge Id Name} {depth : ℕ} (member : edge ∈ edges)
      (parent : Depth root edges edge.parent depth) : Depth root edges edge.target (depth + 1)

variable {root id : Id} {edges : List (Edge Id Name)}

omit [DecidableEq Id] in
theorem Reachable.depth (reachable : Reachable root edges id) : ∃ depth,
    Depth root edges id depth := by
  induction reachable with
  | start => exact ⟨0, .root⟩
  | step mem _ ih =>
    rcases ih with ⟨depth, above⟩
    exact ⟨depth + 1, .child mem above⟩

omit [DecidableEq Id] in
/-- An object with children is at one depth when every such object has one edge into it. -/
theorem Depth.unique (rootFree : ∀ edge ∈ edges, edge.target ≠ root)
    (unique : ∀ first ∈ edges, ∀ second ∈ edges, first.target = second.target →
      (∃ child ∈ edges, child.parent = first.target) → first = second)
    (isParent : ∃ child ∈ edges, child.parent = id) {first second : ℕ}
    (firstDepth : Depth root edges id first) (secondDepth : Depth root edges id second) :
    first = second := by
  induction firstDepth generalizing second with
  | root =>
    generalize same : root = start at secondDepth
    cases secondDepth with
    | root => rfl
    | child mem _ => exact absurd same.symm (rootFree _ mem)
  | @child edge depth mem parent ih =>
    generalize same : edge.target = target at secondDepth
    cases secondDepth with
    | root => exact absurd same (rootFree edge mem)
    | @child other _ otherMem otherParent =>
      have one : edge = other := unique edge mem other otherMem same isParent
      subst one
      rw [ih ⟨edge, mem, rfl⟩ otherParent]

open Classical in
omit [DecidableEq Id] in
theorem Ranked.of_reachable (rootFree : ∀ edge ∈ edges, edge.target ≠ root)
    (unique : ∀ first ∈ edges, ∀ second ∈ edges, first.target = second.target →
      (∃ child ∈ edges, child.parent = first.target) → first = second)
    (reachable : ∀ edge ∈ edges, Reachable root edges edge.parent) : Ranked edges := by
  have deep : ∀ edge ∈ edges, ∃ depth, Depth root edges edge.parent depth := fun edge mem =>
    (reachable edge mem).depth
  let depth : Id → ℕ := fun id =>
    if found : ∃ depth, Depth root edges id depth then found.choose else 0
  have depth_spec : ∀ edge ∈ edges, Depth root edges edge.parent (depth edge.parent) := by
    intro edge mem
    simp only [depth, dif_pos (deep edge mem)]
    exact (deep edge mem).choose_spec
  -- what has no children is put below everything else
  refine ⟨fun id => if ∃ child ∈ edges, child.parent = id then depth id
    else 1 + (edges.map fun edge => depth edge.parent).sum, ?_⟩
  intro edge mem
  simp only [if_pos (⟨edge, mem, rfl⟩ : ∃ child ∈ edges, child.parent = edge.parent)]
  split
  · rename_i isParent
    have ⟨child, childMem, same⟩ := isParent
    have here : Depth root edges edge.target (depth edge.target) :=
      same ▸ depth_spec child childMem
    have below := Depth.unique rootFree unique isParent here (.child mem (depth_spec edge mem))
    omega
  · have listed : depth edge.parent ∈ edges.map fun edge => depth edge.parent :=
      mem_map.mpr ⟨edge, mem, rfl⟩
    have bounded := single_le_sum (fun _ _ => Nat.zero_le _) _ listed
    omega

end Depth

end Fastdup.Library.LinkGraph
