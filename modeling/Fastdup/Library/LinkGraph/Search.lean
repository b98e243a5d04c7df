import Fastdup.Library.LinkGraph
import Mathlib.Data.List.Sublists

/-!
# Searching a directory tree

The search keeps the directories still to be visited on a stack and marks what it reaches. It
gives up when it reaches a directory twice. On a tree that never happens, and the search marks
exactly what edges lead to: everything with a link.

Climbing from a directory to the root decides whether another directory is above it.
-/

namespace Fastdup.Library.LinkGraph

open List

variable {Id Name : Type} [DecidableEq Id] {reached pending visited nodes : List Id} {fuel : ℕ}

section Search

variable (isDirectory : Id → Bool)

/-- One child of the visited directory, on what was reached and what is pending. -/
def reach (state : List Id × List Id) (child : Id) : Option (List Id × List Id) :=
  if child ∈ state.1 then if isDirectory child then none else some state
  else some (child :: state.1, if isDirectory child then child :: state.2 else state.2)

/-- Visits the pending directories. The outer option is empty when more than `fuel` of them were to
be visited, the inner one when a directory was reached twice. -/
def search (children : Id → List Id) : ℕ → List Id → List Id → Option (Option (List Id))
  | _, reached, [] => some (some reached)
  | 0, _, _ :: _ => none
  | fuel + 1, reached, parent :: pending =>
    match (children parent).foldlM (reach isDirectory) (reached, pending) with
    | none => some none
    | some (reached, pending) => search children fuel reached pending

/-- What a visit leaves behind: the children are reached and those that are directories wait. -/
structure Visited (children reached pending reached' pending' : List Id) : Prop where
  nodup : reached'.Nodup
  reached : ∀ id, id ∈ reached' ↔ id ∈ reached ∨ id ∈ children
  pendingNodup : pending'.Nodup
  pending : ∀ id, id ∈ pending' ↔ id ∈ pending ∨ id ∈ children ∧ isDirectory id = true

variable {isDirectory}

theorem foldlM_reach {children : List Id} (nodup : reached.Nodup) (pendingNodup : pending.Nodup)
    (fresh : ∀ child ∈ children, isDirectory child = true → child ∉ reached ∧ child ∉ pending)
    (distinct : children.Pairwise fun left right => left = right → ¬ isDirectory left = true) :
    ∃ reached' pending', children.foldlM (reach isDirectory) (reached, pending) =
        some (reached', pending') ∧
      Visited isDirectory children reached pending reached' pending' := by
  induction children generalizing reached pending with
  | nil => exact ⟨reached, pending, rfl, nodup, by simp, pendingNodup, by simp⟩
  | cons child rest ih =>
    rw [pairwise_cons] at distinct
    by_cases seen : child ∈ reached
    · -- only a leaf is reached again, and nothing changes
      have leaf : ¬ isDirectory child = true := fun directory =>
        (fresh child mem_cons_self directory).1 seen
      have skip : reach isDirectory (reached, pending) child = some (reached, pending) := by
        rw [reach, if_pos seen, if_neg leaf]
      rcases ih nodup pendingNodup
        (fun other mem => fresh other (mem_cons_of_mem child mem)) distinct.2 with
        ⟨reached', pending', folded, visited⟩
      refine ⟨reached', pending', ?_, visited.nodup, ?_, visited.pendingNodup, ?_⟩
      · rw [foldlM_cons, skip]
        exact folded
      · intro id
        rw [visited.reached, mem_cons]
        constructor
        · tauto
        · rintro (old | rfl | new)
          · exact .inl old
          · exact .inl seen
          · exact .inr new
      · intro id
        rw [visited.pending, mem_cons]
        constructor
        · tauto
        · rintro (old | ⟨rfl | new, directory⟩)
          · exact .inl old
          · exact absurd directory leaf
          · exact .inr ⟨new, directory⟩
    · have step : reach isDirectory (reached, pending) child =
          some (child :: reached, if isDirectory child then child :: pending else pending) := by
        rw [reach, if_neg seen]
      have pendingIff : ∀ id, id ∈ (if isDirectory child then child :: pending else pending) ↔
          id ∈ pending ∨ id = child ∧ isDirectory child = true := by
        intro id
        by_cases directory : isDirectory child = true
        · rw [if_pos directory, mem_cons]
          tauto
        · rw [if_neg directory]
          tauto
      have nextNodup : (if isDirectory child then child :: pending else pending).Nodup := by
        by_cases directory : isDirectory child = true
        · rw [if_pos directory, nodup_cons]
          exact ⟨(fresh child mem_cons_self directory).2, pendingNodup⟩
        · rw [if_neg directory]
          exact pendingNodup
      have nextFresh : ∀ other ∈ rest, isDirectory other = true → other ∉ child :: reached ∧
          other ∉ (if isDirectory child then child :: pending else pending) := by
        intro other mem directory
        have new : child ≠ other := fun same =>
          distinct.1 other mem same (same ▸ directory)
        have old := fresh other (mem_cons_of_mem child mem) directory
        rw [pendingIff, mem_cons]
        exact ⟨fun either => either.elim (fun same => new same.symm) old.1,
          fun either => either.elim old.2 fun same => new same.1.symm⟩
      rcases ih (nodup_cons.mpr ⟨seen, nodup⟩) nextNodup nextFresh distinct.2 with
        ⟨reached', pending', folded, visited⟩
      refine ⟨reached', pending', ?_, visited.nodup, ?_, visited.pendingNodup, ?_⟩
      · rw [foldlM_cons, step]
        exact folded
      · intro id
        rw [visited.reached, mem_cons, mem_cons]
        tauto
      · intro id
        rw [visited.pending, pendingIff, mem_cons]
        constructor
        · rintro ((old | ⟨rfl, directory⟩) | ⟨new, directory⟩)
          · exact .inl old
          · exact .inr ⟨.inl rfl, directory⟩
          · exact .inr ⟨.inr new, directory⟩
        · rintro (old | ⟨rfl | new, directory⟩)
          · exact .inl (.inl old)
          · exact .inl (.inr ⟨rfl, directory⟩)
          · exact .inr ⟨new, directory⟩

end Search

def children (graph : LinkGraph Id Name) (parent : Id) : List Id :=
  (graph.edges.filter fun edge => edge.parent = parent).map Edge.target

theorem mem_children {graph : LinkGraph Id Name} {parent id : Id} :
    id ∈ graph.children parent ↔ ∃ edge ∈ graph.edges, edge.parent = parent ∧ edge.target = id := by
  simp [children, and_assoc]

section Forest

variable [DecidableEq Name] {graph : LinkGraph Id Name} {root : Id}

omit [DecidableEq Name] in
theorem Forest.edges_nodup (forest : graph.Forest root) : graph.edges.Nodup :=
  List.Nodup.of_map Edge.place forest.places

theorem Forest.children_distinct (forest : graph.Forest root) (parent : Id) :
    (graph.children parent).Pairwise fun left right =>
      left = right → graph.kind left ≠ some .directory := by
  rw [children, pairwise_map]
  have distinct : (graph.edges.filter fun edge => edge.parent = parent).Pairwise (· ≠ ·) :=
    forest.edges_nodup.filter _
  apply distinct.imp_of_mem
  intro first second firstMem secondMem ne same directory
  exact ne (forest.directory_edge_unique (mem_of_mem_filter firstMem)
    (mem_of_mem_filter secondMem) same directory)

/-- Where the search stands: the visited directories decide what has been reached, and every
directory reached has been visited or is pending. -/
structure Searching (graph : LinkGraph Id Name) (root : Id) (visited reached pending : List Id) :
    Prop where
  visitedNodup : visited.Nodup
  nodup : reached.Nodup
  pendingNodup : pending.Nodup
  disjoint : ∀ id ∈ pending, id ∉ visited
  directories : ∀ id ∈ visited ++ pending, id = root ∨ id ∈ reached
  reached_iff : ∀ id, id ∈ reached ↔ ∃ parent ∈ visited, id ∈ graph.children parent
  covered : ∀ id, id = root ∨ id ∈ reached → graph.kind id = some .directory →
    id ∈ visited ++ pending

omit [DecidableEq Name] in
theorem Searching.start (graph : LinkGraph Id Name) (root : Id) :
    Searching graph root [] [] [root] := by
  refine ⟨nodup_nil, nodup_nil, by simp, by simp, by simp, by simp, ?_⟩
  rintro id (rfl | none) _
  · simp
  · cases none

/-- Visiting the next directory succeeds and keeps where the search stands. -/
theorem Searching.visit {parent : Id} (forest : graph.Forest root)
    (searching : Searching graph root visited reached (parent :: pending)) :
    ∃ reached' pending', (graph.children parent).foldlM
        (reach fun id => graph.kind id = some .directory) (reached, pending) =
        some (reached', pending') ∧ Searching graph root (parent :: visited) reached' pending' := by
  have notVisited := searching.disjoint parent mem_cons_self
  have pendingNodup := nodup_cons.mp searching.pendingNodup
  -- a directory has one edge into it, and the edges that were followed start elsewhere
  have unreached : ∀ child ∈ graph.children parent, graph.kind child = some .directory →
      child ∉ reached ∧ child ∉ visited ++ parent :: pending := by
    intro child mem directory
    rcases mem_children.mp mem with ⟨edge, edgeMem, edgeParent, rfl⟩
    have unreached : edge.target ∉ reached := by
      intro seen
      rcases (searching.reached_iff _).mp seen with ⟨other, otherVisited, otherChild⟩
      rcases mem_children.mp otherChild with ⟨second, secondMem, secondParent, same⟩
      have unique := forest.directory_edge_unique edgeMem secondMem same.symm directory
      rw [unique, secondParent] at edgeParent
      exact notVisited (edgeParent ▸ otherVisited)
    refine ⟨unreached, ?_⟩
    intro known
    rcases searching.directories _ known with isRoot | seen
    · exact forest.rootFree edge edgeMem isRoot
    · exact unreached seen
  have fresh : ∀ child ∈ graph.children parent,
      decide (graph.kind child = some .directory) = true → child ∉ reached ∧ child ∉ pending := by
    intro child mem isDirectory
    have new := unreached child mem (of_decide_eq_true isDirectory)
    exact ⟨new.1, fun waiting =>
      new.2 (mem_append_right visited (mem_cons_of_mem parent waiting))⟩
  have distinct : (graph.children parent).Pairwise fun left right =>
      left = right → ¬ decide (graph.kind left = some .directory) = true := by
    apply (forest.children_distinct parent).imp
    intro left right leaf same isDirectory
    exact leaf same (of_decide_eq_true isDirectory)
  rcases foldlM_reach searching.nodup pendingNodup.2 fresh distinct with
    ⟨reached', pending', folded, result⟩
  refine ⟨reached', pending', folded, ?_⟩
  constructor
  case visitedNodup => exact nodup_cons.mpr ⟨notVisited, searching.visitedNodup⟩
  case nodup => exact result.nodup
  case pendingNodup => exact result.pendingNodup
  case disjoint =>
    intro id waiting
    rw [mem_cons, not_or]
    rcases (result.pending id).mp waiting with old | ⟨child, isDirectory⟩
    · refine ⟨?_, searching.disjoint id (mem_cons_of_mem parent old)⟩
      rintro rfl
      exact pendingNodup.1 old
    · have new := (unreached id child (of_decide_eq_true isDirectory)).2
      rw [mem_append, mem_cons, not_or, not_or] at new
      exact ⟨new.2.1, new.1⟩
  case directories =>
    intro id mem
    rw [result.reached]
    have known : id ∈ visited ++ parent :: pending ∨ id ∈ graph.children parent := by
      rw [mem_append, mem_cons, result.pending] at mem
      rw [mem_append, mem_cons]
      tauto
    rcases known with old | child
    · rcases searching.directories id old with isRoot | seen
      · exact .inl isRoot
      · exact .inr (.inl seen)
    · exact .inr (.inr child)
  case reached_iff =>
    intro id
    rw [result.reached, searching.reached_iff]
    constructor
    · rintro (⟨other, otherVisited, child⟩ | child)
      · exact ⟨other, mem_cons_of_mem parent otherVisited, child⟩
      · exact ⟨parent, mem_cons_self, child⟩
    · rintro ⟨other, mem, child⟩
      rcases mem_cons.mp mem with rfl | otherVisited
      · exact .inr child
      · exact .inl ⟨other, otherVisited, child⟩
  case covered =>
    intro id either directory
    rw [result.reached] at either
    rw [mem_append, mem_cons, result.pending]
    have known : id ∈ visited ++ parent :: pending ∨ id ∈ graph.children parent := by
      rcases either with isRoot | seen | child
      · exact .inl (searching.covered id (.inl isRoot) directory)
      · exact .inl (searching.covered id (.inr seen) directory)
      · exact .inr child
    rcases known with old | child
    · rw [mem_append, mem_cons] at old
      tauto
    · exact .inr (.inr ⟨child, decide_eq_true directory⟩)

omit [DecidableEq Name] in
/-- When nothing is pending, everything that edges lead to has been reached. -/
theorem Searching.finished (forest : graph.Forest root) (attached : graph.Attached root)
    (searching : Searching graph root visited reached []) (id : Id) :
    id ∈ reached ↔ ∃ edge ∈ graph.edges, edge.target = id := by
  have visitedAll : ∀ id, Reachable root graph.edges id → graph.kind id = some .directory →
      id ∈ visited := by
    intro id reachable
    induction reachable with
    | start =>
      intro directory
      simpa using searching.covered root (.inl rfl) directory
    | @step edge mem _ ih =>
      intro directory
      have parent := ih (forest.parent_directory attached mem)
      have seen := (searching.reached_iff edge.target).mpr
        ⟨edge.parent, parent, mem_children.mpr ⟨edge, mem, rfl, rfl⟩⟩
      simpa using searching.covered _ (.inr seen) directory
  rw [searching.reached_iff]
  constructor
  · rintro ⟨parent, _, child⟩
    rcases mem_children.mp child with ⟨edge, mem, _, same⟩
    exact ⟨edge, mem, same⟩
  · rintro ⟨edge, mem, rfl⟩
    have parent := visitedAll _ (forest.reachable_parent attached mem)
      (forest.parent_directory attached mem)
    exact ⟨edge.parent, parent, mem_children.mpr ⟨edge, mem, rfl, rfl⟩⟩

variable (forest : graph.Forest root) (attached : graph.Attached root)
  (nodes_targets : ∀ edge ∈ graph.edges, edge.target ∈ nodes)

include forest attached nodes_targets

theorem Searching.search (searching : Searching graph root visited reached pending)
    (enough : nodes.length + 1 ≤ visited.length + fuel) :
    ∃ found, LinkGraph.search (fun id => graph.kind id = some .directory) graph.children fuel
        reached pending = some (some found) ∧
      found.Nodup ∧ ∀ id, id ∈ found ↔ ∃ edge ∈ graph.edges, edge.target = id := by
  induction fuel generalizing visited reached pending with
  | zero =>
    cases pending with
    | nil => exact ⟨reached, rfl, searching.nodup, searching.finished forest attached⟩
    | cons parent pending =>
      -- the visited directories and the next one are more than there are
      exfalso
      have distinct : (parent :: visited).Nodup :=
        nodup_cons.mpr ⟨searching.disjoint parent mem_cons_self, searching.visitedNodup⟩
      have known : (parent :: visited) ⊆ root :: nodes := by
        intro id mem
        have somewhere : id ∈ visited ++ parent :: pending := by
          rcases mem_cons.mp mem with rfl | seen
          · simp
          · exact mem_append_left _ seen
        rcases searching.directories id somewhere with isRoot | seen
        · exact mem_cons.mpr (.inl isRoot)
        · rcases (searching.reached_iff id).mp seen with ⟨_, _, child⟩
          rcases mem_children.mp child with ⟨edge, edgeMem, _, rfl⟩
          exact mem_cons_of_mem root (nodes_targets edge edgeMem)
      have bounded := (List.Nodup.subperm distinct known).length_le
      simp only [length_cons] at bounded
      omega
  | succ fuel ih =>
    cases pending with
    | nil => exact ⟨reached, rfl, searching.nodup, searching.finished forest attached⟩
    | cons parent pending =>
      rcases searching.visit forest with ⟨reached', pending', folded, next⟩
      rw [LinkGraph.search, folded]
      exact ih next (by rw [length_cons]; omega)

theorem Forest.search_root :
    ∃ found, LinkGraph.search (fun id => graph.kind id = some .directory) graph.children
        (nodes.length + 1) [] [root] = some (some found) ∧
      found.Nodup ∧ ∀ id, id ∈ found ↔ ∃ edge ∈ graph.edges, edge.target = id :=
  (Searching.start graph root).search forest attached nodes_targets (by simp)

end Forest

section Climb

/-- Climbs from `candidate` to the root and looks for `ancestor` on the way. The inner `none`
stands for something without a parent, the outer one for running out of fuel. -/
def climb (edges : List (Edge Id Name)) (root ancestor : Id) : ℕ → Id → Option (Option Bool)
  | 0, _ => none
  | fuel + 1, candidate =>
    if candidate = ancestor then some (some true)
    else if candidate = root then some (some false)
    else
      match edges.find? fun edge => edge.target = candidate with
      | none => some none
      | some edge => climb edges root ancestor fuel edge.parent

variable {graph : LinkGraph Id Name} {root : Id} {edges : List (Edge Id Name)}
  {ancestor candidate : Id}

/-- Every step of a climb leads over another edge, so there are at most as many steps. -/
theorem climb_ne_none (ranked : Ranked edges) (enough : edges.length < fuel) :
    climb edges root ancestor fuel candidate ≠ none := by
  rcases ranked with ⟨rank, descends⟩
  suffices climbed : ∀ (passed : List (Edge Id Name)) (fuel : ℕ) (candidate : Id), passed.Nodup →
      passed ⊆ edges → (∀ edge ∈ passed, rank candidate < rank edge.target) →
      edges.length < passed.length + fuel → climb edges root ancestor fuel candidate ≠ none by
    exact climbed [] fuel candidate nodup_nil (by simp) (by simp) (by simpa using enough)
  intro passed fuel
  induction fuel generalizing passed with
  | zero =>
    intro candidate nodup subset _ enough
    have bounded := (List.Nodup.subperm nodup subset).length_le
    omega
  | succ fuel ih =>
    intro candidate nodup subset below enough
    rw [climb]
    split
    · simp
    · split
      · simp
      · cases found : edges.find? fun edge => edge.target = candidate with
        | none => simp
        | some edge =>
          have mem := mem_of_find?_eq_some found
          have target : edge.target = candidate := by
            simpa using find?_some found
          have higher := descends edge mem
          rw [target] at higher
          apply ih (edge :: passed) edge.parent
          · refine nodup_cons.mpr ⟨?_, nodup⟩
            intro again
            have lower := below edge again
            rw [target] at lower
            omega
          · exact cons_subset.mpr ⟨mem, subset⟩
          · intro other otherMem
            rcases mem_cons.mp otherMem with rfl | old
            · rw [target]
              exact higher
            · have lower := below other old
              omega
          · rw [length_cons]
            omega

theorem Attached.climb_ne_stuck (attached : graph.Attached root)
    (start : candidate = root ∨ graph.incoming candidate ≠ 0) :
    climb graph.edges root ancestor fuel candidate ≠ some none := by
  induction fuel generalizing candidate with
  | zero => simp [climb]
  | succ fuel ih =>
    rw [climb]
    split
    · simp
    · split
      · simp
      · rename_i notRoot
        have named := start.resolve_left notRoot
        cases found : graph.edges.find? fun edge => edge.target = candidate with
        | none =>
          rw [Ne, incoming_eq_zero_iff] at named
          exact absurd (by simpa using find?_eq_none.mp found) named
        | some edge => exact ih (attached edge (mem_of_find?_eq_some found))

/-- A climb that reaches the root without meeting a directory started outside of what is below
it. -/
theorem Forest.not_reachable_of_climb [DecidableEq Name] (forest : graph.Forest root)
    {rest : List (Edge Id Name)} (subset : rest ⊆ graph.edges)
    (notLeaf : graph.kind candidate ≠ some .leaf)
    (climbed : climb graph.edges root ancestor fuel candidate = some (some false)) :
    ¬ Reachable ancestor rest candidate := by
  induction fuel generalizing candidate with
  | zero => cases climbed
  | succ fuel ih =>
    intro reachable
    rw [climb] at climbed
    split at climbed
    · cases climbed
    · rename_i other
      cases reachable with
      | start => exact other rfl
      | @step edge mem parent =>
        split at climbed
        · rename_i isRoot
          exact forest.rootFree edge (subset mem) isRoot
        · cases found : graph.edges.find? fun next => next.target = edge.target with
          | none =>
            rw [found] at climbed
            cases climbed
          | some above =>
            rw [found] at climbed
            have aboveMem := mem_of_find?_eq_some found
            have target : above.target = edge.target := by
              simpa using find?_some found
            have directory : graph.kind edge.target = some .directory := by
              cases kind : graph.kind edge.target with
              | none => exact absurd kind (forest.targets edge (subset mem))
              | some found =>
                cases found with
                | leaf => exact absurd kind notLeaf
                | directory => rfl
            have unique := forest.directory_edge_unique (subset mem) aboveMem
              target.symm directory
            rw [← unique] at climbed
            exact ih (forest.parents edge (subset mem)) climbed parent

end Climb

end Fastdup.Library.LinkGraph
