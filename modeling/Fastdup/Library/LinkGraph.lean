import Mathlib.Data.List.Count
import Mathlib.Data.List.Perm.Basic
import Mathlib.Data.List.Perm.Lattice

/-!
# Directory trees with hard links

Directories and leaves, connected by named edges. A leaf may have several edges into it and
its link count is their number. A directory has one edge into it and its link count is two
plus the directories below it, or it has been removed and no edge leads to it. No directory is
below itself. A graph like that is a forest; it is a tree when every edge starts at the root or
at a directory that has not been removed, and then everything with a link can be reached.

The changes that a file system makes are stated between two graphs: they add an edge, remove
an edge, move an edge or forget an object, and each keeps a forest. Two graphs whose edges are
stored in another order are not distinguished.
-/

namespace Fastdup.Library

open List Function Nat

/-- Whether a node may have entries. -/
inductive NodeKind where
  | leaf
  | directory
  deriving DecidableEq, Repr

/-- A name in a directory and what it refers to. -/
structure Edge (Id Name : Type) where
  parent : Id
  name : Name
  target : Id
  deriving DecidableEq, Repr

/-- Nodes with the link counts they claim, and the entries between them. -/
@[ext]
structure LinkGraph (Id Name : Type) where
  kind : Id → Option NodeKind
  links : Id → ℕ
  edges : List (Edge Id Name)

variable {Id Name : Type}

/-- The place of an edge: no two edges have one. -/
def Edge.place (edge : Edge Id Name) : Id × Name :=
  (edge.parent, edge.name)

variable {id : Id} {edges rest : List (Edge Id Name)} {edge moved : Edge Id Name}

namespace LinkGraph

/-- A chain of entries leads to the node. -/
inductive Reachable (start : Id) (edges : List (Edge Id Name)) : Id → Prop where
  | start : Reachable start edges start
  | step {edge : Edge Id Name} (member : edge ∈ edges)
      (parent : Reachable start edges edge.parent) : Reachable start edges edge.target

theorem Reachable.mono {start : Id} {others : List (Edge Id Name)} (subset : edges ⊆ others)
    (reachable : Reachable start edges id) : Reachable start others id := by
  induction reachable with
  | start => exact .start
  | step mem _ ih => exact .step (subset mem) ih

variable [DecidableEq Id]

/-- The names of a node. -/
def incoming (graph : LinkGraph Id Name) (id : Id) : ℕ :=
  graph.edges.countP fun edge => edge.target = id

/-- The entries of a node that are directories. -/
def childDirectories (graph : LinkGraph Id Name) (id : Id) : ℕ :=
  graph.edges.countP fun edge => edge.parent = id ∧ graph.kind edge.target = some .directory

/-- The link counts after an edge to an object of some kind has been added. -/
def linksAfterAdd (before : LinkGraph Id Name) (edge : Edge Id Name) (kind : NodeKind) (id : Id) :
    ℕ :=
  if id = edge.target then if kind = .directory then 2 else before.incoming id + 1
  else before.links id + if id = edge.parent ∧ kind = .directory then 1 else 0

/-- The link counts once an edge is gone. -/
def linksAfterRemove (before : LinkGraph Id Name) (edge : Edge Id Name) (id : Id) : ℕ :=
  if id = edge.target then
    if before.kind edge.target = some .directory then 0 else before.links id - 1
  else before.links id -
    if id = edge.parent ∧ before.kind edge.target = some .directory then 1 else 0

/-- Edges only lead downwards. -/
def Ranked (edges : List (Edge Id Name)) : Prop :=
  ∃ rank : Id → ℕ, ∀ edge ∈ edges, rank edge.parent < rank edge.target

/-- Every directory but the root has one entry, and the entries lead down from the root. -/
structure Forest (graph : LinkGraph Id Name) (root : Id) : Prop where
  rootDirectory : graph.kind root = some .directory
  rootFree : ∀ edge ∈ graph.edges, edge.target ≠ root
  rootLinks : graph.links root = 2 + graph.childDirectories root
  /-- A removed directory may have been forgotten while edges still start at it. -/
  parents : ∀ edge ∈ graph.edges, graph.kind edge.parent ≠ some .leaf
  targets : ∀ edge ∈ graph.edges, graph.kind edge.target ≠ none
  places : (graph.edges.map Edge.place).Nodup
  leafLinks : ∀ id, graph.kind id = some .leaf → graph.links id = graph.incoming id
  directoryLinks : ∀ id, graph.kind id = some .directory → id ≠ root →
    (graph.links id = graph.childDirectories id ∧ graph.incoming id = 0) ∨
      (graph.links id = 2 + graph.childDirectories id ∧ graph.incoming id = 1)
  ranked : Ranked graph.edges

/-- No edge starts at a removed directory. -/
def Attached (graph : LinkGraph Id Name) (root : Id) : Prop :=
  ∀ edge ∈ graph.edges, edge.parent = root ∨ graph.incoming edge.parent ≠ 0

section Counting

variable {graph : LinkGraph Id Name}

theorem incoming_eq_zero_iff : graph.incoming id = 0 ↔ ∀ edge ∈ graph.edges, edge.target ≠ id := by
  simp [incoming, countP_eq_zero]

theorem exists_of_incoming (linked : graph.incoming id ≠ 0) :
    ∃ edge ∈ graph.edges, edge.target = id := by
  by_contra none
  push Not at none
  exact linked (incoming_eq_zero_iff.mpr none)

theorem childDirectories_eq_zero_iff : graph.childDirectories id = 0 ↔
    ∀ edge ∈ graph.edges, edge.parent = id → graph.kind edge.target ≠ some .directory := by
  simp [childDirectories, countP_eq_zero]

theorem incoming_of_perm (perm : graph.edges.Perm (edge :: rest)) : graph.incoming id =
      rest.countP (fun edge => edge.target = id) + if edge.target = id then 1 else 0 := by
  rw [incoming, perm.countP_eq, countP_cons]
  simp

theorem childDirectories_of_perm (perm : graph.edges.Perm (edge :: rest)) :
    graph.childDirectories id =
      rest.countP (fun edge => edge.parent = id ∧ graph.kind edge.target = some .directory) +
        if edge.parent = id ∧ graph.kind edge.target = some .directory then 1 else 0 := by
  rw [childDirectories, perm.countP_eq, countP_cons]
  simp

/-- The kinds of what edges lead to decide how many directories are below an object. -/
theorem countP_children_congr {kind other : Id → Option NodeKind}
    (agree : ∀ edge ∈ edges, kind edge.target = other edge.target) :
    edges.countP (fun edge => edge.parent = id ∧ kind edge.target = some .directory) =
      edges.countP (fun edge => edge.parent = id ∧ other edge.target = some .directory) := by
  apply countP_congr
  intro edge mem
  simp [agree edge mem]

end Counting

omit [DecidableEq Id] in
theorem forall_mem_of_perm {property : Edge Id Name → Prop} (perm : edges.Perm (edge :: rest))
    (first : property edge) (others : ∀ other ∈ rest, property other) :
    ∀ other ∈ edges, property other := fun other mem =>
  forall_mem_cons.mpr ⟨first, others⟩ other (perm.subset mem)

section Ranks

variable {others : List (Edge Id Name)}

omit [DecidableEq Id] in
theorem Ranked.acyclic (ranked : Ranked edges) (mem : edge ∈ edges) :
    ¬ Reachable edge.target edges edge.parent := by
  rcases ranked with ⟨rank, descends⟩
  have below : ∀ id, Reachable edge.target edges id → rank edge.target ≤ rank id := by
    intro id reachable
    induction reachable with
    | start => exact Nat.le_refl _
    | step stepMem _ ih => exact Nat.le_of_lt (Nat.lt_of_le_of_lt ih (descends _ stepMem))
  exact fun reachable => Nat.not_le_of_lt (descends edge mem) (below _ reachable)

omit [DecidableEq Id] in
theorem Ranked.mono (ranked : Ranked others) (subset : edges ⊆ others) : Ranked edges := by
  rcases ranked with ⟨rank, descends⟩
  exact ⟨rank, fun edge mem => descends edge (subset mem)⟩

theorem Ranked.add (ranked : Ranked edges) (other : edge.parent ≠ edge.target)
    (childless : ∀ next ∈ edges, next.parent ≠ edge.target) : Ranked (edge :: edges) := by
  rcases ranked with ⟨rank, descends⟩
  refine ⟨update rank edge.target (rank edge.target + rank edge.parent + 1), ?_⟩
  intro next mem
  rcases mem_cons.mp mem with rfl | old
  · rw [update_self, update_of_ne other]
    omega
  · have below := descends next old
    rw [update_of_ne (childless next old)]
    by_cases same : next.target = edge.target
    · rw [same] at below ⊢
      rw [update_self]
      omega
    · rw [update_of_ne same]
      exact below

open Classical in
omit [DecidableEq Id] in
theorem Ranked.hang (ranked : Ranked edges) (outside : ¬ Reachable edge.target edges edge.parent) :
    Ranked (edge :: edges) := by
  rcases ranked with ⟨rank, descends⟩
  -- everything below the target is lowered by the same amount
  refine ⟨fun id => rank id + if Reachable edge.target edges id then rank edge.parent + 1 else 0,
    ?_⟩
  intro next mem
  rcases mem_cons.mp mem with rfl | old
  · simp only [if_neg outside, if_pos (Reachable.start : Reachable next.target edges next.target)]
    omega
  · have below := descends next old
    by_cases under : Reachable edge.target edges next.parent
    · simp only [if_pos under, if_pos (Reachable.step old under)]
      omega
    · simp only [if_neg under]
      omega

end Ranks

variable {before after : LinkGraph Id Name} {root : Id}

namespace Forest

section

variable (forest : before.Forest root)

include forest

theorem leaf_childless (leaf : before.kind id = some .leaf) :
    ∀ edge ∈ before.edges, edge.parent ≠ id := by
  rintro edge mem rfl
  exact forest.parents edge mem leaf

theorem links_target (mem : edge ∈ before.edges) : before.links edge.target ≠ 0 := by
  have positive : before.incoming edge.target ≠ 0 := by
    intro zero
    exact incoming_eq_zero_iff.mp zero edge mem rfl
  cases kind : before.kind edge.target with
  | none => exact absurd kind (forest.targets edge mem)
  | some found =>
    cases found with
    | leaf =>
      rw [forest.leafLinks _ kind]
      exact positive
    | directory =>
      rcases forest.directoryLinks _ kind (forest.rootFree edge mem) with
        ⟨_, none⟩ | ⟨links, _⟩
      · exact absurd none positive
      · omega

theorem not_target_of_unlinked (unlinked : before.links id = 0) :
    ∀ edge ∈ before.edges, edge.target ≠ id := by
  rintro edge mem rfl
  exact forest.links_target mem unlinked

theorem directory_edge_unique [DecidableEq Name] {first second : Edge Id Name}
    (firstMem : first ∈ before.edges) (secondMem : second ∈ before.edges)
    (same : first.target = second.target) (directory : before.kind first.target = some .directory) :
    first = second := by
  rcases forest.directoryLinks _ directory (forest.rootFree first firstMem) with
    ⟨_, none⟩ | ⟨_, one⟩
  · exact absurd rfl (incoming_eq_zero_iff.mp none first firstMem)
  · have perm := perm_cons_erase firstMem
    rw [incoming_of_perm perm, if_pos rfl] at one
    have others : (before.edges.erase first).countP (fun edge => edge.target = first.target) =
      0 := by
      omega
    rcases mem_cons.mp (perm.mem_iff.mp secondMem) with rfl | mem
    · rfl
    · simp only [countP_eq_zero, decide_eq_true_eq] at others
      exact absurd same.symm (others second mem)

end

section

variable (forest : before.Forest root) (attached : before.Attached root)
  (mem : edge ∈ before.edges)

include forest attached mem

theorem reachable_parent : Reachable root before.edges edge.parent := by
  rcases forest.ranked with ⟨rank, descends⟩
  -- the edge into the parent starts higher up
  induction height : rank edge.target using Nat.strongRecOn generalizing edge with
  | ind height ih =>
    rcases attached edge mem with isRoot | linked
    · exact isRoot ▸ .start
    · rcases exists_of_incoming linked with ⟨above, aboveMem, same⟩
      have higher := descends edge mem
      rw [← same, height] at higher
      exact same ▸ .step aboveMem (ih _ higher aboveMem rfl)

theorem reachable : Reachable root before.edges edge.target :=
  .step mem (forest.reachable_parent attached mem)

theorem parent_directory : before.kind edge.parent = some .directory := by
  rcases attached edge mem with isRoot | linked
  · rw [isRoot, forest.rootDirectory]
  · rcases exists_of_incoming linked with ⟨above, aboveMem, same⟩
    cases kind : before.kind edge.parent with
    | none =>
      rw [← same] at kind
      exact absurd kind (forest.targets above aboveMem)
    | some found =>
      cases found with
      | leaf => exact absurd kind (forest.parents edge mem)
      | directory => rfl

end

section

variable (forest : before.Forest root)

include forest

/-- Objects that no edge leads to may disappear; the rest keeps its kinds and link counts. -/
theorem restrict (edges : after.edges.Perm before.edges)
    (kinds : ∀ id, after.kind id = none ∨ after.kind id = before.kind id)
    (rootKept : after.kind root ≠ none)
    (kept : ∀ edge ∈ before.edges, after.kind edge.target ≠ none)
    (links : ∀ id, after.kind id ≠ none → after.links id = before.links id) :
    after.Forest root := by
  have same : ∀ id, after.kind id ≠ none → after.kind id = before.kind id := fun id found =>
    (kinds id).resolve_left found
  have incoming : after.incoming = before.incoming := by
    funext id
    exact edges.countP_eq _
  have childDirectories : after.childDirectories = before.childDirectories := by
    funext id
    rw [LinkGraph.childDirectories, LinkGraph.childDirectories, edges.countP_eq]
    exact countP_children_congr fun edge mem => same _ (kept edge mem)
  constructor
  case rootDirectory => rw [same root rootKept, forest.rootDirectory]
  case rootFree =>
    intro edge mem
    exact forest.rootFree edge (edges.mem_iff.mp mem)
  case rootLinks => rw [links root rootKept, childDirectories, forest.rootLinks]
  case parents =>
    intro edge mem leaf
    have found : after.kind edge.parent ≠ none := by simp [leaf]
    rw [same _ found] at leaf
    exact forest.parents edge (edges.mem_iff.mp mem) leaf
  case targets =>
    intro edge mem
    exact kept edge (edges.mem_iff.mp mem)
  case places => exact (edges.map Edge.place).nodup_iff.mpr forest.places
  case leafLinks =>
    intro id leaf
    have found : after.kind id ≠ none := by simp [leaf]
    rw [same id found] at leaf
    rw [links id found, incoming, forest.leafLinks id leaf]
  case directoryLinks =>
    intro id directory notRoot
    have found : after.kind id ≠ none := by simp [directory]
    rw [same id found] at directory
    rw [links id found, incoming, childDirectories]
    exact forest.directoryLinks id directory notRoot
  case ranked => exact forest.ranked.mono edges.subset

theorem forget {gone : Id} (notRoot : gone ≠ root) (unlinked : before.links gone = 0)
    (edges : after.edges.Perm before.edges) (kinds : after.kind = update before.kind gone none)
    (links : ∀ id, id ≠ gone → after.links id = before.links id) : after.Forest root := by
  have elsewhere : ∀ id, id ≠ gone → after.kind id = before.kind id := by
    intro id other
    rw [kinds, update_of_ne other]
  have absent : after.kind gone = none := by
    rw [kinds, update_self]
  apply forest.restrict edges
  · intro id
    by_cases same : id = gone
    · exact .inl (same ▸ absent)
    · exact .inr (elsewhere id same)
  · rw [elsewhere root notRoot.symm, forest.rootDirectory]
    simp
  · intro edge mem
    rw [elsewhere _ (forest.not_target_of_unlinked unlinked edge mem)]
    exact forest.targets edge mem
  · intro id found
    apply links id
    rintro rfl
    exact found absent

theorem add {kind : NodeKind} (edges : after.edges.Perm (edge :: before.edges))
    (parent : before.kind edge.parent = some .directory)
    (fresh : ∀ other ∈ before.edges, other.place ≠ edge.place)
    (target : before.kind edge.target = none ∧
      (∀ other ∈ before.edges, other.parent ≠ edge.target) ∨ before.kind edge.target = some .leaf ∧
        kind = .leaf) (kinds : after.kind = update before.kind edge.target (some kind))
    (links : after.links = linksAfterAdd before edge kind) : after.Forest root := by
  have notDirectory : before.kind edge.target ≠ some .directory := by
    rcases target with ⟨new, _⟩ | ⟨leaf, _⟩
    · simp [new]
    · simp [leaf]
  have notParent : edge.parent ≠ edge.target := by
    intro same
    rw [same] at parent
    exact notDirectory parent
  have notRoot : edge.target ≠ root := by
    intro same
    rw [same] at notDirectory
    exact notDirectory forest.rootDirectory
  have childless : ∀ other ∈ before.edges, other.parent ≠ edge.target := by
    rcases target with ⟨_, childless⟩ | ⟨leaf, _⟩
    · exact childless
    · exact forest.leaf_childless leaf
  have elsewhere : ∀ id, id ≠ edge.target → after.kind id = before.kind id := by
    intro id other
    rw [kinds, update_of_ne other]
  have here : after.kind edge.target = some kind := by
    rw [kinds, update_self]
  have targetKinds : ∀ other ∈ before.edges, after.kind other.target =
    before.kind other.target := by
    intro other mem
    by_cases same : other.target = edge.target
    · rcases target with ⟨new, _⟩ | ⟨leaf, isLeaf⟩
      · exact absurd (same ▸ new) (forest.targets other mem)
      · rw [same, here, leaf, isLeaf]
    · exact elsewhere _ same
  have incoming : ∀ id, after.incoming id =
      before.incoming id + if edge.target = id then 1 else 0 := fun id => incoming_of_perm edges
  have childDirectories : ∀ id, after.childDirectories id = before.childDirectories id +
      if edge.parent = id ∧ kind = .directory then 1 else 0 := by
    intro id
    rw [childDirectories_of_perm edges, countP_children_congr targetKinds, here]
    simp [LinkGraph.childDirectories]
  constructor
  case rootDirectory => rw [elsewhere root notRoot.symm, forest.rootDirectory]
  case rootFree => exact forall_mem_of_perm edges notRoot forest.rootFree
  case rootLinks =>
    rw [links, linksAfterAdd, if_neg notRoot.symm, childDirectories, forest.rootLinks]
    simp only [eq_comm (a := root)]
    omega
  case parents =>
    refine forall_mem_of_perm edges ?_ ?_
    · simp [elsewhere _ notParent, parent]
    · intro other mem
      rw [elsewhere _ (childless other mem)]
      exact forest.parents other mem
  case targets =>
    refine forall_mem_of_perm edges (by simp [here]) ?_
    intro other mem
    rw [targetKinds other mem]
    exact forest.targets other mem
  case places =>
    rw [(edges.map Edge.place).nodup_iff, map_cons, nodup_cons, mem_map]
    refine ⟨?_, forest.places⟩
    rintro ⟨other, mem, same⟩
    exact fresh other mem same
  case leafLinks =>
    intro id leaf
    rw [links, linksAfterAdd, incoming]
    by_cases same : id = edge.target
    · subst same
      rw [here, Option.some_inj] at leaf
      simp [leaf]
    · rw [elsewhere id same] at leaf
      have other : id ≠ edge.parent := by
        rintro rfl
        simp [parent] at leaf
      rw [if_neg same, if_neg (fun both => other both.1), if_neg (Ne.symm same),
        forest.leafLinks id leaf]
  case directoryLinks =>
    intro id directory other
    rw [links, linksAfterAdd, incoming, childDirectories]
    by_cases same : id = edge.target
    · subst same
      rw [here, Option.some_inj] at directory
      rcases target with ⟨new, _⟩ | ⟨_, isLeaf⟩
      · have unseen : before.incoming edge.target = 0 :=
          incoming_eq_zero_iff.mpr fun edge mem same => forest.targets edge mem (same ▸ new)
        have empty : before.childDirectories edge.target = 0 :=
          childDirectories_eq_zero_iff.mpr fun other mem same =>
            absurd same (childless other mem)
        simp [directory, unseen, empty, notParent]
      · simp [isLeaf] at directory
    · rw [elsewhere id same] at directory
      rw [if_neg same, if_neg (Ne.symm same)]
      simp only [eq_comm (a := id)]
      rcases forest.directoryLinks id directory other with ⟨counted, none⟩ | ⟨counted, one⟩
      · exact .inl ⟨by omega, none⟩
      · exact .inr ⟨by omega, one⟩
  case ranked => exact (forest.ranked.add notParent childless).mono edges.subset

theorem remove (edges : before.edges.Perm (edge :: after.edges))
    (childless : ∀ other ∈ before.edges, other.parent ≠ edge.target)
    (kinds : after.kind = before.kind) (links : after.links = linksAfterRemove before edge) :
    after.Forest root := by
  have mem : edge ∈ before.edges := edges.mem_iff.mpr mem_cons_self
  have kept : ∀ other ∈ after.edges, other ∈ before.edges := fun other mem =>
    edges.mem_iff.mpr (mem_cons_of_mem edge mem)
  have notRoot := forest.rootFree edge mem
  have incoming : ∀ id, before.incoming id =
      after.incoming id + if edge.target = id then 1 else 0 := fun id => incoming_of_perm edges
  have childDirectories : ∀ id, before.childDirectories id = after.childDirectories id +
      if edge.parent = id ∧ before.kind edge.target = some .directory then 1 else 0 := by
    intro id
    rw [childDirectories_of_perm edges, LinkGraph.childDirectories, kinds]
  constructor
  case rootDirectory => rw [kinds, forest.rootDirectory]
  case rootFree =>
    intro other mem
    exact forest.rootFree other (kept other mem)
  case rootLinks =>
    have counted := forest.rootLinks
    rw [childDirectories] at counted
    rw [links, linksAfterRemove, if_neg notRoot.symm, counted]
    simp only [eq_comm (a := root)]
    omega
  case parents =>
    intro other mem
    rw [kinds]
    exact forest.parents other (kept other mem)
  case targets =>
    intro other mem
    rw [kinds]
    exact forest.targets other (kept other mem)
  case places =>
    have places := (edges.map Edge.place).nodup_iff.mp forest.places
    rw [map_cons, nodup_cons] at places
    exact places.2
  case leafLinks =>
    intro id leaf
    rw [kinds] at leaf
    have counted := forest.leafLinks id leaf
    rw [incoming] at counted
    rw [links, linksAfterRemove]
    by_cases same : id = edge.target
    · subst same
      rw [if_pos rfl, if_neg (by simp [leaf]), counted, if_pos rfl]
      omega
    · have notParent : id ≠ edge.parent := by
        rintro rfl
        exact forest.parents edge mem leaf
      rw [if_neg same, if_neg (fun both => notParent both.1), counted, if_neg (Ne.symm same)]
      rfl
  case directoryLinks =>
    intro id directory other
    rw [kinds] at directory
    have counted := forest.directoryLinks id directory other
    rw [incoming, childDirectories] at counted
    rw [links, linksAfterRemove]
    by_cases same : id = edge.target
    · subst same
      left
      have empty : after.childDirectories edge.target = 0 :=
        childDirectories_eq_zero_iff.mpr fun next nextMem same =>
          absurd same (childless next (kept next nextMem))
      rw [if_pos rfl] at counted
      rw [if_pos rfl, if_pos directory, empty]
      refine ⟨rfl, ?_⟩
      rcases counted with ⟨_, none⟩ | ⟨_, one⟩
      · omega
      · omega
    · rw [if_neg (Ne.symm same), Nat.add_zero] at counted
      rw [if_neg same]
      simp only [eq_comm (a := id)]
      rcases counted with ⟨counted, none⟩ | ⟨counted, one⟩
      · exact .inl ⟨by omega, none⟩
      · exact .inr ⟨by omega, one⟩
  case ranked =>
    apply forest.ranked.mono
    exact fun other mem => kept other mem

end

theorem not_reachable_of_childless {start : Id} (childless : ∀ edge ∈ edges, edge.parent ≠ start)
    (other : id ≠ start) : ¬ Reachable start edges id := by
  intro reachable
  have only : id = start := by
    induction reachable with
    | start => rfl
    | @step edge mem _ ih =>
      by_cases same : edge.parent = start
      · exact absurd same (childless edge mem)
      · exact absurd (ih same) same
  exact other only

theorem move (forest : before.Forest root) (edges : before.edges.Perm (edge :: rest))
    (edgesAfter : after.edges.Perm (moved :: rest)) (target : moved.target = edge.target)
    (parent : before.kind moved.parent = some .directory)
    (fresh : ∀ other ∈ rest, other.place ≠ moved.place)
    (outside : ¬ Reachable edge.target rest moved.parent) (kinds : after.kind = before.kind)
    (links : ∀ id, after.links id +
        (if edge.parent = id ∧ before.kind edge.target = some .directory then 1 else 0) =
      before.links id +
        if moved.parent = id ∧ before.kind edge.target = some .directory then 1 else 0) :
    after.Forest root := by
  have incoming : after.incoming = before.incoming := by
    funext id
    rw [incoming_of_perm edges, incoming_of_perm edgesAfter, target]
  have childDirectories : ∀ id, after.childDirectories id +
        (if edge.parent = id ∧ before.kind edge.target = some .directory then 1 else 0) =
      before.childDirectories id +
        if moved.parent = id ∧ before.kind edge.target = some .directory then 1 else 0 := by
    intro id
    rw [childDirectories_of_perm edges, childDirectories_of_perm edgesAfter, kinds, target]
    omega
  have mem : edge ∈ before.edges := edges.mem_iff.mpr mem_cons_self
  have kept : ∀ other ∈ rest, other ∈ before.edges := fun other mem =>
    edges.mem_iff.mpr (mem_cons_of_mem edge mem)
  constructor
  case rootDirectory => rw [kinds, forest.rootDirectory]
  case rootFree =>
    refine forall_mem_of_perm edgesAfter ?_ fun other old => forest.rootFree other (kept other old)
    rw [target]
    exact forest.rootFree edge mem
  case rootLinks =>
    have changed := links root
    have counted := childDirectories root
    have start := forest.rootLinks
    omega
  case parents =>
    rw [kinds]
    exact forall_mem_of_perm edgesAfter (by simp [parent])
      fun other old => forest.parents other (kept other old)
  case targets =>
    rw [kinds]
    refine forall_mem_of_perm edgesAfter ?_ fun other old => forest.targets other (kept other old)
    rw [target]
    exact forest.targets edge mem
  case places =>
    have places := (edges.map Edge.place).nodup_iff.mp forest.places
    rw [map_cons, nodup_cons] at places
    rw [(edgesAfter.map Edge.place).nodup_iff, map_cons, nodup_cons, mem_map]
    refine ⟨?_, places.2⟩
    rintro ⟨other, mem, same⟩
    exact fresh other mem same
  case leafLinks =>
    intro id leaf
    rw [kinds] at leaf
    have changed := links id
    have notFrom : edge.parent ≠ id := forest.leaf_childless leaf edge mem
    have notTo : moved.parent ≠ id := by
      rintro rfl
      simp [parent] at leaf
    rw [if_neg (fun both => notFrom both.1), if_neg (fun both => notTo both.1)] at changed
    rw [incoming, ← forest.leafLinks id leaf]
    exact changed
  case directoryLinks =>
    intro id directory other
    rw [kinds] at directory
    have changed := links id
    have counted := childDirectories id
    rw [incoming]
    rcases forest.directoryLinks id directory other with ⟨start, none⟩ | ⟨start, one⟩
    · exact .inl ⟨by omega, none⟩
    · exact .inr ⟨by omega, one⟩
  case ranked =>
    have rest := forest.ranked.mono fun other (otherMem : other ∈ rest) => kept other otherMem
    rw [← target] at outside
    exact (rest.hang outside).mono edgesAfter.subset

end Forest

namespace Attached

variable (attached : before.Attached root)

include attached

theorem add (edges : after.edges.Perm (edge :: before.edges))
    (parent : edge.parent = root ∨ before.incoming edge.parent ≠ 0) : after.Attached root := by
  have more : ∀ id, before.incoming id ≠ 0 → after.incoming id ≠ 0 := by
    intro id some
    rw [incoming_of_perm edges]
    exact fun none => some (Nat.add_eq_zero_iff.mp none).1
  exact forall_mem_of_perm edges (parent.imp_right (more _))
    fun other old => (attached other old).imp_right (more _)

theorem remove (edges : before.edges.Perm (edge :: after.edges))
    (childless : ∀ other ∈ before.edges, other.parent ≠ edge.target) : after.Attached root := by
  intro other mem
  have old : other ∈ before.edges := edges.mem_iff.mpr (mem_cons_of_mem edge mem)
  refine (attached other old).imp_right ?_
  rw [incoming_of_perm edges, if_neg (Ne.symm (childless other old))]
  exact fun some => some

theorem move (edges : before.edges.Perm (edge :: rest))
    (edgesAfter : after.edges.Perm (moved :: rest)) (target : moved.target = edge.target)
    (parent : moved.parent = root ∨ before.incoming moved.parent ≠ 0) : after.Attached root := by
  have incoming : after.incoming = before.incoming := by
    funext id
    rw [incoming_of_perm edges, incoming_of_perm edgesAfter, target]
  rw [Attached, incoming]
  exact forall_mem_of_perm edgesAfter parent
    fun other old => attached other (edges.mem_iff.mpr (mem_cons_of_mem edge old))

theorem of_perm (edges : after.edges.Perm before.edges) : after.Attached root := by
  have incoming : after.incoming = before.incoming := by
    funext id
    exact edges.countP_eq _
  intro other mem
  rw [incoming]
  exact attached other (edges.mem_iff.mp mem)

end Attached

end LinkGraph

end Fastdup.Library
