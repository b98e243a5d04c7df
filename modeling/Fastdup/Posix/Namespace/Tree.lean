import Fastdup.Posix.Namespace.Dispatch

/-!
# The namespace stays a tree

Every operation keeps the names a forest, and a careful operation keeps them a tree.
-/

namespace Fastdup.Posix

open Library Checked Nat LinkGraph

variable {allocated : Catalog} {sequence : Option ℕ} {sequences : ℕ × ℕ} {operation : Operation}

namespace Catalog

variable {tidy : Prop} {config : NamespaceConfig} {ambient : Ambient} {context : RequestContext}
  {catalog : Catalog} {id : ℕ}

theorem allocateInode_eq_ok (allocation : catalog.allocateInode = .ok (id, allocated)) :
    catalog.nextInode < catalog.inodeReservationEnd ∧ catalog.nextInode + 1 < 2 ^ 64 ∧
      id = catalog.nextInode ∧ allocated = { catalog with nextInode := catalog.nextInode + 1 } := by
  simp only [allocateInode, bind_ok, refuse_ok, next_ok, pure_ok] at allocation
  rcases allocation with ⟨_, room, _, ⟨fits, rfl⟩, done⟩
  cases done
  exact ⟨Nat.lt_of_not_le room, fits, rfl, rfl⟩

theorem Tree.allocate (tree : catalog.Tree tidy)
    (allocation : catalog.allocateInode = .ok (id, allocated)) :
    allocated.Tree tidy ∧ allocated.Fresh id := by
  rcases allocateInode_eq_ok allocation with ⟨_, _, rfl, rfl⟩
  refine ⟨tree.of_graph_eq rfl ⟨tree.held.handles, ?_, ?_⟩, ?_, ?_, lt_succ_self _⟩
  · intro id inode found
    exact lt_succ_of_lt (tree.held.numbers id inode found)
  · intro key id named
    exact lt_succ_of_lt (tree.held.parents key id named)
  · cases found : catalog.inodes.get? catalog.nextInode with
    | none => rfl
    | some inode => exact absurd (tree.held.numbers _ inode found) (lt_irrefl _)
  · intro edge mem same
    rcases exists_of_mem_edges mem with ⟨key, target, rfl, named⟩
    have below := tree.held.parents key target named
    exact absurd same (Nat.ne_of_lt below)

variable {inode : Inode} {truncate : Bool}

theorem validateOpen_eq_ok {access : AccessMode}
    (accepted : validateOpen inode access truncate = .ok ()) :
    inode.kind = .regular ∧ ¬ ((access ≠ .readOnly ∨ truncate) ∧ inode.isImmutable) := by
  simp only [validateOpen, bind_ok, refuse_ok, not_not] at accepted
  rcases accepted with ⟨_, _, _, regular, _, mutable, _⟩
  exact ⟨regular, mutable⟩

theorem graph_truncated : (truncated ambient catalog id sequence).graph = catalog.graph := by
  cases sequence with
  | none => rfl
  | some sequence => exact graph_update (fun _ _ => rfl) fun _ _ => rfl

theorem Held.truncated (held : catalog.Held) : (truncated ambient catalog id sequence).Held := by
  cases sequence with
  | none => exact held
  | some sequence => exact held.update fun _ _ => rfl

theorem get?_truncated {sequence : Option ℕ} (found : catalog.inodes.get? id = some inode) :
    ∃ after, (truncated ambient catalog id sequence).inodes.get? id = some after ∧
      after.kind = inode.kind := by
  cases sequence with
  | none => exact ⟨inode, found, rfl⟩
  | some sequence =>
    refine ⟨inode.written ambient.now sequence [], ?_, rfl⟩
    rw [truncated, get?_update, if_pos rfl, found]
    rfl

theorem Tree.opened {options : OpenOptions} {sequence : Option ℕ} (tree : catalog.Tree tidy)
    (present : catalog.inodes.get? id = some inode)
    (accepted : validateOpen inode options.access truncate = .ok ()) :
    ((truncated ambient catalog id sequence).addHandle id options).Tree tidy := by
  rcases @get?_truncated ambient catalog id inode sequence present with ⟨after, found, kind⟩
  exact (tree.of_graph_eq graph_truncated tree.held.truncated).addHandle found
    (kind.trans (validateOpen_eq_ok accepted).1)

variable {change : Inode → Inode}

section

variable (tree : catalog.Tree tidy)
  (kind : ∀ inode, catalog.inodes.get? id = some inode → (change inode).kind = inode.kind)
  (links : ∀ inode, catalog.inodes.get? id = some inode →
    (change inode).linkCount = inode.linkCount)

include tree kind links

theorem Tree.update : (catalog.update id change).Tree tidy :=
  tree.of_graph_eq (graph_update kind links) (tree.held.update kind)

theorem Tree.mutate : (catalog.mutate id change sequences).Tree tidy := by
  have changed : (catalog.update id fun inode => (change inode).advance sequences.2).Tree tidy :=
    tree.update kind links
  unfold Catalog.mutate
  split
  · exact changed
  · exact changed.installRootMutationSequence

end

theorem Attributes.of_get? (attributes : Attributes id inode (change inode))
    (present : catalog.inodes.get? id = some inode) :
    ∀ found, catalog.inodes.get? id = some found → Attributes id found (change found) := by
  intro found foundPresent
  rw [present, Option.some_inj] at foundPresent
  exact foundPresent ▸ attributes

theorem Tree.mutateAttributes (tree : catalog.Tree tidy)
    (present : catalog.inodes.get? id = some inode)
    (attributes : Attributes id inode (change inode)) :
    (catalog.mutate id change sequences).Tree tidy := by
  have all := attributes.of_get? present
  exact tree.mutate (fun inode found => (all inode found).kind)
    fun inode found => (all inode found).linkCount

theorem Careful.host (careful : tidy → catalog.Careful operation)
    (at_ : operation.directory? = some id) (valid : catalog.validateMutableDirectory id = .ok ()) :
    catalog.Host tidy id := by
  rcases validateMutableDirectory_eq_ok valid with ⟨inode, found, directory, _⟩
  refine ⟨⟨inode, found, directory⟩, fun isTidy => ?_⟩
  apply linked_of_not_removed _ found directory
  have kept := careful isTidy
  cases operation with
  | readDirectory _ _ _ => cases at_
  | _ => exact kept id at_

theorem Transition.tree {after : Catalog} (tree : catalog.Tree tidy)
    (careful : tidy → catalog.Careful operation)
    (transition : Transition config ambient context catalog operation after) : after.Tree tidy := by
  cases transition with
  | same => exact tree
  | looked => exact tree.of_graph_eq rfl { tree.held with }
  | forgot =>
    apply Tree.dropOrphan
    exact tree.of_graph_eq rfl { tree.held with }
  | released =>
    apply Tree.dropOrphan
    refine tree.of_graph_eq rfl ⟨?_, tree.held.numbers, tree.held.parents⟩
    intro handle file opened
    exact tree.held.handles handle file (SortedMap.get?_of_get?_remove opened)
  | opened present accepted _ => exact tree.opened present accepted
  | openedExisting present accepted _ => exact (tree.opened present accepted).acquireLookup
  | created free _ _ _ allocation =>
    rcases tree.allocate allocation with ⟨allocatedTree, fresh⟩
    rcases allocateInode_eq_ok allocation with ⟨_, _, rfl, rfl⟩
    exact allocatedTree.withFile (Careful.host careful free.at_ free.parent) free.absent fresh
      rfl rfl
  | madeDirectory free present _ counted _ _ allocation =>
    rcases tree.allocate allocation with ⟨allocatedTree, fresh⟩
    rcases allocateInode_eq_ok allocation with ⟨_, _, rfl, rfl⟩
    rcases nextLinks_ok.mp counted with ⟨_, rfl⟩
    exact allocatedTree.withDirectory (Careful.host careful free.at_ free.parent) free.absent fresh
      rfl rfl present
  | madeSymlink free _ _ allocation =>
    rcases tree.allocate allocation with ⟨allocatedTree, fresh⟩
    rcases allocateInode_eq_ok allocation with ⟨_, _, rfl, rfl⟩
    exact allocatedTree.withSymlink (Careful.host careful free.at_ free.parent) free.absent fresh
      rfl rfl
  | linked free present leaf _ counted _ _ =>
    rcases nextLinks_ok.mp counted with ⟨_, rfl⟩
    exact tree.withLink (Careful.host careful free.at_ free.parent) free.absent present leaf
  | unlinked _ named present leaf _ _ _ => exact tree.withoutName named present leaf
  | removedDirectory _ named present directory _ empty aboveFound _ _ _ =>
    exact tree.withoutDirectory named present directory empty aboveFound
  | movedFile moves leaf _ replace =>
    exact tree.withMovedFile moves.named moves.other moves.present leaf
      (Careful.host careful moves.at_ moves.parent) rfl replace
  | movedDirectory moves directory climbed replaced _ rootUpdated oldUpdated newUpdated _ =>
    exact tree.withMovedDirectory moves.named moves.other moves.present directory
      (Careful.host careful moves.at_ moves.parent) rfl
      (directoryIsAncestorOrSelf_eq_false climbed) replaced rootUpdated oldUpdated newUpdated
  | attributed present _ attributes _ => exact tree.mutateAttributes present attributes
  | handedOver _ present _ attributes _ => exact tree.mutateAttributes present attributes
  | flagged _ _ present attributes _ => exact tree.mutateAttributes present attributes
  | flaggedOnly _ _ present attributes =>
    have all := attributes.of_get? present
    exact tree.update (fun inode found => (all inode found).kind)
      fun inode found => (all inode found).linkCount
  | accessed => exact tree.mutate (fun _ _ => rfl) fun _ _ => rfl
  | written => exact tree.update (fun _ _ => rfl) fun _ _ => rfl

/-- A climb in a tree ends at the root or at the directory that it looks for. -/
theorem Tree.directoryIsAncestorOrSelf_ok (tree : catalog.Tree True) {ancestor candidate : ℕ}
    (linked : catalog.Linked candidate) :
    ∃ result, catalog.directoryIsAncestorOrSelf ancestor candidate = .ok result := by
  have climbs : climb catalog.edges ROOT_INODE ancestor (catalog.edges.length + 1)
      candidate ≠ none :=
    climb_ne_none tree.forest.ranked (lt_succ_self _)
  have arrives : climb catalog.edges ROOT_INODE ancestor (catalog.edges.length + 1)
      candidate ≠ some none :=
    (tree.attached trivial).climb_ne_stuck (tree.incoming_of_linked linked)
  rw [directoryIsAncestorOrSelf]
  split
  · rename_i result _
    exact ⟨result, rfl⟩
  · contradiction
  · contradiction

end Catalog

end Fastdup.Posix
