import Fastdup.Posix.Namespace.Requests

/-!
# Immutable inodes

An inode with the immutable flag keeps its content, attributes and names whatever is asked for,
until its authority changes the flags or hands it over. An immutable directory keeps its entries.
What the flag does not do is keep an inode without names alive: like any other it is dropped with
the last reference to it.
-/

namespace Fastdup.Posix

open Library Checked Option SortedMap

/-- The content and the attributes are the same; times and sequence numbers may differ. -/
structure Inode.Preserved (inode kept : Inode) : Prop where
  kind : kept.kind = inode.kind
  mode : kept.mode = inode.mode
  uid : kept.uid = inode.uid
  gid : kept.gid = inode.gid
  linkCount : kept.linkCount = inode.linkCount
  metadata : kept.metadata = inode.metadata
  symlinkTarget : kept.symlinkTarget = inode.symlinkTarget
  cells : kept.data.cells = inode.data.cells

theorem Inode.Preserved.refl (inode : Inode) : inode.Preserved inode :=
  ⟨rfl, rfl, rfl, rfl, rfl, rfl, rfl, rfl⟩

theorem Inode.Preserved.trans {first second third : Inode} (early : first.Preserved second)
    (late : second.Preserved third) : first.Preserved third where
  kind := late.kind.trans early.kind
  mode := late.mode.trans early.mode
  uid := late.uid.trans early.uid
  gid := late.gid.trans early.gid
  linkCount := late.linkCount.trans early.linkCount
  metadata := late.metadata.trans early.metadata
  symlinkTarget := late.symlinkTarget.trans early.symlinkTarget
  cells := late.cells.trans early.cells

variable {sequences : ℕ × ℕ} {parentSequence : ℕ} {options : OpenOptions} {before : Catalog}

namespace Catalog

/-- An inode is preserved, with its names and with what is in it. -/
structure Keeps (id : ℕ) (before after : Catalog) : Prop where
  inode : ∀ inode, before.inodes.get? id = some inode →
    ∃ kept, after.inodes.get? id = some kept ∧ inode.Preserved kept
  names : ∀ key, before.entries.get? key = some id → after.entries.get? key = some id
  children : ∀ key, key.parent = id → after.entries.get? key = before.entries.get? key

section Keeps

variable {ambient : Ambient} {middle after catalog : Catalog} {id other : ℕ} {key : EntryKey}

namespace Keeps

theorem of_get? (same : after.inodes.get? id = before.inodes.get? id)
    (entries : after.entries = before.entries) : before.Keeps id after := by
  constructor
  case inode =>
    intro inode found
    exact ⟨inode, same ▸ found, .refl inode⟩
  case names =>
    intro key entry
    rw [entries, entry]
  case children =>
    intro key _
    rw [entries]

theorem of_eq (inodes : after.inodes = before.inodes) (entries : after.entries = before.entries) :
    before.Keeps id after :=
  of_get? (by rw [inodes]) entries

theorem refl (catalog : Catalog) : catalog.Keeps id catalog :=
  of_eq rfl rfl

theorem trans (early : before.Keeps id middle) (late : middle.Keeps id after) :
    before.Keeps id after := by
  constructor
  case inode =>
    intro inode found
    rcases early.inode inode found with ⟨kept, keptPresent, preserved⟩
    rcases late.inode kept keptPresent with ⟨last, lastPresent, lastPreserved⟩
    exact ⟨last, lastPresent, preserved.trans lastPreserved⟩
  case names => exact fun key entry => late.names key (early.names key entry)
  case children =>
    intro key below
    rw [late.children key below, early.children key below]

variable {change : Inode → Inode}

theorem update_other (different : id ≠ other) : catalog.Keeps id (catalog.update other change) :=
  of_get? (by rw [get?_update, if_neg different]) (entries_update _ _ _)

section

variable
  (preserved : ∀ inode, catalog.inodes.get? other = some inode → inode.Preserved (change inode))

include preserved

theorem update : catalog.Keeps id (catalog.update other change) := by
  by_cases same : id = other
  · subst same
    constructor
    case inode =>
      intro inode found
      refine ⟨change inode, ?_, preserved inode found⟩
      rw [get?_update, if_pos rfl, found, map_some]
    case names =>
      intro key entry
      rw [entries_update, entry]
    case children =>
      intro key _
      rw [entries_update]
  · exact update_other same

omit preserved in
theorem installRootMutationSequence {sequence : ℕ} :
    catalog.Keeps id (catalog.installRootMutationSequence sequence) :=
  update fun _ _ => ⟨rfl, rfl, rfl, rfl, rfl, rfl, rfl, rfl⟩

theorem mutate : catalog.Keeps id (catalog.mutate other change sequences) := by
  have changed : catalog.Keeps id
      (catalog.update other fun inode => (change inode).advance sequences.2) := by
    refine update fun inode found => (preserved inode found).trans ?_
    exact ⟨rfl, rfl, rfl, rfl, rfl, rfl, rfl, rfl⟩
  unfold Catalog.mutate
  split
  · exact changed
  · exact changed.trans installRootMutationSequence

end

theorem mutate_other (different : id ≠ other) :
    catalog.Keeps id (catalog.mutate other change sequences) := by
  unfold Catalog.mutate
  split
  · exact update_other different
  · exact (update_other different).trans installRootMutationSequence

section

variable (elsewhere : key.parent ≠ id) (free : catalog.entries.get? key ≠ some id)

include elsewhere free

/-- A change of one name that is neither of the inode nor in it. -/
theorem of_entry (inodes : after.inodes = catalog.inodes)
    (entries : ∀ other, other ≠ key → after.entries.get? other = catalog.entries.get? other) :
    catalog.Keeps id after := by
  constructor
  case inode => exact fun inode found => ⟨inode, inodes ▸ found, .refl inode⟩
  case names =>
    intro named entry
    rw [entries named, entry]
    rintro rfl
    exact free entry
  case children =>
    intro child below
    refine entries child ?_
    rintro rfl
    exact elsewhere below

theorem insertEntry : catalog.Keeps id (catalog.insertEntry key other) :=
  of_entry elsewhere free rfl fun _ apart => by rw [Catalog.insertEntry, get?_insert, if_neg apart]

theorem removeEntry : catalog.Keeps id (catalog.removeEntry key) :=
  of_entry elsewhere free rfl fun _ apart => by rw [Catalog.removeEntry, get?_remove, if_neg apart]

end

variable {inode : Inode}

theorem addInode (elsewhere : key.parent ≠ id) (free : catalog.entries.get? key = none)
    (different : id ≠ other) : catalog.Keeps id (catalog.addInode key other inode) := by
  have named : catalog.Keeps id (catalog.insertEntry key other) :=
    insertEntry elsewhere (by rw [free]; exact nofun)
  refine named.trans ⟨?_, fun _ entry => entry, fun _ _ => rfl⟩
  intro found present
  refine ⟨found, ?_, .refl found⟩
  rw [Catalog.addInode, get?_insert, if_neg different]
  exact present

theorem remove_other (different : id ≠ other) :
    catalog.Keeps id { catalog with inodes := catalog.inodes.remove other } :=
  of_get? (by rw [get?_remove, if_neg different]) rfl

theorem dropOrphan (different : id ≠ other) : catalog.Keeps id (catalog.dropOrphan other) := by
  unfold Catalog.dropOrphan
  split
  · exact remove_other different
  · exact .refl catalog

theorem dropDirectory (different : id ≠ other) : catalog.Keeps id
    (catalog.dropDirectory other) := by
  unfold Catalog.dropDirectory
  split
  · exact remove_other different
  · exact .refl catalog

variable {links sequence namespaceSequence : ℕ}

section

variable (different : id ≠ other) (elsewhere : key.parent ≠ id)

include different elsewhere

theorem withLink (free : catalog.entries.get? key = none) :
    catalog.Keeps id (catalog.withLink ambient key other links sequence namespaceSequence) := by
  have counted : catalog.Keeps id (catalog.setLinks ambient other links sequence) :=
    update_other different
  have named : (catalog.setLinks ambient other links sequence).Keeps id
      ((catalog.setLinks ambient other links sequence).insertEntry key other) :=
    insertEntry elsewhere (by rw [entries_setLinks, free]; exact nofun)
  exact ((counted.trans named).trans installRootMutationSequence).trans (of_eq rfl rfl)

theorem withoutName (named : catalog.entries.get? key = some other) :
    catalog.Keeps id (catalog.withoutName ambient key other links sequence namespaceSequence) := by
  have counted : catalog.Keeps id (catalog.setLinks ambient other links sequence) :=
    update_other different
  have removed : (catalog.setLinks ambient other links sequence).Keeps id
      ((catalog.setLinks ambient other links sequence).removeEntry key) := by
    refine removeEntry elsewhere ?_
    rw [entries_setLinks, named]
    exact fun same => different (some_inj.mp same).symm
  exact ((counted.trans removed).trans installRootMutationSequence).trans (dropOrphan different)

theorem withoutDirectory {sequence links namespaceSequence : ℕ}
    (named : catalog.entries.get? key = some other) :
    catalog.Keeps id (catalog.withoutDirectory key other sequence links parentSequence
      namespaceSequence) := by
  have emptied : catalog.Keeps id (catalog.removeDirectory other sequence) := update_other different
  have adjusted : (catalog.removeDirectory other sequence).Keeps id
      ((catalog.removeDirectory other sequence).adjustParent key.parent links parentSequence
        namespaceSequence) := update_other (Ne.symm elsewhere)
  have removed := emptied.trans adjusted
  refine ((removed.trans (removeEntry elsewhere ?_)).trans installRootMutationSequence).trans
    (dropDirectory different)
  rw [adjustParent, entries_update, removeDirectory, entries_update, named]
  exact fun same => different (some_inj.mp same).symm

theorem withFile {sequence : ℕ} (free : catalog.entries.get? key = none) :
    catalog.Keeps id (catalog.withFile key other inode options sequence) := by
  have added : catalog.Keeps id (catalog.addInode key other inode) :=
    addInode elsewhere free different
  have opened : (catalog.addInode key other inode).Keeps id
      ((catalog.addInode key other inode).addHandle other options) := of_eq rfl rfl
  exact (added.trans opened).trans installRootMutationSequence

theorem withSymlink {sequence : ℕ} (free : catalog.entries.get? key = none) :
    catalog.Keeps id (catalog.withSymlink key other inode sequence) := by
  have added : catalog.Keeps id (catalog.addInode key other inode) :=
    addInode elsewhere free different
  exact added.trans installRootMutationSequence

theorem withDirectory {links namespaceSequence : ℕ} (free : catalog.entries.get? key = none) :
    catalog.Keeps id (catalog.withDirectory key other inode links parentSequence
      namespaceSequence) := by
  have added : catalog.Keeps id (catalog.addInode key other inode) :=
    addInode elsewhere free different
  exact (added.trans (update_other (Ne.symm elsewhere))).trans installRootMutationSequence

end

variable {oldKey newKey : EntryKey} (oldElsewhere : oldKey.parent ≠ id)
  (newElsewhere : newKey.parent ≠ id) (notOld : catalog.entries.get? oldKey ≠ some id)
  (notNew : catalog.entries.get? newKey ≠ some id)

include oldElsewhere newElsewhere notOld notNew

/-- Moving an entry whose old and new place have nothing to do with the inode. -/
theorem moveName {source : ℕ} :
    catalog.Keeps id ((catalog.removeEntry oldKey).insertEntry newKey source) := by
  refine (removeEntry oldElsewhere notOld).trans (insertEntry newElsewhere ?_)
  rw [Catalog.removeEntry, get?_remove]
  split
  · simp
  · exact notNew

variable {replaced : Option ℕ}

omit oldElsewhere newElsewhere notOld notNew in
theorem replaceFile (different : replaced ≠ some id)
    (replace : catalog.replaceFile ambient replaced = .ok after) : catalog.Keeps id after := by
  cases replaced with
  | none =>
    cases replace
    exact .refl _
  | some target =>
    simp only [Catalog.replaceFile, bind_ok, pure_ok] at replace
    rcases replace with ⟨_, _, _, _, _, _, rfl⟩
    exact update_other fun same => different (congrArg some same.symm)

theorem withMovedFile {source namespaceSequence : ℕ} (notSource : id ≠ source)
    (notReplaced : replaced ≠ some id) : catalog.Keeps id
      (catalog.withMovedFile ambient oldKey newKey source replaced namespaceSequence) := by
  have touched : catalog.Keeps id (catalog.update source (Inode.changed ambient.now)) :=
    update_other notSource
  have moved : (catalog.update source (Inode.changed ambient.now)).Keeps id
      (((catalog.update source (Inode.changed ambient.now)).removeEntry oldKey).insertEntry newKey
        source) := by
    apply moveName oldElsewhere newElsewhere
    · rwa [entries_update]
    · rwa [entries_update]
  have numbered := (touched.trans moved).trans (@installRootMutationSequence _ _ namespaceSequence)
  cases replaced with
  | none => exact numbered
  | some target =>
    exact numbered.trans (dropOrphan fun same => notReplaced (congrArg some same.symm))

omit oldElsewhere newElsewhere notOld notNew in
theorem withParents {oldParent newParent : ℕ} {rootUpdate oldUpdate newUpdate : ℕ × ℕ}
    (notOld : id ≠ oldParent) (notNew : id ≠ newParent)
    (rootLinks : id = ROOT_INODE → ∀ root, catalog.inodes.get? ROOT_INODE = some root →
      rootUpdate.1 = root.linkCount) :
    catalog.Keeps id (catalog.withParents oldParent newParent rootUpdate oldUpdate newUpdate) := by
  refine Keeps.trans (Keeps.trans ?_ (update_other notOld)) (update_other notNew)
  by_cases isRoot : id = ROOT_INODE
  · refine update fun root found => ?_
    exact ⟨rfl, rfl, rfl, rfl, rootLinks isRoot root found, rfl, rfl, rfl⟩
  · exact update_other isRoot

theorem withMovedDirectory {source sequence : ℕ} {rootUpdate oldUpdate newUpdate : ℕ × ℕ}
    (notReplaced : replaced ≠ some id)
    (rootLinks : id = ROOT_INODE → ∀ root, catalog.inodes.get? ROOT_INODE = some root →
      rootUpdate.1 = root.linkCount) :
    catalog.Keeps id (catalog.withMovedDirectory oldKey newKey source replaced rootUpdate oldUpdate
      newUpdate sequence) := by
  have moved : catalog.Keeps id ((catalog.removeEntry oldKey).insertEntry newKey source) :=
    moveName oldElsewhere newElsewhere notOld notNew
  have parents := @withParents ((catalog.removeEntry oldKey).insertEntry newKey source) id
    oldKey.parent newKey.parent rootUpdate oldUpdate newUpdate (Ne.symm oldElsewhere)
    (Ne.symm newElsewhere) rootLinks
  refine (moved.trans parents).trans ?_
  cases replaced with
  | none => exact .refl _
  | some target =>
    have different : id ≠ target := fun same => notReplaced (congrArg some same.symm)
    exact (update_other different).trans (dropDirectory different)

end Keeps

end Keeps

section Transition

variable {config : NamespaceConfig} {ambient : Ambient} {context : RequestContext}
  {catalog after : Catalog} {id : ℕ} {inode : Inode} {operation : Operation}

/-- The operation changes the owner of an inode on behalf of its authority. -/
def Handoff (ambient : Ambient) (context : RequestContext) (catalog : Catalog) (id : ℕ)
    (operation : Operation) : Prop :=
  ∃ update inode, operation = .setAttributes id update ∧ catalog.inodes.get? id = some inode ∧
    authorityHandoff ambient context id inode update

/-- The operation takes a lookup or a handle of the inode away. -/
def Dereferences (id : ℕ) (operation : Operation) : Prop :=
  (∃ count, operation = .forget id count) ∨ ∃ handle, operation = .release id handle

/-- An inode is preserved, or it has no name and is dropped by the operation that takes the last
reference to it away. -/
structure Unharmed (id : ℕ) (operation : Operation) (before after : Catalog) : Prop where
  inode : ∀ inode, before.inodes.get? id = some inode →
    (∃ kept, after.inodes.get? id = some kept ∧ inode.Preserved kept) ∨
      inode.linkCount = 0 ∧ Dereferences id operation ∧ after.inodes.get? id = none ∧
        after.lookupCount id = 0 ∧ after.hasHandle id = false
  names : ∀ key, before.entries.get? key = some id → after.entries.get? key = some id
  children : ∀ key, key.parent = id → after.entries.get? key = before.entries.get? key

theorem Keeps.unharmed (keeps : before.Keeps id after) : before.Unharmed id operation after :=
  ⟨fun inode found => .inl (keeps.inode inode found), keeps.names, keeps.children⟩

theorem unharmed_dropOrphan {other : ℕ} (dereferences : Dereferences other operation)
    (inodes : catalog.inodes = before.inodes) (entries : catalog.entries = before.entries) :
    before.Unharmed id operation (catalog.dropOrphan other) := by
  by_cases same : id = other
  · subst same
    have sameEntries : (catalog.dropOrphan id).entries = before.entries := by
      rw [← entries, dropOrphan]
      split <;> rfl
    constructor
    case inode =>
      intro inode found
      rw [← inodes] at found
      unfold dropOrphan
      split
      · rename_i orphan
        rcases orphan with ⟨unlinked, unreferenced, closed⟩
        simp only [found, any_some, decide_eq_true_eq] at unlinked
        refine .inr ⟨unlinked, dereferences, ?_, unreferenced, Bool.eq_false_iff.mpr closed⟩
        rw [get?_remove, if_pos rfl]
      · exact .inl ⟨inode, found, .refl inode⟩
    case names =>
      intro key entry
      rw [sameEntries, entry]
    case children =>
      intro key _
      rw [sameEntries]
  · exact ((Keeps.of_eq inodes entries).trans (Keeps.dropOrphan same)).unharmed

theorem truncated_keeps {truncate : Bool} {sequence : Option ℕ} {other : ℕ} {opened : Inode}
    (found : catalog.inodes.get? id = some inode) (immutable : inode.isImmutable)
    (openedPresent : catalog.inodes.get? other = some opened)
    (accepted : validateOpen opened options.access truncate = .ok ())
    (numbered : truncation opened truncate = .ok sequence) :
    catalog.Keeps id (truncated ambient catalog other sequence) := by
  cases sequence with
  | none => exact .refl catalog
  | some sequence =>
    refine Keeps.update_other ?_
    rintro rfl
    rw [found, some_inj] at openedPresent
    have mutable := (validateOpen_eq_ok accepted).2
    cases truncate with
    | false => simp [truncation] at numbered
    | true => exact mutable ⟨.inr rfl, openedPresent ▸ immutable⟩

theorem Transition.unharmed (tree : catalog.Tree False)
    (present : catalog.inodes.get? id = some inode) (immutable : inode.isImmutable)
    (notFlags : ∀ flags, operation ≠ .setFileFlags id flags)
    (notHandoff : ¬ Handoff ambient context catalog id operation)
    (transition : Transition config ambient context catalog operation after) :
    catalog.Unharmed id operation after := by
  -- whatever has been found to be mutable is another inode
  have apart : ∀ other found, catalog.inodes.get? other = some found → ¬ found.isImmutable →
      id ≠ other := by
    rintro other found foundPresent mutable rfl
    rw [present, some_inj] at foundPresent
    exact mutable (foundPresent ▸ immutable)
  have elsewhere : ∀ parent, catalog.validateMutableDirectory parent = .ok () → parent ≠ id := by
    intro parent valid
    rcases validateMutableDirectory_eq_ok valid with ⟨found, foundPresent, _, mutable⟩
    exact Ne.symm (apart parent found foundPresent mutable)
  have numbered : catalog.Keeps id { catalog with nextInode := catalog.nextInode + 1 } :=
    .of_eq rfl rfl
  have fresh : id ≠ catalog.nextInode := Nat.ne_of_lt (tree.held.numbers id inode present)
  have replaceable : ∀ replaced, catalog.validateReplaceable replaced = .ok () →
    replaced ≠ some id := by
    rintro _ valid rfl
    rcases bind_ok.mp valid with ⟨found, foundPresent, mutable⟩
    rw [expect_ok] at foundPresent
    exact apart id found foundPresent (refuse_ok.mp mutable) rfl
  have namesOther : ∀ {key : EntryKey} {other : ℕ}, catalog.entries.get? key = some other →
    id ≠ other →
      catalog.entries.get? key ≠ some id := by
    intro key other named different same
    exact different (some_inj.mp (same.symm.trans named))
  cases transition with
  | same => exact (Keeps.refl catalog).unharmed
  | looked =>
    apply Keeps.unharmed
    exact .of_eq rfl rfl
  | forgot isForget => exact unharmed_dropOrphan (.inl ⟨_, isForget⟩) rfl rfl
  | released isRelease => exact unharmed_dropOrphan (.inr ⟨_, isRelease⟩) rfl rfl
  | @opened other _ _ _ sequence openedPresent accepted sized
  | @openedExisting other _ _ _ sequence openedPresent accepted sized =>
    have truncates : catalog.Keeps id (truncated ambient catalog other sequence) :=
      truncated_keeps present immutable openedPresent accepted sized
    apply Keeps.unharmed
    exact truncates.trans (.of_eq rfl rfl)
  | created free _ _ _ allocation =>
    rcases allocateInode_eq_ok allocation with ⟨_, _, rfl, rfl⟩
    apply Keeps.unharmed
    exact .trans numbered (.withFile fresh (elsewhere _ free.parent) free.absent)
  | madeDirectory free _ _ _ _ _ allocation =>
    rcases allocateInode_eq_ok allocation with ⟨_, _, rfl, rfl⟩
    apply Keeps.unharmed
    exact .trans numbered (.withDirectory fresh (elsewhere _ free.parent) free.absent)
  | madeSymlink free _ _ allocation =>
    rcases allocateInode_eq_ok allocation with ⟨_, _, rfl, rfl⟩
    apply Keeps.unharmed
    exact .trans numbered (.withSymlink fresh (elsewhere _ free.parent) free.absent)
  | linked free otherPresent _ mutable =>
    exact (Keeps.withLink (apart _ _ otherPresent mutable) (elsewhere _ free.parent)
      free.absent).unharmed
  | unlinked parent named otherPresent _ mutable =>
    exact (Keeps.withoutName (apart _ _ otherPresent mutable) (elsewhere _ parent) named).unharmed
  | removedDirectory parent named otherPresent _ mutable =>
    exact (Keeps.withoutDirectory (apart _ _ otherPresent mutable)
      (elsewhere _ parent) named).unharmed
  | @movedFile oldKey newKey _ _ replacing _ moves _ _ replace =>
      have notSource := apart _ _ moves.present moves.mutable
      have notReplaced := replaceable _ moves.replaceable
      have entries := entries_replaceFile replace
      have notOld : replacing.entries.get? oldKey ≠ some id :=
        entries ▸ namesOther moves.named notSource
      have notNew : replacing.entries.get? newKey ≠ some id := entries ▸ notReplaced
      refine ((Keeps.replaceFile notReplaced replace).trans ?_).unharmed
      exact Keeps.withMovedFile (elsewhere _ moves.oldParent) (elsewhere _ moves.parent) notOld
        notNew notSource notReplaced
  | movedDirectory moves _ _ _ _ rootUpdated =>
      have notSource := apart _ _ moves.present moves.mutable
      have notOld := elsewhere _ moves.oldParent
      have notNew := elsewhere _ moves.parent
      have notReplaced := replaceable _ moves.replaceable
      refine (Keeps.withMovedDirectory notOld notNew (namesOther moves.named notSource)
        notReplaced notReplaced ?_).unharmed
      rintro rfl root rootPresent
      rw [linkDelta_elsewhere (Ne.symm notOld) (Ne.symm notNew)] at rootUpdated
      rcases parentUpdate_eq_ok rootUpdated with ⟨found, foundPresent, links, _⟩
      rw [rootPresent, some_inj] at foundPresent
      subst foundPresent
      omega
  | attributed otherPresent mutable =>
    exact (Keeps.mutate_other (apart _ _ otherPresent mutable)).unharmed
  | @handedOver other found update _ _ isHandoff otherPresent authority =>
    refine (Keeps.mutate_other ?_).unharmed
    rintro rfl
    exact notHandoff ⟨update, found, isHandoff, otherPresent, authority⟩
  | @flagged other flags _ _ _ isFlags =>
    refine (Keeps.mutate_other ?_).unharmed
    rintro rfl
    exact notFlags flags isFlags
  | @flaggedOnly other flags _ _ isFlags =>
    refine (Keeps.update_other ?_).unharmed
    rintro rfl
    exact notFlags flags isFlags
  | accessed =>
    apply Keeps.unharmed
    refine Keeps.mutate ?_
    exact fun _ _ => ⟨rfl, rfl, rfl, rfl, rfl, rfl, rfl, rfl⟩
  | written otherPresent _ mutable =>
    exact (Keeps.update_other (apart _ _ otherPresent mutable)).unharmed

theorem authority_of_setFileFlags {flags : ℕ} {result : Catalog × Option PosixError}
    (set : catalog.setFileFlags ambient context id flags = .ok result) :
    mayChangeFileFlags ambient context.uid id := by
  rcases bind_ok.mp set with ⟨_, authority, _⟩
  exact not_not.mp (refuse_ok.mp authority)

/-- Whoever asks for what, an immutable inode is unharmed, and its flags are only changed for the
superuser and for the authority that it is bound to. -/
theorem immutable_unharmed {request : Request} (reached : Reached config catalog)
    (present : catalog.inodes.get? id = some inode) (immutable : inode.isImmutable) :
    ((∀ flags, request.operation ≠ .setFileFlags id flags) →
      ¬ Handoff request.ambient request.context catalog id request.operation →
      ∀ after, catalog.serve config request = some after →
        catalog.Unharmed id request.operation after) ∧
    ∀ flags result, catalog.setFileFlags request.ambient request.context id flags = .ok result →
      request.context.uid = 0 ∨
        ∃ rule ∈ request.ambient.immutabilityAuthority.get? id,
          rule.authorityUid = request.context.uid := by
  refine ⟨?_, fun flags result set => authority_of_setFileFlags set⟩
  intro notFlags notHandoff after served
  rcases transition_of_serve served with rfl | transition
  · exact (Keeps.refl _).unharmed
  · exact transition.unharmed reached.tree present immutable notFlags notHandoff

/-- An immutable file is not unlinked, even by the superuser. -/
theorem immutable_file_not_unlinked :
    ∃ catalog inode after, Reached ⟨255, 2 ^ 40⟩ catalog ∧ catalog.inodes.get? 2 = some inode ∧
      inode.isImmutable ∧
      catalog.serve ⟨255, 2 ^ 40⟩ (granted (.unlink ROOT_INODE [0x66])) = some after ∧
      catalog.Unharmed 2 (.unlink ROOT_INODE [0x66]) after := by
  let made := (newVolatile ⟨0, 0⟩).run ⟨255, 2 ^ 40⟩
    [granted (createIn ROOT_INODE [0x66]), granted (.setFileFlags 2 FS_IMMUTABLE_FL)]
  rcases isSome_iff_exists.mp (by decide : made.isSome) with ⟨catalog, ran⟩
  have found : (made.bind (·.inodes.get? 2)).any Inode.isImmutable := by decide
  have served :
      (made.bind (·.serve ⟨255, 2 ^ 40⟩ (granted (.unlink ROOT_INODE [0x66])))).isSome := by
    decide
  rw [ran, bind_some] at found served
  rcases any_eq_true_iff_get _ _ |>.mp found with ⟨present, immutable⟩
  rcases isSome_iff_exists.mp served with ⟨after, served⟩
  have reached : Reached ⟨255, 2 ^ 40⟩ catalog := .run (.mounted (.volatile ⟨0, 0⟩)) ran
  refine ⟨catalog, _, after, reached, (some_get present).symm, immutable, served, ?_⟩
  refine (immutable_unharmed reached (some_get present).symm immutable).1 ?_ ?_ after served
  · exact fun flags => nofun
  · rintro ⟨update, inode, isUpdate, _⟩
    cases isUpdate

/-- An immutable file without a name goes with its last reference. -/
theorem immutable_orphan_dropped :
    ∃ catalog inode after, Reached ⟨255, 2 ^ 40⟩ catalog ∧ catalog.inodes.get? 2 = some inode ∧
      inode.isImmutable ∧ catalog.serve ⟨255, 2 ^ 40⟩ (granted (.release 2 1)) = some after ∧
      after.inodes.get? 2 = none := by
  let made := (newVolatile ⟨0, 0⟩).run ⟨255, 2 ^ 40⟩
    [granted (createIn ROOT_INODE [0x66]), granted (.unlink ROOT_INODE [0x66]),
      granted (.setFileFlags 2 FS_IMMUTABLE_FL), granted (.forget 2 1)]
  rcases isSome_iff_exists.mp (by decide : made.isSome) with ⟨catalog, ran⟩
  have found : (made.bind (·.inodes.get? 2)).any Inode.isImmutable := by decide
  have gone : (made.bind (·.serve ⟨255, 2 ^ 40⟩ (granted (.release 2 1)))).any
      fun after => after.inodes.get? 2 = none := by decide
  rw [ran, bind_some] at found gone
  rcases any_eq_true_iff_get _ _ |>.mp found with ⟨present, immutable⟩
  rcases any_eq_true_iff_get _ _ |>.mp gone with ⟨served, dropped⟩
  refine ⟨catalog, _, _, .run (.mounted (.volatile ⟨0, 0⟩)) ran, (some_get present).symm,
    immutable, (some_get served).symm, by simpa using dropped⟩

end Transition

end Catalog

end Fastdup.Posix
