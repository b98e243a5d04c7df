import Fastdup.Posix.Namespace.Transitions

/-!
# Dispatched operations

The operations on attributes and content, the listing of a directory, and all of them together:
a dispatched operation that succeeds is one of the transitions, and in a tree no operation
panics as long as it keeps away from removed directories.
-/

namespace Fastdup.Posix

open Library Checked List Nat InodeMetadata SortedMap

variable {inode : Inode} {name : Bytes} {mode : ℕ} {update : InodeAttributesUpdate}
  {request : CloneRequest}

namespace Catalog

variable {config : NamespaceConfig} {ambient : Ambient} {context : RequestContext}
  {catalog : Catalog}

variable {id : ℕ}

theorem Attributes.changed {mutated : Inode} {now : PosixTimestamp}
    (attributes : Attributes id inode mutated) : Attributes id inode (mutated.changed now) :=
  { attributes with }

theorem refusing_authorizeMetadata :
    Refusing (authorizeMetadata ambient context id inode name) := by
  unfold authorizeMetadata
  split
  · exact .ok
  · exact .bind .refuse fun _ => .refuse

variable {operation : Operation}

theorem runs_mutateMetadata {mutation : Inode → Except PosixError Inode}
    (attributes : ∀ inode mutated, mutation inode = .ok mutated → Attributes id inode mutated) :
    Performs config ambient context catalog operation
      (catalog.mutateMetadata ambient context id name mutation) := by
  refine .found fun inode present => ?_
  refine .step refusing_authorizeMetadata fun _ _ => ?_
  refine .refuse fun mutable => ?_
  refine .step refusing_nextMutationSequences fun sequences numbered => ?_
  refine .step .mapError fun mutated mutates => ?_
  rw [mapError_ok] at mutates
  exact .ok (.attributed present mutable (attributes inode mutated mutates).changed numbered)

theorem projectMode_le {access : Option ℕ} (bounded : mode ≤ 0o7777)
    (small : ∀ bits ∈ access, bits < 2 ^ 9) : projectMode mode access ≤ 0o7777 := by
  cases access with
  | none => exact bounded
  | some bits =>
    have low : bits < 2 ^ 12 := lt_trans (small bits rfl) (by decide)
    have high : mode &&& (0xffff ^^^ 0o777) < 2 ^ 12 :=
      lt_of_le_of_lt and_le_left (lt_succ_of_le bounded)
    exact le_of_lt_succ (or_lt_two_pow high low)

theorem runs_setXattr {value : Bytes} {mode : XattrSetMode} :
    Performs config ambient context catalog operation
      (catalog.setXattr ambient context id name value mode) := by
  refine runs_mutateMetadata fun inode mutated mutates => ?_
  rcases bind_ok.mp mutates with ⟨⟨metadata, access⟩, set, mutates⟩
  cases mutates
  refine ⟨rfl, rfl, rfl, rfl, rfl, fun valid => valid.setXattr set, fun bounded => ?_⟩
  apply projectMode_le bounded
  rintro bits rfl
  exact setXattr_mode set

theorem runs_removeXattr :
    Performs config ambient context catalog operation
      (catalog.removeXattr ambient context id name) := by
  refine runs_mutateMetadata fun inode mutated mutates => ?_
  rcases bind_ok.mp mutates with ⟨metadata, removed, mutates⟩
  cases mutates
  exact ⟨rfl, rfl, rfl, rfl, rfl, fun valid => valid.removeXattr removed, fun bounded => bounded⟩

theorem runs_setFileFlags {id flags : ℕ} :
    Performs config ambient context catalog (.setFileFlags id flags)
      ((catalog.setFileFlags ambient context id flags).map Prod.fst) := by
  refine .map ?_
  refine .demand fun authority => ?_
  refine .found fun inode present => ?_
  refine .ite (fun _ => .ok .same) fun _ => ?_
  refine .step .reserve fun _ _ => ?_
  refine .step .mapError fun metadata set => ?_
  rw [mapError_ok] at set
  have attributes : Attributes id inode ({ inode with metadata }.changed ambient.now) :=
    ⟨rfl, rfl, rfl, rfl, rfl, fun valid => valid.setFileFlags set, fun bounded => bounded⟩
  cases numbered : catalog.nextMutationSequences id inode.mutationSequence with
  | error failure => exact .ok (.flaggedOnly rfl authority present attributes)
  | ok sequences => exact .ok (.flagged rfl authority present attributes numbered)

theorem runs_setMode {id : ℕ} :
    Performs config ambient context catalog operation
      (catalog.setMode ambient context id mode) := by
  refine .found fun inode present => ?_
  refine .refuse fun _ => ?_
  refine .refuse fun mutable => ?_
  refine .step refusing_nextMutationSequences fun sequences numbered => ?_
  refine .step .mapError fun chosen changed => ?_
  rw [mapError_ok] at changed
  refine .ok (.attributed present mutable ?_ numbered)
  exact ⟨rfl, rfl, rfl, rfl, rfl, fun valid => valid.chmod changed,
    fun _ => mode_of_chmod changed⟩

theorem updateMode_keeps {requested : Option ℕ} {metadata : InodeMetadata}
    (updated : updateMode inode requested = .ok (metadata, mode)) :
    (inode.metadata.Valid inode.kind → metadata.Valid inode.kind) ∧
      (inode.mode ≤ 0o7777 → mode ≤ 0o7777) := by
  cases requested with
  | none =>
    cases updated
    exact ⟨fun valid => valid, fun bounded => bounded⟩
  | some requested =>
    exact ⟨fun valid => valid.chmod updated, fun _ => mode_of_chmod updated⟩

theorem ownedMode_le (bounded : mode ≤ 0o7777) : ownedMode update mode ≤ 0o7777 := by
  unfold ownedMode
  split
  · exact le_trans and_le_left bounded
  · exact bounded

theorem runs_setAttributes :
    Performs config ambient context catalog (.setAttributes id update)
      (catalog.setAttributes ambient context id update) := by
  refine .ite (fun _ => .found fun _ _ => .ok .same) fun _ => ?_
  refine .refuse fun _ => ?_
  refine .found fun inode present => ?_
  refine .refuse fun mutable => ?_
  refine .refuse fun _ => ?_
  refine .refuse fun _ => ?_
  refine .step .reserve fun _ _ => ?_
  refine .step refusing_nextMutationSequences fun sequences numbered => ?_
  refine .step .mapError fun chosen updated => ?_
  rw [mapError_ok] at updated
  have keeps := updateMode_keeps updated
  by_cases handoff : authorityHandoff ambient context id inode update
  · refine .ok (.handedOver rfl present handoff ?_ numbered)
    exact ⟨rfl, rfl, rfl, rfl, rfl, keeps.1, fun bounded => ownedMode_le (keeps.2 bounded)⟩
  · refine .ok (.attributed present (fun immutable => mutable ⟨immutable, handoff⟩) ?_ numbered)
    exact ⟨rfl, rfl, rfl, rfl, rfl, keeps.1, fun bounded => ownedMode_le (keeps.2 bounded)⟩

theorem transition_updateRelatime :
    Transition config ambient context catalog operation (catalog.updateRelatime ambient id) := by
  unfold updateRelatime
  split
  · exact .same
  · rename_i inode found
    split
    · split
      · exact .same
      · rename_i sequences numbered
        exact .accessed found numbered
    · exact .same

theorem runs_readlink :
    Performs config ambient context catalog operation (catalog.readlink ambient id) :=
  .found fun _ _ => .refuse fun _ => .ok transition_updateRelatime

section Content

variable {handle : ℕ}

theorem runs_resolveOpenFile : Runs (catalog.Tree True)
    (catalog.resolveOpenFile id handle) fun resolved => catalog.inodes.get? id = some resolved.2 ∧
      (catalog.Tree True → resolved.2.kind = .regular) := by
  refine .found fun file opened => ?_
  refine .demand fun same => ?_
  subst same
  refine .expect (fun tree => ?_) fun inode present => ?_
  · rcases tree.held.handles handle file opened with ⟨inode, present, _⟩
    simp [present]
  · refine .ok ⟨present, fun tree => ?_⟩
    rcases tree.held.handles handle file opened with ⟨found, foundPresent, regular⟩
    rw [present, Option.some_inj] at foundPresent
    exact foundPresent ▸ regular

theorem runs_read :
    Performs config ambient context catalog operation (catalog.read ambient id handle) := by
  refine .bind runs_resolveOpenFile fun resolved found => ?_
  refine .refuse fun _ => ?_
  refine .assertThat found.2 fun _ => ?_
  exact .step .reserve fun _ _ => .ok transition_updateRelatime

theorem runs_acceptContent {cells : DenseFile} (found : catalog.inodes.get? id = some inode)
    (regular : inode.kind = .regular) (mutable : ¬ inode.isImmutable) :
    Performs config ambient context catalog operation
      (catalog.acceptContent ambient id inode cells) := by
  refine .step .reserve fun _ _ => ?_
  refine .step .reserve fun _ _ => ?_
  refine .step .next fun sequence numbered => ?_
  refine .step .reserve fun _ _ => ?_
  exact .ok (.written found regular mutable numbered)

theorem runs_writePayload {offset : ℕ} {payload : Bytes} :
    Performs config ambient context catalog operation
      (catalog.writePayload config ambient id handle offset payload) := by
  refine .refuse fun _ => ?_
  refine .bind runs_resolveOpenFile fun resolved found => ?_
  refine .refuse fun _ => ?_
  refine .assertThat found.2 fun regular => ?_
  refine .ite (fun _ => .ok .same) fun _ => ?_
  refine .refuse fun mutable => ?_
  refine .step .checkedAdd fun last _ => ?_
  refine .refuse fun _ => ?_
  exact runs_acceptContent found.1 regular mutable

theorem runs_resolveResized {handle : Option ℕ} :
    Runs (catalog.Tree True) (catalog.resolveResized id handle) fun inode =>
      catalog.inodes.get? id = some inode := by
  cases handle with
  | none =>
    rw [resolveResized]
    cases catalog.inodes.get? id with
    | none => trivial
    | some inode => exact .ok rfl
  | some handle =>
    refine .bind runs_resolveOpenFile fun resolved found => ?_
    exact .refuse fun _ => .ok found.1

theorem runs_setLength {handle : Option ℕ} {length : ℕ} :
    Performs config ambient context catalog operation
      (catalog.setLength config ambient id handle length) := by
  refine .refuse fun _ => ?_
  refine .bind runs_resolveResized fun inode found => ?_
  refine .refuse fun _ => ?_
  refine .demand fun regular => ?_
  refine .refuse fun mutable => ?_
  refine .ite (fun _ => .ok .same) fun _ => ?_
  exact runs_acceptContent found regular mutable

theorem runs_fallocate {offset length : ℕ} {mode : FallocateMode} :
    Performs config ambient context catalog operation
      (catalog.fallocate config ambient id handle offset length mode) := by
  refine .refuse fun _ => ?_
  refine .step .checkedAdd fun _ _ => ?_
  refine .bind runs_resolveOpenFile fun resolved found => ?_
  refine .refuse fun _ => ?_
  refine .demand fun regular => ?_
  refine .refuse fun mutable => ?_
  refine .step .mapError fun size _ => ?_
  refine .refuse fun _ => ?_
  exact runs_acceptContent found.1 regular mutable

theorem refusing_validateClone : Refusing (validateClone config request) :=
  .bind .checkedAdd fun _ => .bind .checkedAdd fun _ => .bind .refuse fun _ => .refuse

theorem runs_cloneRange :
    Performs config ambient context catalog operation
      (catalog.cloneRange config ambient request) := by
  refine .bind runs_resolveOpenFile fun source _ => ?_
  refine .bind runs_resolveOpenFile fun target found => ?_
  refine .refuse fun _ => ?_
  refine .step refusing_validateClone fun _ _ => ?_
  refine .ite (fun _ => .ok .same) fun _ => ?_
  refine .refuse fun _ => ?_
  refine .step .reserve fun _ _ => ?_
  refine .assertThat found.2 fun regular => ?_
  refine .refuse fun mutable => ?_
  exact runs_acceptContent found.1 regular mutable

end Content

/-- A removed inode: it has lost its last name but is still referred to. -/
def removed (catalog : Catalog) (id : ℕ) : Bool :=
  (catalog.inodes.get? id).any (·.linkCount = 0)

theorem linked_of_not_removed (kept : ¬ catalog.removed id)
    (found : catalog.inodes.get? id = some inode) (directory : inode.kind = .directory) :
    catalog.Linked id := by
  refine ⟨inode, found, directory, ?_⟩
  intro unlinked
  simp [removed, found, unlinked] at kept

theorem foldl_acquireLookup (entries : List ListedEntry) : ∃ counts,
    entries.foldl (fun catalog entry => catalog.acquireLookup entry.inode 1) catalog =
      { catalog with lookupCounts := counts } := by
  induction entries generalizing catalog with
  | nil => exact ⟨catalog.lookupCounts, rfl⟩
  | cons entry rest ih =>
    rcases @ih (catalog.acquireLookup entry.inode 1) with ⟨counts, folded⟩
    exact ⟨counts, folded⟩

section Listing

variable {tame : Prop} {start : ℕ}

theorem runs_parentOf (tree : tame → catalog.Tree True) (linked : tame → catalog.Linked id) :
    Runs tame (catalog.parentOf id) fun parent => tame → catalog.inodes.get? parent ≠ none := by
  refine .ite (fun isRoot => .ok fun holds => ?_) fun notRoot => ?_
  · rcases kind_eq_directory_iff.mp (tree holds).forest.rootDirectory with ⟨root, present, _⟩
    simp [present]
  · refine .expect (fun holds none => ?_) fun entry found => ?_
    · have named := ((tree holds).incoming_of_linked (linked holds)).resolve_left notRoot
      rw [Ne, LinkGraph.incoming_eq_zero_iff] at named
      apply named
      intro edge mem
      rcases exists_of_mem_edges mem with ⟨key, target, rfl, present⟩
      simpa [EntryKey.edge] using find?_eq_none.mp none _ (mem_pairs_iff.mpr present)
    · refine .ok fun holds => ?_
      have named := mem_pairs_iff.mp (mem_of_find?_eq_some found)
      rcases (tree holds).parent_ne_none named with ⟨above, present, _⟩
      simp [present]

theorem runs_listedParent (tree : tame → catalog.Tree True)
    (linked : tame → start ≤ 1 → catalog.Linked id) :
    Runs tame (catalog.listedParent id start) fun _ => True := by
  refine .ite (fun low => ?_) fun _ => .ok trivial
  refine .bind (runs_parentOf tree fun holds => linked holds low) fun parent found => ?_
  exact .expect found fun _ _ => .ok trivial

theorem mem_listedChildren {entry : ListedEntry} (listed : entry ∈ catalog.listedChildren id) :
    ∃ key, catalog.entries.get? key = some entry.inode := by
  rw [listedChildren, mem_map] at listed
  rcases listed with ⟨⟨⟨key, target⟩, index⟩, mem, rfl⟩
  have inFilter := mem_of_mem_filter (fst_mem_of_mem_zipIdx mem)
  exact ⟨key, mem_pairs_iff.mp inFilter⟩

theorem runs_listed (tree : tame → catalog.Tree True)
    (linked : tame → start ≤ 1 → catalog.Linked id) :
    Runs tame (catalog.listed id start) fun _ => True := by
  refine .bind (runs_listedParent tree linked) fun parent _ => ?_
  refine .bind (.forM fun entry shown => ?_) fun _ _ => .ok trivial
  rcases mem_listedChildren (mem_of_mem_drop (mem_of_mem_take shown)) with ⟨key, named⟩
  exact .expect (fun holds => (tree holds).get?_ne_none named) fun _ _ => .ok trivial

theorem runs_readDirectory {offset : ℤ} {acquireLookups : Bool} {operation : Operation} :
    Runs (catalog.Tree True ∧ (offset ≤ 1 → ¬ catalog.removed id))
      ((catalog.readDirectory id offset acquireLookups).map Prod.fst)
      (Transition config ambient context catalog operation) := by
  refine .map ?_
  refine .refuse fun nonnegative => ?_
  refine .step refusing_validateDirectory fun _ valid => ?_
  rcases validateDirectory_eq_ok valid with ⟨inode, found, directory⟩
  refine .bind (runs_listed And.left fun tame low => ?_) fun entries _ => ?_
  · exact linked_of_not_removed (tame.2 (by omega)) found directory
  · refine .ite (fun _ => .ok ?_) fun _ => .ok .same
    rcases @foldl_acquireLookup catalog entries with ⟨counts, folded⟩
    rw [folded]
    exact .looked

end Listing

/-- The operation neither gives a name in a removed directory nor lists one. -/
def Careful (catalog : Catalog) : Operation → Prop
  | .readDirectory id offset _ => offset ≤ 1 → ¬ catalog.removed id
  | operation => ∀ id ∈ operation.directory?, ¬ catalog.removed id

instance (catalog : Catalog) : DecidablePred catalog.Careful := fun operation => by
  cases operation <;> (delta Careful; infer_instance)

/-- An operation that succeeds is a transition. In a tree, a careful operation does not panic. -/
theorem runs_dispatch (operation : Operation) : Runs (catalog.Tree True ∧ catalog.Careful operation)
      (catalog.dispatch config ambient context operation)
      (Transition config ambient context catalog operation) := by
  cases operation
  case readDirectory id offset acquireLookups => exact runs_readDirectory
  all_goals refine Runs.strengthen And.left ?_
  case lookup => exact runs_lookup
  case forget => exact .ok transition_forget
  case openFile => exact runs_openFile
  case release => exact runs_release
  case create => exact runs_create
  case mkdir => exact runs_mkdir
  case symlink => exact runs_symlink
  case link => exact runs_link
  case unlink => exact runs_unlink
  case rmdir => exact runs_rmdir
  case rename => exact runs_rename
  case setXattr => exact runs_setXattr
  case removeXattr => exact runs_removeXattr
  case setFileFlags => exact runs_setFileFlags
  case setMode => exact runs_setMode
  case setAttributes => exact runs_setAttributes
  case readlink => exact runs_readlink
  case getattr | getFileFlags => exact .found fun _ _ => .ok .same
  case getXattr => exact .found fun _ _ => .step .mapError fun _ _ => .refuse fun _ => .ok .same
  case listXattrs => exact .found fun _ _ => .step .reserve fun _ _ => .ok .same
  case seek =>
    exact .bind runs_resolveOpenFile fun _ _ => .refuse fun _ => .refuse fun _ => .ok .same
  case sync => exact .bind runs_resolveOpenFile fun _ _ => .ok .same
  case read => exact runs_read
  case write => exact runs_writePayload
  case setLength => exact runs_setLength
  case fallocate => exact runs_fallocate
  case cloneRange => exact runs_cloneRange

end Catalog

end Fastdup.Posix
