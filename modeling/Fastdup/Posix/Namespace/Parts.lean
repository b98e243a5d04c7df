import Fastdup.Posix.Namespace

/-!
# What the parts of the operations change

The operations are put together from a few changes of the catalog. For each of them: which
inodes, entries and counters it leaves alone, and how the inodes that it changes evolve. An
inode keeps its kind and its link target, its sequence number does not decrease, and it stays
sound: its attributes are valid for its kind, and only a file has bytes.
-/

namespace Fastdup.Posix

open Library Checked Nat Inode SortedMap

/-- What holds of every inode of a reached catalog. -/
structure Inode.Sound (id : ℕ) (inode : Inode) : Prop where
  metadata : inode.metadata.Valid inode.kind
  mode : id = ROOT_INODE → inode.mode ≤ 0o7777
  links : inode.linkCount < 2 ^ 32
  target : inode.kind = .symlink →
    ∃ target, inode.symlinkTarget = some target ∧ target ≠ [] ∧
      target.length ≤ MAXIMUM_SYMLINK_TARGET_BYTES
  noTarget : inode.kind ≠ .symlink → inode.symlinkTarget = none
  noBytes : inode.kind ≠ .regular → inode.data = newFile

/-- How an inode can change under a request. -/
structure Inode.Evolves (id : ℕ) (before after : Inode) : Prop where
  kind : after.kind = before.kind
  sequence : before.mutationSequence ≤ after.mutationSequence
  links : before.linkCount < 2 ^ 32 → after.linkCount < 2 ^ 32
  symlinkTarget : after.symlinkTarget = before.symlinkTarget
  sound : before.Sound id → after.Sound id

namespace Inode.Evolves

variable {id : ℕ} {first second third : Inode}

theorem refl (inode : Inode) : inode.Evolves id inode :=
  ⟨rfl, le_refl _, fun fits => fits, rfl, fun sound => sound⟩

theorem trans (early : first.Evolves id second) (late : second.Evolves id third) :
    first.Evolves id third :=
  ⟨late.kind.trans early.kind, le_trans early.sequence late.sequence,
    fun fits => late.links (early.links fits), late.symlinkTarget.trans early.symlinkTarget,
    fun sound => late.sound (early.sound sound)⟩

end Inode.Evolves

variable {inode : Inode} {id sequence : ℕ} {condition : Prop} {error : PosixError}
  {change : Inode → Inode}

theorem Inode.evolves_advance (later : inode.mutationSequence ≤ sequence) :
    inode.Evolves id (inode.advance sequence) := by
  refine ⟨rfl, later, fun fits => fits, rfl, ?_⟩
  intro sound
  refine { sound with noBytes := ?_ }
  intro notRegular
  simp only [Inode.advance] at notRegular ⊢
  rw [sound.noBytes notRegular]
  simp [notRegular, newFile]

theorem Inode.evolves_changed (now : PosixTimestamp) : inode.Evolves id (inode.changed now) :=
  ⟨rfl, le_refl _, fun fits => fits, rfl, fun sound => { sound with }⟩

theorem Inode.evolves_written {now : PosixTimestamp} {cells : DenseFile}
    (regular : inode.kind = .regular) (later : inode.mutationSequence ≤ sequence) :
    inode.Evolves id (inode.written now sequence cells) :=
  ⟨rfl, later, fun fits => fits, rfl,
    fun sound => { sound with noBytes := fun other => absurd regular other }⟩

theorem Inode.evolves_links {links : ℕ} (fits : links < 2 ^ 32)
    (later : inode.mutationSequence ≤ sequence) :
    inode.Evolves id { inode with linkCount := links, mutationSequence := sequence } :=
  ⟨rfl, later, fun _ => fits, rfl, fun sound => { sound with links := fits }⟩

theorem Inode.evolves_sequence (later : inode.mutationSequence ≤ sequence) :
    inode.Evolves id { inode with mutationSequence := sequence } :=
  ⟨rfl, later, fun fits => fits, rfl, fun sound => { sound with }⟩

theorem refuse_ok [Decidable condition] {done : Unit} :
    refuse condition error = .ok done ↔ ¬ condition :=
  require_ok

theorem assertThat_ok [Decidable condition] {done : Unit} :
    assertThat condition = .ok done ↔ condition := by
  rw [assertThat, require_ok, not_not]

theorem expect_ok {α : Type} {value : Option α} {result : α} :
    expect value = .ok result ↔ value = some result := by
  cases value with
  | none => simp [expect]
  | some value => simp [expect]

theorem found_ok {α : Type} {value : Option α} {result : α} :
    found error value = .ok result ↔ value = some result := by
  cases value with
  | none => simp [found]
  | some value => simp [found]

theorem nextLinks_ok {links result : ℕ} :
    nextLinks links = .ok result ↔ links + 1 < 2 ^ 32 ∧ result = links + 1 := by
  rw [nextLinks, bind_ok]
  constructor
  · rintro ⟨_, fits, counted⟩
    cases counted
    exact ⟨Nat.lt_of_not_le (refuse_ok.mp fits), rfl⟩
  · rintro ⟨fits, rfl⟩
    exact ⟨(), refuse_ok.mpr (Nat.not_le_of_lt fits), rfl⟩

theorem next_ok {result : ℕ} :
    next sequence = .ok result ↔ sequence + 1 < 2 ^ 64 ∧ result = sequence + 1 := by
  rw [next, checkedAdd_ok]

namespace Catalog

section Update

variable (catalog : Catalog) (id : ℕ) (change : Inode → Inode)

theorem get?_update (other : ℕ) : (catalog.update id change).inodes.get? other =
      if other = id then (catalog.inodes.get? id).map change else catalog.inodes.get? other := by
  unfold update
  split
  · rename_i absent
    split
    · rename_i same
      rw [same, absent]
      rfl
    · rfl
  · rename_i inode found
    simp [get?_insert, found]

@[simp]
theorem entries_update : (catalog.update id change).entries = catalog.entries := by
  unfold update
  split
  · rfl
  · rfl

@[simp]
theorem nextInode_update : (catalog.update id change).nextInode = catalog.nextInode := by
  unfold update
  split
  · rfl
  · rfl

@[simp]
theorem inodeReservationEnd_update :
    (catalog.update id change).inodeReservationEnd = catalog.inodeReservationEnd := by
  unfold update
  split
  · rfl
  · rfl

@[simp]
theorem handles_update : (catalog.update id change).handles = catalog.handles := by
  unfold update
  split
  · rfl
  · rfl

end Update

/-- The inodes afterwards are those from before, evolved, and new ones under new numbers. -/
structure Evolves (before after : Catalog) : Prop where
  nextInode : before.nextInode ≤ after.nextInode
  reservation : after.inodeReservationEnd = before.inodeReservationEnd
  inodes : ∀ id inode, after.inodes.get? id = some inode →
    (∃ old, before.inodes.get? id = some old ∧ old.Evolves id inode) ∨
      before.nextInode ≤ id ∧ id < after.nextInode ∧ inode.Sound id

variable {before middle after : Catalog}

theorem Evolves.refl (catalog : Catalog) : catalog.Evolves catalog :=
  ⟨le_refl _, rfl, fun _ inode found => .inl ⟨inode, found, .refl inode⟩⟩

theorem Evolves.trans (early : before.Evolves middle) (late : middle.Evolves after) :
    before.Evolves after := by
  refine ⟨le_trans early.nextInode late.nextInode, late.reservation.trans early.reservation, ?_⟩
  intro id inode found
  rcases late.inodes id inode found with ⟨old, oldPresent, evolves⟩ | ⟨above, below, sound⟩
  · rcases early.inodes id old oldPresent with ⟨first, firstPresent, firstEvolves⟩ |
      ⟨above, below, sound⟩
    · exact .inl ⟨first, firstPresent, firstEvolves.trans evolves⟩
    · exact .inr ⟨above, lt_of_lt_of_le below late.nextInode, evolves.sound sound⟩
  · exact .inr ⟨le_trans early.nextInode above, below, sound⟩

theorem Evolves.of_inodes_eq (inodes : after.inodes = before.inodes)
    (nextInode : after.nextInode = before.nextInode)
    (reservation : after.inodeReservationEnd = before.inodeReservationEnd) :
    before.Evolves after := by
  refine ⟨le_of_eq nextInode.symm, reservation, ?_⟩
  intro id inode found
  rw [inodes] at found
  exact .inl ⟨inode, found, .refl inode⟩

variable {catalog : Catalog}

theorem evolves_update
    (evolves : ∀ inode, catalog.inodes.get? id = some inode → inode.Evolves id (change inode)) :
    catalog.Evolves (catalog.update id change) := by
  refine ⟨by simp, by simp, ?_⟩
  intro other inode found
  left
  rw [get?_update] at found
  split at found
  · rename_i same
    subst same
    rw [Option.map_eq_some_iff] at found
    rcases found with ⟨old, oldPresent, rfl⟩
    exact ⟨old, oldPresent, evolves old oldPresent⟩
  · exact ⟨inode, found, .refl inode⟩

theorem evolves_update_of_get? {inode : Inode} (present : catalog.inodes.get? id = some inode)
    (evolves : inode.Evolves id (change inode)) : catalog.Evolves (catalog.update id change) := by
  apply evolves_update
  intro found foundPresent
  rw [present, Option.some_inj] at foundPresent
  exact foundPresent ▸ evolves

theorem evolves_remove : catalog.Evolves { catalog with inodes := catalog.inodes.remove id } := by
  refine ⟨le_refl _, rfl, ?_⟩
  intro other inode found
  exact .inl ⟨inode, get?_of_get?_remove found, .refl inode⟩

theorem evolves_dropOrphan (catalog : Catalog)
    (id : ℕ) : catalog.Evolves (catalog.dropOrphan id) := by
  unfold dropOrphan
  split
  · exact evolves_remove
  · exact .refl catalog

theorem evolves_dropDirectory (catalog : Catalog) (id : ℕ) :
    catalog.Evolves (catalog.dropDirectory id) := by
  unfold dropDirectory
  split
  · exact evolves_remove
  · exact .refl catalog

theorem rootMutationSequence_update
    (steady : id = ROOT_INODE → ∀ inode, (change inode).mutationSequence = inode.mutationSequence) :
    (catalog.update id change).rootMutationSequence = catalog.rootMutationSequence := by
  rw [rootMutationSequence, get?_update, rootMutationSequence]
  split
  · rename_i isRoot
    rw [← isRoot]
    cases catalog.inodes.get? ROOT_INODE with
    | none => rfl
    | some root => exact steady isRoot.symm root
  · rfl

theorem evolves_installRootMutationSequence (later : catalog.rootMutationSequence ≤ sequence) :
    catalog.Evolves (catalog.installRootMutationSequence sequence) := by
  apply evolves_update
  intro root found
  apply evolves_sequence
  rw [rootMutationSequence, found] at later
  exact later

theorem evolves_addInode {key : EntryKey} {inode : Inode} (sound : inode.Sound catalog.nextInode) :
    catalog.Evolves (Catalog.addInode { catalog with nextInode := catalog.nextInode + 1 } key
      catalog.nextInode inode) := by
  refine ⟨le_succ _, rfl, ?_⟩
  intro id found present
  rcases get?_insert_eq_some_iff.mp present with ⟨rfl, rfl⟩ | ⟨_, old⟩
  · exact .inr ⟨le_refl _, lt_succ_self _, sound⟩
  · exact .inl ⟨found, old, .refl found⟩

end Catalog

end Fastdup.Posix
