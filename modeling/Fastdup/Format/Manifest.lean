import Fastdup.Format.Metadata
import Fastdup.Library.Bytes
import Mathlib.Algebra.BigOperators.Group.List.Basic

/-!
# Manifest leaves and inner nodes

A Manifest describes the bytes of one file as a partition into extents. Its leaves hold
extents, its inner nodes hold the ranges and allocation totals of their children. Leaves
and inner nodes are only built by their constructors and decoders, which share the checks
below, so both structures carry what the checks establish.

`cells` is the meaning of an extent: for each of its bytes the place the byte comes from.
-/

namespace Fastdup.Format

open Library Checked List Nat

abbrev ChunkId := Bytes.Fixed 32

def MAX_LOGICAL_CHUNK_BYTES : ℕ := 256 * 1024

/-- One extent of a file: a whole Chunk, a slice of one, or no data. -/
inductive ManifestExtent where
  | data (logicalLength : ℕ) (chunkId : ChunkId)
  | dataSlice (logicalLength : ℕ) (chunkId : ChunkId) (chunkLength chunkOffset : ℕ)
  | hole (logicalLength : ℕ)
  | fill (logicalLength : ℕ) (value : UInt8)
  deriving DecidableEq

/-- Where one byte of a file comes from. -/
inductive ByteSource where
  | chunk (chunkId : ChunkId) (chunkLength offset : ℕ)
  | fill (value : UInt8)
  | hole
  deriving DecidableEq

variable {extent : ManifestExtent} {done : Unit} {fileLength : ℕ}

namespace ManifestExtent

def logicalLength : ManifestExtent → ℕ
  | data logicalLength _ => logicalLength
  | dataSlice logicalLength _ _ _ => logicalLength
  | hole logicalLength => logicalLength
  | fill logicalLength _ => logicalLength

def isHole : ManifestExtent → Bool
  | hole _ => true
  | _ => false

/-- Where the byte at a position of the extent comes from. -/
def source : ManifestExtent → ℕ → ByteSource
  | data logicalLength chunkId, position => .chunk chunkId logicalLength position
  | dataSlice _ chunkId chunkLength chunkOffset, position =>
    .chunk chunkId chunkLength (chunkOffset + position)
  | hole _, _ => .hole
  | fill _ value, _ => .fill value

/-- The sources of all bytes of the extent. -/
def cells (extent : ManifestExtent) : List ByteSource :=
  (List.range extent.logicalLength).map extent.source

/-- The checks of `validate_partition` on one extent. -/
def validate (extent : ManifestExtent) : Except MetadataFormatError Unit := do
  require (extent.logicalLength = 0) .invalidExtent
  match extent with
  | data logicalLength _ => require (logicalLength > MAX_LOGICAL_CHUNK_BYTES) .invalidExtent
  | dataSlice logicalLength _ chunkLength chunkOffset => do
      let sliceEnd ← checkedAdd .arithmeticOverflow chunkOffset logicalLength
      require (chunkLength = 0 ∨ chunkLength > MAX_LOGICAL_CHUNK_BYTES ∨ sliceEnd > chunkLength)
        .invalidExtent
  | _ => pure ()

/-- What the checks on one extent establish. -/
def Valid : ManifestExtent → Prop
  | data logicalLength _ => 0 < logicalLength ∧ logicalLength ≤ MAX_LOGICAL_CHUNK_BYTES
  | dataSlice logicalLength _ chunkLength chunkOffset =>
    0 < logicalLength ∧ chunkLength ≤ MAX_LOGICAL_CHUNK_BYTES ∧
      chunkOffset + logicalLength ≤ chunkLength
  | hole logicalLength => 0 < logicalLength
  | fill logicalLength _ => 0 < logicalLength

theorem validate_ok : extent.validate = .ok done ↔ extent.Valid := by
  cases extent with
  | data length chunkId =>
    simp only [validate, bind_ok, require_ok]
    simp only [logicalLength, Valid]
    constructor
    · rintro ⟨_, nonzero, bounded⟩
      omega
    · rintro ⟨positive, bounded⟩
      exact ⟨(), by omega, by omega⟩
  | dataSlice length chunkId chunkLength chunkOffset =>
    simp only [validate, bind_ok, require_ok, checkedAdd_ok]
    simp only [logicalLength, Valid]
    constructor
    · rintro ⟨_, nonzero, sliceEnd, ⟨_, rfl⟩, bounded⟩
      omega
    · rintro ⟨positive, bounded, inside⟩
      have small : MAX_LOGICAL_CHUNK_BYTES < 2 ^ 64 := by decide
      exact ⟨(), by omega, _, ⟨by omega, rfl⟩, by omega⟩
  | hole length | fill length value =>
    simp only [validate, bind_ok, require_ok, pure_ok]
    simp only [logicalLength, Valid]
    constructor
    · rintro ⟨_, nonzero, _⟩
      omega
    · intro positive
      exact ⟨(), by omega, trivial⟩

theorem Valid.positive (valid : extent.Valid) : 0 < extent.logicalLength := by
  cases extent with
  | data => exact valid.1
  | dataSlice => exact valid.1
  | hole => exact valid
  | fill => exact valid

@[simp]
theorem length_cells (extent : ManifestExtent) : extent.cells.length = extent.logicalLength := by
  simp [cells]

end ManifestExtent

def totalLength (extents : List ManifestExtent) : ℕ :=
  (extents.map ManifestExtent.logicalLength).sum

def extentCells (extents : List ManifestExtent) : List ByteSource :=
  extents.flatMap ManifestExtent.cells

@[simp]
theorem totalLength_nil : totalLength [] = 0 :=
  rfl

@[simp]
theorem totalLength_cons (extent : ManifestExtent) (rest : List ManifestExtent) :
    totalLength (extent :: rest) = extent.logicalLength + totalLength rest := by
  simp [totalLength]

@[simp]
theorem totalLength_append (left right : List ManifestExtent) :
    totalLength (left ++ right) = totalLength left + totalLength right := by
  simp [totalLength]

@[simp]
theorem extentCells_nil : extentCells [] = [] :=
  rfl

@[simp]
theorem extentCells_cons (extent : ManifestExtent) (rest : List ManifestExtent) :
    extentCells (extent :: rest) = extent.cells ++ extentCells rest :=
  rfl

@[simp]
theorem extentCells_append (left right : List ManifestExtent) :
    extentCells (left ++ right) = extentCells left ++ extentCells right := by
  simp [extentCells]

@[simp]
theorem length_extentCells (extents : List ManifestExtent) :
    (extentCells extents).length = totalLength extents := by
  induction extents with
  | nil => rfl
  | cons extent rest ih => simp [ih]

/-- Walks the extents, checking each one, and returns where the last one ends. -/
def partitionEnd (start : ℕ) : List ManifestExtent → Except MetadataFormatError ℕ
  | [] => .ok start
  | extent :: rest => do
      extent.validate
      let next ← checkedAdd .arithmeticOverflow start extent.logicalLength
      partitionEnd next rest

/-- The extents fill the file without a gap. -/
def validatePartition (fileLength : ℕ) (extents : List ManifestExtent) :
    Except MetadataFormatError Unit := do
  let finish ← partitionEnd 0 extents
  require (finish ≠ fileLength ∨ decide (fileLength = 0) ≠ extents.isEmpty) .invalidPartition

/-- A list of valid extents that covers `fileLength` bytes. -/
structure Partition (fileLength : ℕ) (extents : List ManifestExtent) : Prop where
  valid : ∀ extent ∈ extents, extent.Valid
  total : totalLength extents = fileLength
  bounded : fileLength < 2 ^ 64

variable {start finish : ℕ} {extents : List ManifestExtent}

theorem partitionEnd_ok (small : start < 2 ^ 64) : partitionEnd start extents = .ok finish ↔
      (∀ extent ∈ extents, extent.Valid) ∧ finish = start + totalLength extents ∧
        finish < 2 ^ 64 := by
  induction extents generalizing start with
  | nil =>
    simp only [partitionEnd, Except.ok.injEq, not_mem_nil, false_implies, implies_true,
      totalLength_nil, true_and]
    omega
  | cons extent rest ih =>
    simp only [partitionEnd, bind_ok, ManifestExtent.validate_ok,
      checkedAdd_ok, mem_cons, forall_eq_or_imp, totalLength_cons]
    constructor
    · rintro ⟨_, valid, next, ⟨fits, rfl⟩, rest'⟩
      rcases (ih fits).mp rest' with ⟨restValid, rfl, bounded⟩
      exact ⟨⟨valid, restValid⟩, by omega, bounded⟩
    · rintro ⟨⟨valid, restValid⟩, rfl, bounded⟩
      have fits : start + extent.logicalLength < 2 ^ 64 := by omega
      exact ⟨(), valid, _, ⟨fits, rfl⟩, (ih fits).mpr ⟨restValid, by omega, bounded⟩⟩

theorem totalLength_eq_zero_iff (valid : ∀ extent ∈ extents, extent.Valid) :
    totalLength extents = 0 ↔ extents = [] := by
  cases extents with
  | nil => simp
  | cons extent rest =>
    have positive := (valid extent mem_cons_self).positive
    simp only [totalLength_cons, reduceCtorEq, iff_false]
    omega

theorem validatePartition_ok :
    validatePartition fileLength extents = .ok done ↔ Partition fileLength extents := by
  simp only [validatePartition, bind_ok, require_ok]
  constructor
  · rintro ⟨finish, walked, accepted⟩
    rcases (partitionEnd_ok (by decide)).mp walked with ⟨valid, ending, bounded⟩
    rw [not_or, not_not] at accepted
    rw [accepted.1] at ending bounded
    exact ⟨valid, by omega, bounded⟩
  · intro partition
    refine ⟨fileLength, (partitionEnd_ok (by decide)).mpr
      ⟨partition.valid, by rw [partition.total]; omega, partition.bounded⟩, ?_⟩
    have empty := totalLength_eq_zero_iff partition.valid
    rw [partition.total] at empty
    cases extents with
    | nil => simp [empty]
    | cons => simp [empty]

def MANIFEST_HEADER_BYTES : ℕ := 64
def MANIFEST_ENTRY_BYTES : ℕ := 64

def MAX_FLATTENED_EXTENTS : ℕ :=
  (MAX_METADATA_OBJECT_BYTES - METADATA_HEADER_BYTES - MANIFEST_HEADER_BYTES) / 64

/-- The encoded length of a leaf, bounded by the object size. -/
def leafPayloadLength (extentCount : ℕ) : Except MetadataFormatError ℕ := do
  let length := MANIFEST_HEADER_BYTES + extentCount * MANIFEST_ENTRY_BYTES
  require (length > MAX_METADATA_OBJECT_BYTES - METADATA_HEADER_BYTES) (.invalidObjectLength length)
  return length

theorem leafPayloadLength_ok {extentCount length : ℕ} : leafPayloadLength extentCount = .ok length ↔
      extentCount ≤ MAX_FLATTENED_EXTENTS ∧
        length = MANIFEST_HEADER_BYTES + extentCount * MANIFEST_ENTRY_BYTES := by
  simp only [leafPayloadLength, bind_ok, require_ok, pure_ok]
  simp only [MANIFEST_HEADER_BYTES, MANIFEST_ENTRY_BYTES, MAX_FLATTENED_EXTENTS,
    MAX_METADATA_OBJECT_BYTES, METADATA_HEADER_BYTES]
  constructor
  · rintro ⟨_, fits, rfl⟩
    exact ⟨by omega, rfl⟩
  · rintro ⟨fits, rfl⟩
    exact ⟨(), by omega, rfl⟩

/-- A leaf whose extents partition its file length. -/
structure ManifestLeaf where
  fileLength : ℕ
  extents : List ManifestExtent
  partition : Partition fileLength extents
  fits : extents.length ≤ MAX_FLATTENED_EXTENTS
  deriving DecidableEq

namespace ManifestLeaf

def new (fileLength : ℕ) (extents : List ManifestExtent) :
    Except MetadataFormatError ManifestLeaf :=
  match checked : validatePartition fileLength extents with
  | .error error => .error error
  | .ok _ =>
    match sized : leafPayloadLength extents.length with
    | .error error => .error error
    | .ok _ =>
      .ok ⟨fileLength, extents, validatePartition_ok.mp checked,
        (leafPayloadLength_ok.mp sized).1⟩

theorem new_ok {extents : List ManifestExtent} {leaf : ManifestLeaf} :
    new fileLength extents = .ok leaf ↔ leaf.fileLength = fileLength ∧ leaf.extents = extents := by
  unfold new
  constructor
  · intro built
    split at built
    · contradiction
    · split at built
      · contradiction
      · cases built
        exact ⟨rfl, rfl⟩
  · rintro ⟨rfl, rfl⟩
    have checked : validatePartition leaf.fileLength leaf.extents = .ok () :=
      validatePartition_ok.mpr leaf.partition
    have sized := leafPayloadLength_ok.mpr ⟨leaf.fits, rfl⟩
    split
    · simp_all
    · split
      · simp_all
      · rfl

theorem length_eq (leaf : ManifestLeaf) : leaf.fileLength = totalLength leaf.extents :=
  leaf.partition.total.symm

end ManifestLeaf

def MANIFEST_INNER_HEADER_BYTES : ℕ := 64
def MANIFEST_CHILD_RANGE_BYTES : ℕ := 64

/-- Why an inner node is refused. -/
inductive ManifestInnerNodeError where
  | metadata (error : MetadataFormatError)
  | invalidLevel
  | invalidChildRange
  | invalidPartition
  | invalidPayload
  | arithmeticOverflow
  deriving DecidableEq, Repr

/-- The range a child covers and the object that holds it. -/
structure ManifestChildRange (ObjectId : Type) where
  logicalOffset : ℕ
  logicalLength : ℕ
  child : ObjectId
  allocatedBytes : ℕ
  deriving DecidableEq

variable {ObjectId : Type}

namespace ManifestChildRange

def validateRange (logicalOffset logicalLength : ℕ) : Except ManifestInnerNodeError Unit := do
  require (logicalLength = 0) .invalidChildRange
  let _ ← checkedAdd .arithmeticOverflow logicalOffset logicalLength
  return ()

def newWithAllocatedBytes (logicalOffset logicalLength allocatedBytes : ℕ) (child : ObjectId) :
    Except ManifestInnerNodeError (ManifestChildRange ObjectId) := do
  require (allocatedBytes > logicalLength) .invalidChildRange
  validateRange logicalOffset logicalLength
  return { logicalOffset, logicalLength, child, allocatedBytes }

theorem newWithAllocatedBytes_ok {logicalOffset logicalLength allocatedBytes : ℕ}
    {child : ObjectId} {range : ManifestChildRange ObjectId} :
    newWithAllocatedBytes logicalOffset logicalLength allocatedBytes child = .ok range ↔
      allocatedBytes ≤ logicalLength ∧ 0 < logicalLength ∧ logicalOffset + logicalLength < 2 ^ 64 ∧
        range = { logicalOffset, logicalLength, child, allocatedBytes } := by
  simp only [newWithAllocatedBytes, validateRange, bind_ok, require_ok, checkedAdd_ok, pure_ok]
  constructor
  · rintro ⟨_, allocated, _, ⟨_, nonzero, _, ⟨fits, _⟩, _⟩, rfl⟩
    exact ⟨by omega, by omega, fits, rfl⟩
  · rintro ⟨allocated, positive, fits, rfl⟩
    exact ⟨(), by omega, (), ⟨(), by omega, _, ⟨fits, rfl⟩, trivial⟩, rfl⟩

end ManifestChildRange

/-- The children cover the range from `start` to `finish` in order and without gaps. -/
def ChildPartition : ℕ → List (ManifestChildRange ObjectId) → ℕ → Prop
  | start, [], finish => start = finish
  | start, child :: rest, finish =>
    child.logicalOffset = start ∧ 0 < child.logicalLength ∧
      child.allocatedBytes ≤ child.logicalLength ∧
      ChildPartition (start + child.logicalLength) rest finish

variable {children : List (ManifestChildRange ObjectId)}

section

variable (partition : ChildPartition start children finish)

include partition

theorem ChildPartition.le : start ≤ finish := by
  induction children generalizing start with
  | nil => exact le_of_eq partition
  | cons child rest ih =>
    have restOrdered := ih partition.2.2.2
    omega

theorem ChildPartition.bounds_of_mem {child : ManifestChildRange ObjectId}
    (mem : child ∈ children) :
    start ≤ child.logicalOffset ∧ child.logicalOffset + child.logicalLength ≤ finish := by
  induction children generalizing start with
  | nil => cases mem
  | cons first rest ih =>
    rcases partition with ⟨rfl, _, _, restPartition⟩
    have ordered := restPartition.le
    rcases mem_cons.mp mem with rfl | behind
    · omega
    · have bounds := ih restPartition behind
      omega

/-- The children never announce more allocated bytes than the node is long. -/
theorem ChildPartition.allocation_le :
    start + (children.map ManifestChildRange.allocatedBytes).sum ≤ finish := by
  induction children generalizing start with
  | nil => exact le_of_eq partition
  | cons child rest ih =>
    rcases partition with ⟨_, _, allocated, restPartition⟩
    have summed := ih restPartition
    rw [map_cons, sum_cons]
    omega

end

/-- The loop of `validate_node` over the children. -/
def childrenEnd (start : ℕ) : List (ManifestChildRange ObjectId) → Except ManifestInnerNodeError ℕ
  | [] => .ok start
  | child :: rest => do
      require (child.logicalLength = 0) .invalidChildRange
      require (child.logicalOffset ≠ start) .invalidPartition
      require (child.allocatedBytes > child.logicalLength) .invalidChildRange
      let next ← checkedAdd .arithmeticOverflow child.logicalOffset child.logicalLength
      childrenEnd next rest

theorem childrenEnd_ok (small : start < 2 ^ 64) : childrenEnd start children = .ok finish ↔
      ChildPartition start children finish ∧ finish < 2 ^ 64 := by
  induction children generalizing start with
  | nil =>
    simp only [childrenEnd, ChildPartition, Except.ok.injEq]
    omega
  | cons child rest ih =>
    simp only [childrenEnd, ChildPartition, bind_ok, require_ok, checkedAdd_ok]
    constructor
    · rintro ⟨_, nonzero, _, aligned, _, allocated, next, ⟨fits, rfl⟩, walked⟩
      have same : child.logicalOffset = start := by omega
      rw [same] at fits walked
      rcases (ih fits).mp walked with ⟨restPartition, bounded⟩
      exact ⟨⟨same, by omega, by omega, restPartition⟩, bounded⟩
    · rintro ⟨⟨rfl, positive, allocated, restPartition⟩, bounded⟩
      have ordered := restPartition.le
      have fits : child.logicalOffset + child.logicalLength < 2 ^ 64 := by omega
      exact ⟨(), by omega, (), by omega, (), by omega, _, ⟨fits, rfl⟩,
        (ih fits).mpr ⟨restPartition, bounded⟩⟩

/-- The children fill the node without a gap, above level zero. -/
def validateNode (fileLength level : ℕ) (children : List (ManifestChildRange ObjectId)) :
    Except ManifestInnerNodeError Unit := do
  require (level = 0) .invalidLevel
  require (children.isEmpty ∨ fileLength = 0) .invalidPartition
  let finish ← childrenEnd 0 children
  require (finish ≠ fileLength) .invalidPartition

def innerPayloadLength (childCount : ℕ) : Except ManifestInnerNodeError ℕ := do
  require (childCount = 0) .invalidPartition
  let length := MANIFEST_INNER_HEADER_BYTES + childCount * MANIFEST_CHILD_RANGE_BYTES
  require (length > MAX_METADATA_OBJECT_BYTES - METADATA_HEADER_BYTES) .invalidPayload
  return length

/-- What the checks on an inner node establish. -/
structure InnerValid (fileLength level : ℕ) (children : List (ManifestChildRange ObjectId)) :
    Prop where
  level_pos : 0 < level
  nonempty : children ≠ []
  partition : ChildPartition 0 children fileLength
  bounded : fileLength < 2 ^ 64
  fits : children.length ≤ MAX_FLATTENED_EXTENTS

theorem innerPayloadLength_ok {childCount length : ℕ} : innerPayloadLength childCount = .ok length ↔
      childCount ≠ 0 ∧ childCount ≤ MAX_FLATTENED_EXTENTS ∧
        length = MANIFEST_INNER_HEADER_BYTES + childCount * MANIFEST_CHILD_RANGE_BYTES := by
  simp only [innerPayloadLength, bind_ok, require_ok, pure_ok]
  simp only [MANIFEST_INNER_HEADER_BYTES, MANIFEST_CHILD_RANGE_BYTES, MAX_FLATTENED_EXTENTS,
    MAX_METADATA_OBJECT_BYTES, METADATA_HEADER_BYTES, MANIFEST_HEADER_BYTES]
  constructor
  · rintro ⟨_, nonzero, _, fits, rfl⟩
    exact ⟨nonzero, by omega, rfl⟩
  · rintro ⟨nonzero, fits, rfl⟩
    exact ⟨(), nonzero, (), by omega, rfl⟩

theorem validateNode_ok {level : ℕ} : validateNode fileLength level children = .ok done ↔
      0 < level ∧ children ≠ [] ∧ ChildPartition 0 children fileLength ∧ fileLength < 2 ^ 64 := by
  simp only [validateNode, bind_ok, require_ok, childrenEnd_ok (Nat.two_pow_pos 64)]
  constructor
  · rintro ⟨_, inner, _, nonempty, finish, ⟨partition, bounded⟩, same⟩
    rw [not_not] at same
    rw [not_or, List.isEmpty_iff] at nonempty
    rw [same] at partition bounded
    exact ⟨by omega, nonempty.1, partition, bounded⟩
  · rintro ⟨inner, nonempty, partition, bounded⟩
    refine ⟨(), by omega, (), ?_, fileLength, ⟨partition, bounded⟩, by omega⟩
    rw [not_or, List.isEmpty_iff]
    refine ⟨nonempty, ?_⟩
    cases children with
    | nil => exact absurd rfl nonempty
    | cons child rest =>
      have ordered := partition.2.2.2.le
      have positive := partition.2.1
      omega

/-- An inner node whose children partition its range. -/
structure ManifestInnerNode (ObjectId : Type) where
  fileLength : ℕ
  level : ℕ
  children : List (ManifestChildRange ObjectId)
  valid : InnerValid fileLength level children
  deriving DecidableEq

namespace ManifestInnerNode

def new (fileLength level : ℕ) (children : List (ManifestChildRange ObjectId)) :
    Except ManifestInnerNodeError (ManifestInnerNode ObjectId) :=
  match checked : validateNode fileLength level children with
  | .error error => .error error
  | .ok _ =>
    match sized : innerPayloadLength children.length with
    | .error error => .error error
    | .ok _ =>
      have accepted := validateNode_ok.mp checked
      .ok ⟨fileLength, level, children, accepted.1, accepted.2.1, accepted.2.2.1,
        accepted.2.2.2, (innerPayloadLength_ok.mp sized).2.1⟩

theorem new_ok {level : ℕ} {node : ManifestInnerNode ObjectId} :
    new fileLength level children = .ok node ↔
      node.fileLength = fileLength ∧ node.level = level ∧ node.children = children := by
  unfold new
  constructor
  · intro built
    split at built
    · contradiction
    · split at built
      · contradiction
      · cases built
        exact ⟨rfl, rfl, rfl⟩
  · rintro ⟨rfl, rfl, rfl⟩
    have valid := node.valid
    have checked : validateNode node.fileLength node.level node.children = .ok () :=
      validateNode_ok.mpr ⟨valid.level_pos, valid.nonempty, valid.partition, valid.bounded⟩
    have sized := innerPayloadLength_ok.mpr ⟨by simpa using valid.nonempty, valid.fits, rfl⟩
    split
    · simp_all
    · split
      · simp_all
      · rfl

/-- The sum of what the children report. -/
def childAllocation (total : ℕ) : List (ManifestChildRange ObjectId) →
    Except ManifestInnerNodeError ℕ
  | [] => .ok total
  | child :: rest => do
      let next ← checkedAdd .arithmeticOverflow total child.allocatedBytes
      childAllocation next rest

def allocatedBytes (node : ManifestInnerNode ObjectId) : Except ManifestInnerNodeError ℕ :=
  childAllocation 0 node.children

theorem childAllocation_eq_ok {start finish total : ℕ}
    (partition : ChildPartition start children finish) (bounded : finish < 2 ^ 64)
    (ahead : total ≤ start) : childAllocation total children =
      .ok (total + (children.map ManifestChildRange.allocatedBytes).sum) := by
  induction children generalizing start total with
  | nil => simp [childAllocation]
  | cons child rest ih =>
    rcases partition with ⟨_, _, allocated, restPartition⟩
    have ordered := restPartition.le
    have added : checkedAdd ManifestInnerNodeError.arithmeticOverflow total child.allocatedBytes =
        .ok (total + child.allocatedBytes) :=
      checkedAdd_ok.mpr ⟨by omega, rfl⟩
    simp only [childAllocation, added, bind, Except.bind, map_cons, sum_cons]
    rw [ih restPartition (by omega), add_assoc]

theorem allocatedBytes_eq_ok (node : ManifestInnerNode ObjectId) :
    node.allocatedBytes = .ok (node.children.map ManifestChildRange.allocatedBytes).sum := by
  unfold allocatedBytes
  rw [childAllocation_eq_ok node.valid.partition node.valid.bounded le_rfl, zero_add]

end ManifestInnerNode

/-- A decoded node of a Manifest tree. -/
inductive ManifestNode (ObjectId : Type) where
  | leaf (leaf : ManifestLeaf)
  | inner (node : ManifestInnerNode ObjectId)
  deriving DecidableEq

end Fastdup.Format
