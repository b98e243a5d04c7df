import Fastdup.Library.Extents
import Fastdup.Posix.CommittedFile

/-!
# Dirty data of a file

The data of an epoch is kept in two maps, one of extents whose bytes are resident and one of
extents that lie in another file. A change removes what it overwrites from both maps and keeps
copies or views of what sticks out. A copy needs memory and can fail; the maps are changed in
several steps, so a failure can come between two of them.
-/

namespace Fastdup.Posix

open Library Checked

def MAX_RETAINED_PAYLOAD_AMPLIFICATION : ℕ := 4

/-- Whether the next allocations are granted. Behind the end of the list every allocation is. -/
abbrev Memory := List Bool

/-- The bytes of a write, and the size of the allocation that they are a view of. -/
structure MutationPayload where
  bytes : Bytes
  backingBytes : ℕ
  covered : bytes.length ≤ backingBytes
  deriving DecidableEq

namespace MutationPayload

variable (payload : MutationPayload) (start stop : ℕ)

def length : ℕ :=
  payload.bytes.length

def fromOwnedBytes (bytes : Bytes) : MutationPayload where
  bytes := bytes
  backingBytes := bytes.length
  covered := Nat.le_refl _

/-- The bytes of the payload in a range. -/
def bytesIn : Bytes :=
  (payload.bytes.take stop).drop start

def slice : MutationPayload where
  bytes := payload.bytesIn start stop
  backingBytes := payload.backingBytes
  covered := by
    have covered := payload.covered
    rw [bytesIn, List.length_drop, List.length_take]
    omega

/-- A copy into memory of its own, which may not be had. -/
def tryCopyFromSlice (bytes : Bytes) : Attempt Memory Failure MutationPayload
  | [] => (.ok (fromOwnedBytes bytes), [])
  | true :: rest => (.ok (fromOwnedBytes bytes), rest)
  | false :: rest => (.error (.refused .outOfMemory), rest)

/-- A fragment that is large enough for its allocation stays a view of it. -/
def Shares : Prop :=
  (payload.backingBytes + (MAX_RETAINED_PAYLOAD_AMPLIFICATION - 1)) /
    MAX_RETAINED_PAYLOAD_AMPLIFICATION ≤ stop - start

instance : Decidable (payload.Shares start stop) := by
  delta Shares
  infer_instance

/-- Shares the backing memory if the fragment is a large enough part of it, and else copies. -/
def retainedFragment : Attempt Memory Failure MutationPayload := do
  Attempt.settle fun _ => assertThat (start ≤ stop)
  Attempt.settle fun _ => assertThat (stop ≤ payload.length)
  if payload.Shares start stop then
    return payload.slice start stop
  else
    tryCopyFromSlice (payload.bytesIn start stop)

/-- The fragment that is kept when memory suffices. -/
def fragment : MutationPayload :=
  if payload.Shares start stop then payload.slice start stop
  else fromOwnedBytes (payload.bytesIn start stop)

@[simp]
theorem bytes_fragment : (payload.fragment start stop).bytes = payload.bytesIn start stop := by
  rw [fragment]
  split <;> rfl

theorem length_bytesIn : (payload.bytesIn start stop).length = min stop payload.length - start := by
  rw [bytesIn, List.length_drop, List.length_take]
  rfl

end MutationPayload

/-- Dirty bytes in memory. -/
structure ResidentDirtyData where
  bytes : MutationPayload
  mutationSequence : ℕ
  deriving DecidableEq

/-- A byte of the data, and the mutation it belongs to. -/
structure Stored where
  byte : UInt8
  sequence : ℕ
  deriving DecidableEq, Repr

namespace ResidentDirtyData

def length (extent : ResidentDirtyData) : ℕ :=
  extent.bytes.length

def retainedFragment (extent : ResidentDirtyData) (start stop : ℕ) :
    Attempt Memory Failure ResidentDirtyData := do
  return ⟨← extent.bytes.retainedFragment start stop, extent.mutationSequence⟩

def fragment (extent : ResidentDirtyData) (start stop : ℕ) : ResidentDirtyData where
  bytes := extent.bytes.fragment start stop
  mutationSequence := extent.mutationSequence

theorem length_fragment (extent : ResidentDirtyData) (start stop : ℕ) :
    (extent.fragment start stop).length = min stop extent.length - start := by
  change (extent.bytes.fragment start stop).bytes.length = _
  rw [MutationPayload.bytes_fragment, MutationPayload.length_bytesIn]
  rfl

instance : Extent ResidentDirtyData Stored where
  stop start extent := start + extent.length
  read start extent position :=
    ⟨extent.bytes.bytes.getD (position - start) 0, extent.mutationSequence⟩
  upTo start extent position := extent.fragment 0 (position - start)
  onward start extent position := extent.fragment (position - start) extent.length
  stop_upTo := by
    intro start extent position after before
    rw [length_fragment]
    omega
  stop_onward := by
    intro start extent position after before
    rw [length_fragment]
    omega
  read_upTo := by
    intro start extent position place before starts stops
    rw [fragment, MutationPayload.bytes_fragment, MutationPayload.bytesIn, List.drop_zero,
      List.getD_eq_getElem?_getD, List.getD_eq_getElem?_getD, List.getElem?_take, if_pos (by omega)]
  read_onward := by
    intro start extent position place before starts stops
    rw [fragment, MutationPayload.bytes_fragment, MutationPayload.bytesIn,
      List.getD_eq_getElem?_getD, List.getD_eq_getElem?_getD, List.getElem?_drop]
    have whole : extent.bytes.bytes.take extent.length = extent.bytes.bytes :=
      List.take_of_length_le (Nat.le_refl _)
    rw [whole]
    congr 3
    omega

end ResidentDirtyData

/-- Dirty bytes that were moved to a spill file. -/
structure ExternalDirtyData (File : Type) where
  source : File
  sourceOffset : ℕ
  length : ℕ
  throughSequence : ℕ
  deriving DecidableEq

/-- A place in another file, and the mutation that the data belongs to. -/
structure Place (File : Type) where
  source : File
  offset : ℕ
  sequence : ℕ
  deriving DecidableEq

instance {File : Type} : Extent (ExternalDirtyData File) (Place File) where
  stop start extent := start + extent.length
  read start extent position :=
    ⟨extent.source, extent.sourceOffset + (position - start), extent.throughSequence⟩
  upTo start extent position := { extent with length := position - start }
  onward start extent position :=
    { extent with
      sourceOffset := extent.sourceOffset + (position - start)
      length := start + extent.length - position }
  stop_upTo := by
    intro start extent position after before
    change start + (position - start) = position
    omega
  stop_onward := by
    intro start extent position after before
    change position + (start + extent.length - position) = start + extent.length
    omega
  read_upTo := by
    intro start extent position place before starts stops
    rfl
  read_onward := by
    intro start extent position place before starts stops
    congr 1
    change extent.sourceOffset + (position - start) + (place - position) = _
    omega

/-- The content of a file over its committed Manifest. -/
structure SparseData (File : Type) where
  logicalSize : ℕ
  allocatedBytes : ℕ
  residentBytes : ℕ
  extents : SortedMap ℕ ResidentDirtyData
  externalExtents : SortedMap ℕ (ExternalDirtyData File)
  deriving DecidableEq

/-- The extents that a change removes, and what it keeps of them. -/
structure OverlapPlan where
  overlapping : List ℕ
  fragments : List (ℕ × ResidentDirtyData)

def planLeft (start : ℕ) (extent : ℕ × ResidentDirtyData) :
    Attempt Memory Failure (List (ℕ × ResidentDirtyData)) :=
  if extent.1 < start then do
    return [(extent.1, ← extent.2.retainedFragment 0 (start - extent.1))]
  else
    return []

def planRight (stop : ℕ) (extent : ℕ × ResidentDirtyData) :
    Attempt Memory Failure (List (ℕ × ResidentDirtyData)) :=
  if stop < extent.1 + extent.2.length then do
    return [(stop, ← extent.2.retainedFragment (stop - extent.1) extent.2.length)]
  else
    return []

/-- Adds one extent to the plan if it meets the range. -/
def planOverlap (start stop : ℕ) (plan : OverlapPlan) (extent : ℕ × ResidentDirtyData) :
    Attempt Memory Failure OverlapPlan := do
  Attempt.settle fun _ => assertThat (extent.1 + extent.2.length < 2 ^ 64)
  if extent.1 + extent.2.length ≤ start ∨ stop ≤ extent.1 then
    return plan
  else
    let left ← planLeft start extent
    let right ← planRight stop extent
    return ⟨plan.overlapping ++ [extent.1], plan.fragments ++ (left ++ right)⟩

namespace SparseData

variable {File : Type}

def onData {α : Type} (program : Attempt (SparseData File) Failure α) :
    Attempt (SparseData File × Memory) Failure α :=
  Attempt.within Prod.fst (fun data state => (data, state.2)) program

def onMemory {α : Type} (program : SparseData File → Attempt Memory Failure α) :
    Attempt (SparseData File × Memory) Failure α :=
  fun state => Attempt.within Prod.snd (fun memory state => (state.1, memory))
    (program state.1) state

/-- Removes an extent and its bytes from the totals. -/
def takeResident (start : ℕ) : Attempt (SparseData File) Failure Unit := do
  let removed ← Attempt.settle fun data => expect (data.extents.get? start)
  Attempt.settle fun data => assertThat (removed.length ≤ data.allocatedBytes)
  Attempt.settle fun data => assertThat (removed.length ≤ data.residentBytes)
  Attempt.change fun data =>
    { data with
      allocatedBytes := data.allocatedBytes - removed.length
      residentBytes := data.residentBytes - removed.length
      extents := data.extents.remove start }

/-- Adds an extent and its bytes to the totals. -/
def putResident (start : ℕ) (extent : ResidentDirtyData) : Attempt (SparseData File) Failure Unit :=
    do
  Attempt.settle fun data => assertThat (data.allocatedBytes + extent.length < 2 ^ 64)
  Attempt.settle fun data => assertThat (data.residentBytes + extent.length < 2 ^ 64)
  Attempt.settle fun data => assertThat (data.extents.get? start = none)
  Attempt.change fun data =>
    { data with
      allocatedBytes := data.allocatedBytes + extent.length
      residentBytes := data.residentBytes + extent.length
      extents := data.extents.insert start extent }

/-- Removes a spilled extent from the totals. -/
def takeExternal (start : ℕ) : Attempt (SparseData File) Failure Unit := do
  let removed ← Attempt.settle fun data => expect (data.externalExtents.get? start)
  Attempt.settle fun data => assertThat (removed.length ≤ data.allocatedBytes)
  Attempt.change fun data =>
    { data with
      allocatedBytes := data.allocatedBytes - removed.length
      externalExtents := data.externalExtents.remove start }

/-- Adds a spilled extent to the totals. -/
def putExternal (start : ℕ) (extent : ExternalDirtyData File) :
    Attempt (SparseData File) Failure Unit := do
  Attempt.settle fun data => assertThat (data.allocatedBytes + extent.length < 2 ^ 64)
  Attempt.settle fun data => assertThat (data.externalExtents.get? start = none)
  Attempt.change fun data =>
    { data with
      allocatedBytes := data.allocatedBytes + extent.length
      externalExtents := data.externalExtents.insert start extent }

/-- Plans all copies before anything is removed. -/
def planOverlaps (start stop : ℕ) (data : SparseData File) : Attempt Memory Failure OverlapPlan :=
  ((data.extents.floor? start).toList ++ data.extents.between start stop).foldlM
    (planOverlap start stop) ⟨[], []⟩

def applyPlan (plan : OverlapPlan) : Attempt (SparseData File) Failure Unit := do
  plan.overlapping.forM takeResident
  plan.fragments.forM fun fragment => putResident fragment.1 fragment.2

/-- Clears a range of resident data, keeping what extends beyond it. -/
def removeResidentOverlaps (start stop : ℕ) : Attempt (SparseData File × Memory) Failure Unit := do
  let plan ← onMemory (planOverlaps start stop)
  onData (applyPlan plan)

def externalOverlappingStarts (start stop : ℕ)
    (extents : SortedMap ℕ (ExternalDirtyData File)) : List ℕ :=
  ((extents.floor? start).toList.filter fun extent =>
      start < min (extent.1 + extent.2.length) (2 ^ 64 - 1)).map Prod.fst ++
    (extents.between start stop).map Prod.fst

/-- What is kept of an extent on both sides of a change. -/
def externalFragments (start stop : ℕ) (extentStart : ℕ) (external : ExternalDirtyData File) :
    Except Failure (List (ℕ × ExternalDirtyData File)) := do
  let extentEnd ← checkedAdd (.refused .io) extentStart external.length
  let left :=
    if extentStart < start then [(extentStart, { external with length := start - extentStart })]
    else []
  if stop < extentEnd then
    let sourceOffset ← checkedAdd (.refused .io) external.sourceOffset (stop - extentStart)
    return left ++ [(stop, { external with sourceOffset, length := extentEnd - stop })]
  else
    return left

/-- What is kept of spilled extents that meet the range. -/
def planExternal (start stop : ℕ) (starts : List ℕ) (data : SparseData File) :
    Except Failure (List (ℕ × ExternalDirtyData File)) := do
  let kept ← starts.mapM fun extentStart => do
    let external ← expect (data.externalExtents.get? extentStart)
    externalFragments start stop extentStart external
  return kept.flatten

/-- Clears a range of spilled data. -/
def removeExternalOverlaps (start stop : ℕ) : Attempt (SparseData File) Failure Unit := do
  let starts ← Attempt.read fun data => externalOverlappingStarts start stop data.externalExtents
  let fragments ← Attempt.settle (planExternal start stop starts)
  starts.forM takeExternal
  fragments.forM fun fragment => putExternal fragment.1 fragment.2

/-- The checks that the source makes around an edit. -/
def extentValid (data : SparseData File) (extent : ℕ × ResidentDirtyData) : Bool :=
  0 < extent.2.length &&
    extent.1 + extent.2.length < 2 ^ 64 &&
    extent.1 + extent.2.length ≤ data.logicalSize &&
    ((data.extents.below? extent.1).all fun previous =>
      previous.1 + previous.2.length ≤ extent.1) &&
    ((data.extents.atLeast (extent.1 + 1)).head?.all fun following =>
      extent.1 + extent.2.length ≤ following.1)

def validAround (position : ℕ) (data : SparseData File) : Bool :=
  (data.extents.floor? position).all data.extentValid &&
    (data.extents.atLeast position).head?.all data.extentValid

def assertValidAround (position : ℕ) : Attempt (SparseData File) Failure Unit :=
  Attempt.settle fun data => assertThat (data.validAround position)

/-- The payload replaces what the range held. -/
def write (offset : ℕ) (payload : MutationPayload) (mutationSequence : ℕ) :
    Attempt (SparseData File × Memory) Failure Unit := do
  Attempt.settle fun _ => assertThat (0 < payload.length)
  let stop ← Attempt.settle fun _ => checkedAdd (.refused .fileTooLarge) offset payload.length
  onData (removeExternalOverlaps offset stop)
  removeResidentOverlaps offset stop
  onData (putResident offset ⟨payload, mutationSequence⟩)
  onData (Attempt.change fun data => { data with logicalSize := max data.logicalSize stop })
  onData (assertValidAround offset)
  onData (assertValidAround stop)

/-- Puts an extent of another file in the place of a range. -/
def placeExternal (offset stop : ℕ) (extent : ExternalDirtyData File) :
    Attempt (SparseData File × Memory) Failure Unit := do
  removeResidentOverlaps offset stop
  onData (removeExternalOverlaps offset stop)
  onData (putExternal offset extent)
  onData (Attempt.change fun data => { data with logicalSize := max data.logicalSize stop })
  onData (assertValidAround offset)
  onData (assertValidAround stop)

/-- A range of another file replaces what the range held. -/
def writeExternal [CommittedFile File] (offset : ℕ) (source : File)
    (sourceOffset length throughSequence : ℕ) : Attempt (SparseData File × Memory) Failure Unit :=
      do
  Attempt.settle fun _ => assertThat (0 < length)
  let stop ← Attempt.settle fun _ => checkedAdd (.refused .fileTooLarge) offset length
  let sourceEnd ← Attempt.settle fun _ => checkedAdd (.refused .fileTooLarge) sourceOffset length
  Attempt.settle fun _ => refuse (CommittedFile.logicalSize source < sourceEnd) .unsupported
  let allocated ← Attempt.settle fun _ =>
    CommittedFile.allocatedBytesInRange source sourceOffset length
  Attempt.settle fun _ => refuse (allocated ≠ length) .unsupported
  placeExternal offset stop { source, sourceOffset, length, throughSequence }

/-- What is kept of the extent that reaches over a new end. -/
def planCrossing (length : ℕ) (data : SparseData File) :
    Attempt Memory Failure (List (ℕ × ResidentDirtyData)) :=
  match data.extents.crossing? length with
  | none => return []
  | some extent => do return [(extent.1, ← extent.2.retainedFragment 0 (length - extent.1))]

def truncateResident (length : ℕ) : Attempt (SparseData File × Memory) Failure Unit := do
  let crossing ← onMemory (planCrossing length)
  let removed ← Attempt.read fun state => (state.1.extents.atLeast length).map Prod.fst
  onData (applyPlan ⟨removed ++ crossing.map Prod.fst, crossing⟩)

/-- Cuts the data at the new length, or extends it by a hole. -/
def truncate (length : ℕ) : Attempt (SparseData File × Memory) Failure Unit := do
  let logicalSize ← Attempt.read fun state => state.1.logicalSize
  if logicalSize ≤ length then
    onData (Attempt.change fun data => { data with logicalSize := length })
  else
    onData (removeExternalOverlaps length logicalSize)
    truncateResident length
    onData (Attempt.change fun data => { data with logicalSize := length })
    onData (assertValidAround length)

/-- Clears a range of both kinds of data. -/
def punch (start stop : ℕ) : Attempt (SparseData File × Memory) Failure Unit := do
  Attempt.settle fun _ => assertThat (start ≤ stop)
  if start = stop then
    return ()
  else
    removeResidentOverlaps start stop
    onData (removeExternalOverlaps start stop)
    onData (assertValidAround start)
    onData (assertValidAround stop)

/-- Where the extent over a position ends, and its mutation. -/
def extentOver (cursor : ℕ) (data : SparseData File) : Option (ℕ × ℕ) :=
  let resident := (data.extents.floor? cursor).bind fun extent =>
    if cursor < extent.1 + extent.2.length ∧ extent.1 + extent.2.length < 2 ^ 64 then
      some (extent.1 + extent.2.length, extent.2.mutationSequence)
    else none
  let external := (data.externalExtents.floor? cursor).bind fun extent =>
    if cursor < extent.1 + extent.2.length ∧ extent.1 + extent.2.length < 2 ^ 64 then
      some (extent.1 + extent.2.length, extent.2.throughSequence)
    else none
  resident.or external

/-- The loop over the extents of a range; the cursor advances with every extent. -/
def unchangedFrom (stop throughSequence : ℕ) (data : SparseData File) : ℕ → ℕ → Bool
  | 0, cursor => stop ≤ cursor
  | fuel + 1, cursor =>
    if cursor < stop then
      match data.extentOver cursor with
      | none => false
      | some (extentEnd, sequence) =>
        if throughSequence < sequence then false
        else unchangedFrom stop throughSequence data fuel (min extentEnd stop)
    else true

/-- No byte of the range was written after the sequence number. -/
def rangeUnchangedThrough (offset stop throughSequence : ℕ) (data : SparseData File) : Bool :=
  data.unchangedFrom stop throughSequence (stop - offset) offset

/-- A file that can take the place of the resident bytes of a range. -/
structure Candidate (File : Type) where
  offset : ℕ
  throughSequence : ℕ
  source : File
  deriving DecidableEq

/-- The ranges to clear, with touching ranges joined. -/
def joinRun (offset stop : ℕ) (runs : List (ℕ × ℕ)) : List (ℕ × ℕ) :=
  match runs.getLast? with
  | some run => if run.2 = offset then runs.dropLast ++ [(run.1, stop)] else runs ++
    [(offset, stop)]
  | none => [(offset, stop)]

/-- The runs so far, and where the previous candidate ended. -/
structure RunPlan where
  runs : List (ℕ × ℕ)
  previousEnd : Option ℕ

/-- Adds a candidate to the last run if it touches it. -/
def planRun [CommittedFile File] (data : SparseData File) (plan : RunPlan)
    (candidate : Candidate File) : Except Failure RunPlan := do
  let length := CommittedFile.logicalSize candidate.source
  let stop ← checkedAdd (.refused .io) candidate.offset length
  refuse
    (length = 0 ∨ data.logicalSize < stop ∨ CommittedFile.allocatedBytes candidate.source ≠ length ∨
      plan.previousEnd.any (candidate.offset < ·) ∨
      ¬ data.rangeUnchangedThrough candidate.offset stop candidate.throughSequence) .io
  return ⟨joinRun candidate.offset stop plan.runs, some stop⟩

def sortCandidates (candidates : List (Candidate File)) : List (Candidate File) :=
  candidates.mergeSort fun left right => left.offset ≤ right.offset

/-- The ranges that the candidates cover, refused if they overlap. -/
def planRuns [CommittedFile File] (candidates : List (Candidate File)) (data : SparseData File) :
    Except Failure RunPlan :=
  candidates.foldlM (planRun data) ⟨[], none⟩

def clearRun (run : ℕ × ℕ) : Attempt (SparseData File × Memory) Failure Unit := do
  removeResidentOverlaps run.1 run.2
  onData (removeExternalOverlaps run.1 run.2)

def putCandidate [CommittedFile File] (candidate : Candidate File) :
    Attempt (SparseData File) Failure Unit :=
  putExternal candidate.offset
    { source := candidate.source
      sourceOffset := 0
      length := CommittedFile.logicalSize candidate.source
      throughSequence := candidate.throughSequence }

/-- Replaces resident data by the spilled copies of it. -/
def externalizeMany [CommittedFile File] (candidates : List (Candidate File)) :
    Attempt (SparseData File × Memory) Failure Unit :=
  if candidates.isEmpty then
    return ()
  else do
    let plan ← Attempt.settle fun state => planRuns (sortCandidates candidates) state.1
    plan.runs.forM clearRun
    onData ((sortCandidates candidates).forM putCandidate)

end SparseData

end Fastdup.Posix
