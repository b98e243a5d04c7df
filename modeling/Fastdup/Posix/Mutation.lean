import Fastdup.Library.Attempt

/-!
# Mutations of one file

What the operations of the Namespace do to a regular file while they hold its state lock, and which
callback they owe to the mutation observer afterwards. What the reservations of an operation return
(commit capacity, logical quota, extents and handles) is part of the operation.
-/

namespace Fastdup.Posix

open Library Checked

/-- The errors a request is answered with. -/
inductive PosixError where
  | noEntry
  | exists
  | notDirectory
  | isDirectory
  | notEmpty
  | invalidName
  | nameTooLong
  | invalidArgument
  | badHandle
  | fileTooLarge
  | noSpace
  | outOfMemory
  | noLocks
  | noSuchAddress
  | noData
  | tooBig
  | permissionDenied
  | crossDevice
  | unsupported
  | io
  | again
  deriving DecidableEq, Repr

/-- Why a call did not return a value: an error of the interface, or an assertion that failed (or a
loop that does not end). -/
inductive Failure where
  | refused (error : PosixError)
  | panicked
  deriving DecidableEq, Repr

/-- The request is answered with the error. -/
def refuse (condition : Prop) [Decidable condition] (error : PosixError) : Except Failure Unit :=
  require condition (.refused error)

/-- A value that the source unwraps. -/
def expect {α : Type} : Option α → Except Failure α
  | some value => .ok value
  | none => .error .panicked

/-- An assertion of the source, which panics if it fails. -/
def assertThat (condition : Prop) [Decidable condition] : Except Failure Unit :=
  require (¬ condition) .panicked

theorem assert_bind {σ β : Type} {condition : σ → Prop} [∀ state, Decidable (condition state)]
    {next : Unit → Attempt σ Failure β} {state : σ} (holds : condition state) :
    (Attempt.settle (fun state => assertThat (condition state)) >>= next) state =
      next () state := by
  apply Attempt.bind_of_ok
  rw [Attempt.settle_apply, assertThat, require, if_neg (not_not.mpr holds)]

/-- A value that has to be there, or else the request is refused. -/
def found {α : Type} (error : PosixError) : Option α → Except Failure α
  | some value => .ok value
  | none => .error (.refused error)

/-- How a handle was opened. -/
inductive AccessMode where
  | readOnly
  | writeOnly
  | readWrite
  deriving DecidableEq, Repr

/-- What a seek looks for. -/
inductive SeekKind where
  | data
  | hole
  deriving DecidableEq, Repr

/-- The modes of a preallocation. -/
inductive FallocateMode where
  | allocate (keepSize : Bool)
  | punchHole
  | zeroRange (keepSize : Bool)
  | collapseRange
  | insertRange
  deriving DecidableEq, Repr

/-- What the mutations read and write of an inode. -/
structure InodeState where
  immutable : Bool
  size : ℕ
  mutationSequence : ℕ
  linkCount : ℕ
  deriving DecidableEq, Repr

/-- A call of the mutation observer. -/
inductive Callback where
  | acceptedWrite (offset sequence length : ℕ)
  | acceptedTruncate (sequence length : ℕ)
  deriving DecidableEq, Repr

namespace Callback

def sequence : Callback → ℕ
  | .acceptedWrite _ sequence _ => sequence
  | .acceptedTruncate sequence _ => sequence

end Callback

/-- The operations that give the file a new mutation sequence. `claims` is the error of the first
reservation that fails. -/
inductive Operation where
  | write (access : AccessMode) (append : Bool) (offset length : ℕ) (claims : Option PosixError)
  | setLength (access : Option AccessMode) (length : ℕ) (claims : Option PosixError)
  | fallocate (access : AccessMode) (mode : FallocateMode) (offset length : ℕ)
      (claims : Option PosixError)
  /-- `source` is the error of preparing the source range, `sameInode` says whether the range lies
  in the file itself. -/
  | cloneRange (sourceAccess access : AccessMode) (sameInode : Bool)
    (sourceOffset offset length : ℕ)
      (source claims : Option PosixError)
  | openFile (access : AccessMode) (truncate : Bool) (claims : Option PosixError)
  | createExisting (access : AccessMode) (truncate : Bool) (claims : Option PosixError)
  | unlink
  /-- A rename replaces the name of the file. -/
  | replace (claims : Option PosixError)
  | setFileFlags (immutable : Bool) (claims : Option PosixError)
  /-- The change of extended attributes, mode, owner or times. The access time and the owner's
  handoff are exempt from immutability. -/
  | mutateMetadata (exempt : Bool) (claims : Option PosixError)
  | link (claims : Option PosixError)
  deriving DecidableEq, Repr

/-- Why a mutation ends before its observer is called. -/
inductive Early where
  | failed (error : PosixError)
  | replied
  deriving DecidableEq, Repr

/-- The checks that an operation makes before it takes a lock. -/
def validate (maximumFileBytes : ℕ) : Operation → Except Early Unit
  | .write access _ _ _ _ => require (access = .readOnly) (.failed .badHandle)
  | .setLength access length _ => do
      require (maximumFileBytes < length) (.failed .fileTooLarge)
      require (access = some .readOnly) (.failed .badHandle)
  | .fallocate access _ offset length _ => do
      require (length = 0) (.failed .invalidArgument)
      let _ ← checkedAdd (.failed .fileTooLarge) offset length
      require (access = .readOnly) (.failed .badHandle)
  | .cloneRange sourceAccess access sameInode sourceOffset offset length source _ => do
      require (sourceAccess = .writeOnly ∨ access = .readOnly) (.failed .badHandle)
      let sourceEnd ← checkedAdd (.failed .fileTooLarge) sourceOffset length
      let targetEnd ← checkedAdd (.failed .fileTooLarge) offset length
      require (maximumFileBytes < targetEnd) (.failed .fileTooLarge)
      require (sameInode ∧ sourceOffset < targetEnd ∧ offset < sourceEnd ∧ length ≠ 0)
        (.failed .unsupported)
      require (length = 0) .replied
      source.elim (.ok ()) fun error => .error (.failed error)
  | _ => .ok ()

/-- What the observer's reservation answers. -/
def granted (claims : Option PosixError) : Except PosixError Unit :=
  claims.elim (.ok ()) .error

def InodeState.nextSequence (inode : InodeState) : Except PosixError ℕ :=
  checkedAdd .noSpace inode.mutationSequence 1

/-- The file after a change of its data, and the callback that is owed. -/
abbrev Change := InodeState × Option Callback

/-- An append goes to the end of the file. -/
def writeOffset (inode : InodeState) (append : Bool) (offset : ℕ) : ℕ :=
  if append then inode.size else offset

/-- An empty write changes nothing and has no callback. -/
def writePayload (maximumFileBytes : ℕ) (inode : InodeState) (offset length : ℕ)
    (claims : Option PosixError) : Except PosixError Change :=
  if length = 0 then .ok (inode, none)
  else do
    require (inode.immutable = true) .permissionDenied
    let last ← checkedAdd .fileTooLarge offset length
    require (maximumFileBytes < last) .fileTooLarge
    granted claims
    let sequence ← inode.nextSequence
    pure ({ inode with size := max inode.size last, mutationSequence := sequence },
      some (.acceptedWrite offset sequence length))

/-- The length that the file already has is no mutation. -/
def setLength (inode : InodeState) (length : ℕ) (claims : Option PosixError) :
    Except PosixError Change := do
  require (inode.immutable = true) .permissionDenied
  if length = inode.size then pure (inode, none)
  else do
    granted claims
    let sequence ← inode.nextSequence
    pure ({ inode with size := length, mutationSequence := sequence },
      some (.acceptedTruncate sequence length))

/-- The size after the operation, or why it is refused. -/
def fallocateSize (inode : InodeState) (mode : FallocateMode) (offset length : ℕ) :
    Except PosixError ℕ :=
  match mode with
  | .allocate true | .zeroRange true | .punchHole => .ok inode.size
  | .allocate false | .zeroRange false => .ok (max inode.size (offset + length))
  | .collapseRange => do
      require (inode.size ≤ offset + length) .invalidArgument
      pure (inode.size - length)
  | .insertRange => do
      require (inode.size ≤ offset) .invalidArgument
      checkedAdd .fileTooLarge inode.size length

def fallocate (maximumFileBytes : ℕ) (inode : InodeState) (mode : FallocateMode)
    (offset length : ℕ) (claims : Option PosixError) : Except PosixError Change := do
  require (inode.immutable = true) .permissionDenied
  let size ← fallocateSize inode mode offset length
  require (maximumFileBytes < size) .fileTooLarge
  granted claims
  let sequence ← inode.nextSequence
  pure ({ inode with size, mutationSequence := sequence }, some (.acceptedTruncate sequence size))

def cloneRange (inode : InodeState) (offset length : ℕ) (claims : Option PosixError) :
    Except PosixError Change := do
  require (inode.immutable = true) .permissionDenied
  granted claims
  let sequence ← inode.nextSequence
  pure ({ inode with size := max inode.size (offset + length), mutationSequence := sequence },
    some (.acceptedTruncate sequence (max inode.size (offset + length))))

/-- `open` and `open_existing_for_create`. -/
def openTruncating (inode : InodeState) (access : AccessMode) (truncate : Bool)
    (claims : Option PosixError) : Except PosixError Change := do
  require ((access ≠ .readOnly ∨ truncate = true) ∧ inode.immutable = true) .permissionDenied
  require (truncate = true ∧ access = .readOnly) .badHandle
  if truncate = true ∧ inode.size ≠ 0 then do
    let sequence ← inode.nextSequence
    granted claims
    pure ({ inode with size := 0, mutationSequence := sequence },
      some (.acceptedTruncate sequence 0))
  else do
    granted claims
    pure (inode, none)

/-- The name of the file is removed by `unlink`, or replaced by `rename`. The last name takes the
data with it. -/
def removeLink (inode : InodeState) (claims : Option PosixError) : Except PosixError Change := do
  require (inode.linkCount = 0) .noEntry
  require (inode.immutable = true) .permissionDenied
  granted claims
  let sequence ← inode.nextSequence
  pure ({ inode with linkCount := inode.linkCount - 1, mutationSequence := sequence },
    if inode.linkCount = 1 then some (.acceptedTruncate sequence 0) else none)

def setFileFlags (inode : InodeState) (immutable : Bool) (claims : Option PosixError) :
    Except PosixError Change :=
  if inode.immutable = immutable then .ok (inode, none)
  else do
    granted claims
    let sequence ← inode.nextSequence
    pure ({ inode with immutable, mutationSequence := sequence }, none)

/-- A metadata change is a mutation without a callback. -/
def mutateMetadata (inode : InodeState) (exempt : Bool) (claims : Option PosixError) :
    Except PosixError Change := do
  require (inode.immutable = true ∧ exempt = false) .permissionDenied
  let sequence ← inode.nextSequence
  granted claims
  pure ({ inode with mutationSequence := sequence }, none)

def link (inode : InodeState) (claims : Option PosixError) : Except PosixError Change := do
  require (inode.immutable = true) .permissionDenied
  granted claims
  let sequence ← inode.nextSequence
  pure ({ inode with linkCount := inode.linkCount + 1, mutationSequence := sequence }, none)

/-- The section that an operation runs under the state lock. -/
def change (maximumFileBytes : ℕ) (inode : InodeState) : Operation → Except PosixError Change
  | .write _ append offset length claims =>
    writePayload maximumFileBytes inode (writeOffset inode append offset) length claims
  | .setLength _ length claims => setLength inode length claims
  | .fallocate _ mode offset length claims =>
    fallocate maximumFileBytes inode mode offset length claims
  | .cloneRange _ _ _ _ offset length _ claims => cloneRange inode offset length claims
  | .openFile access truncate claims => openTruncating inode access truncate claims
  | .createExisting access truncate claims => openTruncating inode access truncate claims
  | .unlink => removeLink inode none
  | .replace claims => removeLink inode claims
  | .setFileFlags immutable claims => setFileFlags inode immutable claims
  | .mutateMetadata exempt claims => mutateMetadata inode exempt claims
  | .link claims => link inode claims

/-- The change takes the next sequence, if it takes any, and the callback reports it. -/
def Sequenced (inode : InodeState) (changed : Change) : Prop :=
  (changed.1.mutationSequence = inode.mutationSequence ∧ changed.2 = none) ∨
    (changed.1.mutationSequence = inode.mutationSequence + 1 ∧
      ∀ callback, changed.2 = some callback → callback.sequence = inode.mutationSequence + 1)

theorem Sequenced.le {inode : InodeState} {changed : Change} (sequenced : Sequenced inode changed) :
    inode.mutationSequence ≤ changed.1.mutationSequence := by
  rcases sequenced with ⟨same, _⟩ | ⟨next, _⟩ <;> omega

section Sequenced

variable {maximumFileBytes : ℕ} {inode : InodeState} {changed : Change}

theorem nextSequence_eq {sequence : ℕ} (ran : inode.nextSequence = .ok sequence) :
    sequence = inode.mutationSequence + 1 :=
  (checkedAdd_ok.mp ran).2

theorem sequenced_of_next {next : InodeState} {callback : Option Callback}
    (sequence : inode.nextSequence = .ok next.mutationSequence)
    (reports : ∀ owed ∈ callback, owed.sequence = next.mutationSequence) :
    Sequenced inode (next, callback) :=
  .inr ⟨nextSequence_eq sequence, fun owed same =>
    (reports owed same).trans (nextSequence_eq sequence)⟩

variable {claims : Option PosixError} {offset length : ℕ}

theorem sequenced_writePayload
    (ran : writePayload maximumFileBytes inode offset length claims = .ok changed) :
    Sequenced inode changed := by
  unfold writePayload at ran
  split at ran
  · cases ran
    exact .inl ⟨rfl, rfl⟩
  · simp only [bind_ok, pure_ok] at ran
    obtain ⟨_, _, last, _, _, _, _, _, sequence, next, rfl⟩ := ran
    exact sequenced_of_next next (by simp [Callback.sequence])

theorem sequenced_setLength {length : ℕ} (ran : setLength inode length claims = .ok changed) :
    Sequenced inode changed := by
  unfold setLength at ran
  simp only [bind_ok] at ran
  obtain ⟨_, _, ran⟩ := ran
  split at ran
  · cases ran
    exact .inl ⟨rfl, rfl⟩
  · simp only [bind_ok, pure_ok] at ran
    obtain ⟨_, _, sequence, next, rfl⟩ := ran
    exact sequenced_of_next next (by simp [Callback.sequence])

theorem sequenced_fallocate {mode : FallocateMode}
    (ran : fallocate maximumFileBytes inode mode offset length claims = .ok changed) :
    Sequenced inode changed := by
  unfold fallocate at ran
  simp only [bind_ok, pure_ok] at ran
  obtain ⟨_, _, size, _, _, _, _, _, sequence, next, rfl⟩ := ran
  exact sequenced_of_next next (by simp [Callback.sequence])

theorem sequenced_cloneRange (ran : cloneRange inode offset length claims = .ok changed) :
    Sequenced inode changed := by
  unfold cloneRange at ran
  simp only [bind_ok, pure_ok] at ran
  obtain ⟨_, _, _, _, sequence, next, rfl⟩ := ran
  exact sequenced_of_next next (by simp [Callback.sequence])

theorem sequenced_openTruncating {access : AccessMode} {truncate : Bool}
    (ran : openTruncating inode access truncate claims = .ok changed) :
    Sequenced inode changed := by
  unfold openTruncating at ran
  simp only [bind_ok] at ran
  obtain ⟨_, _, _, _, ran⟩ := ran
  split at ran
  · simp only [bind_ok, pure_ok] at ran
    obtain ⟨sequence, next, _, _, rfl⟩ := ran
    exact sequenced_of_next next (by simp [Callback.sequence])
  · simp only [bind_ok, pure_ok] at ran
    obtain ⟨_, _, rfl⟩ := ran
    exact .inl ⟨rfl, rfl⟩

theorem sequenced_removeLink (ran : removeLink inode claims = .ok changed) :
    Sequenced inode changed := by
  unfold removeLink at ran
  simp only [bind_ok, pure_ok] at ran
  obtain ⟨_, _, _, _, _, _, sequence, next, rfl⟩ := ran
  exact sequenced_of_next next (by simp [Callback.sequence])

theorem sequenced_setFileFlags {immutable : Bool}
    (ran : setFileFlags inode immutable claims = .ok changed) : Sequenced inode changed := by
  unfold setFileFlags at ran
  split at ran
  · cases ran
    exact .inl ⟨rfl, rfl⟩
  · simp only [bind_ok, pure_ok] at ran
    obtain ⟨_, _, sequence, next, rfl⟩ := ran
    exact sequenced_of_next next nofun

theorem sequenced_mutateMetadata {exempt : Bool}
    (ran : mutateMetadata inode exempt claims = .ok changed) : Sequenced inode changed := by
  unfold mutateMetadata at ran
  simp only [bind_ok, pure_ok] at ran
  obtain ⟨_, _, sequence, next, _, _, rfl⟩ := ran
  exact sequenced_of_next next nofun

theorem sequenced_link (ran : link inode claims = .ok changed) : Sequenced inode changed := by
  unfold link at ran
  simp only [bind_ok, pure_ok] at ran
  obtain ⟨_, _, _, _, sequence, next, rfl⟩ := ran
  exact sequenced_of_next next nofun

theorem change_sequenced {operation : Operation}
    (ran : change maximumFileBytes inode operation = .ok changed) : Sequenced inode changed := by
  cases operation with
  | write => exact sequenced_writePayload ran
  | setLength => exact sequenced_setLength ran
  | fallocate => exact sequenced_fallocate ran
  | cloneRange => exact sequenced_cloneRange ran
  | openFile | createExisting => exact sequenced_openTruncating ran
  | unlink | replace => exact sequenced_removeLink ran
  | setFileFlags => exact sequenced_setFileFlags ran
  | mutateMetadata => exact sequenced_mutateMetadata ran
  | link => exact sequenced_link ran

end Sequenced

end Fastdup.Posix
