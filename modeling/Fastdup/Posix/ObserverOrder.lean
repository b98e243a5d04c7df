import Fastdup.Appliance.IngestQueue
import Fastdup.Posix.Mutation

/-!
# The order of the mutation observer

Operations on one file run concurrently. Each takes its mutation sequence under the state lock of
the inode and calls the observer after that lock is dropped; the `observer_order` lock of the inode
is meant to keep the calls in the order of the sequences. The observer hands a write to the ingest
queue in fragments and may wait for space in between.
-/

namespace Fastdup.Posix

open Library Checked Bool List

/-- The steps of a mutation between which other threads may run. -/
inductive Instruction where
  /-- The checks before the first lock. -/
  | validate
  | lockCatalog
  | unlockCatalog
  | lockOrder
  | unlockOrder
  /-- The section under the state lock. -/
  | mutate
  /-- The section under the state lock of an operation that never calls the observer. -/
  | touch
  | observe
  deriving DecidableEq, Repr

namespace Operation

/-- `write_payload`, `set_length`, `fallocate` and `clone_range`. -/
def handleInstructions : List Instruction :=
  [.validate, .lockOrder, .mutate, .observe, .unlockOrder]

/-- `unlink` and `rename`. -/
def nameInstructions : List Instruction :=
  [.lockCatalog, .lockOrder, .mutate, .unlockCatalog, .observe, .unlockOrder]

def createExistingInstructions : List Instruction :=
  [.lockCatalog, .lockOrder, .mutate, .observe, .unlockOrder, .unlockCatalog]

/-- An open with truncation calls the observer outside both locks. -/
def openInstructions : List Instruction :=
  [.lockCatalog, .mutate, .unlockCatalog, .observe]

def metadataInstructions : List Instruction :=
  [.lockCatalog, .touch, .unlockCatalog]

/-- The lock and observer steps of each operation, in source order. -/
def instructions : Operation → List Instruction
  | .write .. | .setLength .. | .fallocate .. | .cloneRange .. => handleInstructions
  | .unlink | .replace _ => nameInstructions
  | .createExisting .. => createExistingInstructions
  | .openFile .. => openInstructions
  | .setFileFlags .. | .mutateMetadata .. | .link _ => metadataInstructions

def IsOpen : Operation → Prop
  | .openFile .. => True
  | _ => False

instance (operation : Operation) : Decidable operation.IsOpen :=
  match operation with
  | .openFile .. => .isTrue trivial
  | .write .. | .setLength .. | .fallocate .. | .cloneRange .. | .unlink | .replace _
  | .createExisting .. | .setFileFlags .. | .mutateMetadata .. | .link _ => .isFalse id

end Operation

/-- An early return drops the guards that are held. -/
def guardsOf (remaining : List Instruction) : List Instruction :=
  remaining.filter fun next => next = .unlockOrder ∨ next = .unlockCatalog

/-- The entries that a call makes in the ingest queue. -/
def Callback.fragments : Callback → ℕ
  | .acceptedWrite _ _ length =>
    let bound := Appliance.WRITE_THROUGH_FRAGMENT_MAX_BYTES_V1
    (length + (bound - 1)) / bound
  | .acceptedTruncate _ _ => 1

/-- A callback that is owed, or that runs and has some fragments left. -/
structure Outstanding where
  callback : Callback
  running : Option ℕ
  deriving DecidableEq, Repr

/-- A thread with the steps left to it and the observer call it owes. -/
structure Task where
  operation : Operation
  remaining : List Instruction
  outstanding : Option Outstanding
  deriving DecidableEq

/-- The inode, its two locks and the threads over it. -/
structure System where
  inode : InodeState
  catalog : Option ℕ
  observerOrder : Option ℕ
  tasks : ℕ → Task
  /-- The calls of the observer so far. -/
  callbacks : List Callback
  lastEnqueuedSequence : ℕ
  /-- An assertion of the ingest queue has failed. -/
  panicked : Bool

/-- How the ingest answers a payload. -/
inductive Ingest where
  | admitted
  /-- The writer waits for space and looks again. -/
  | retried
  /-- Admission is closing or a commit cut waits. -/
  | dropped
  deriving DecidableEq, Repr

/-- A move of the system. -/
inductive Action where
  | advance (task : ℕ)
  | ingest (task : ℕ) (outcome : Ingest)
  deriving DecidableEq, Repr

namespace System

def start (inode : InodeState) (operations : ℕ → Operation) : System where
  inode := inode
  catalog := none
  observerOrder := none
  tasks index :=
    { operation := operations index, remaining := (operations index).instructions,
      outstanding := none }
  callbacks := []
  lastEnqueuedSequence := 0
  panicked := false

def withTask (system : System) (index : ℕ) (task : Task) : System :=
  { system with tasks := Function.update system.tasks index task }

/-- The task goes on with other instructions. -/
def proceed (system : System) (index : ℕ) (remaining : List Instruction) : Task :=
  { system.tasks index with remaining }

/-- The section under the state lock. A failed operation returns and drops its guards. -/
def mutate (maximumFileBytes : ℕ) (system : System) (index : ℕ) (rest : List Instruction) :
    System :=
  match change maximumFileBytes system.inode (system.tasks index).operation with
  | .error _ => system.withTask index (system.proceed index (guardsOf rest))
  | .ok (inode, callback) =>
    { system with inode }.withTask index
      { system.proceed index rest with outstanding := callback.map fun owed => ⟨owed, none⟩ }

/-- A metadata change, which has no callback. -/
def touch (maximumFileBytes : ℕ) (system : System) (index : ℕ) (rest : List Instruction) :
    System :=
  match change maximumFileBytes system.inode (system.tasks index).operation with
  | .error _ => system.withTask index (system.proceed index (guardsOf rest))
  | .ok (inode, _) => { system with inode }.withTask index (system.proceed index rest)

/-- Begins the callback that the thread owes, if it owes one. -/
def observe (system : System) (index : ℕ) (rest : List Instruction) : Option System :=
  match (system.tasks index).outstanding with
  | none => some (system.withTask index (system.proceed index rest))
  | some ⟨callback, none⟩ =>
    some ({ system with callbacks := system.callbacks ++ [callback] }.withTask index
      { system.tasks index with outstanding := some ⟨callback, some callback.fragments⟩ })
  | some ⟨_, some _⟩ => none

/-- The next step of a thread; none if a lock is taken. -/
def advance (maximumFileBytes : ℕ) (system : System) (index : ℕ) : Option System :=
  match (system.tasks index).remaining with
  | [] => none
  | .validate :: rest =>
    match validate maximumFileBytes (system.tasks index).operation with
    | .error _ => some (system.withTask index (system.proceed index []))
    | .ok () => some (system.withTask index (system.proceed index rest))
  | .lockCatalog :: rest =>
    if system.catalog = none then
      some ({ system with catalog := some index }.withTask index (system.proceed index rest))
    else none
  | .unlockCatalog :: rest =>
    some ({ system with catalog := none }.withTask index (system.proceed index rest))
  | .lockOrder :: rest =>
    if system.observerOrder = none then
      some ({ system with observerOrder := some index }.withTask index
        (system.proceed index rest))
    else none
  | .unlockOrder :: rest =>
    some ({ system with observerOrder := none }.withTask index (system.proceed index rest))
  | .mutate :: rest => some (system.mutate maximumFileBytes index rest)
  | .touch :: rest => some (system.touch maximumFileBytes index rest)
  | .observe :: rest => system.observe index rest

/-- The task once the call has queued or dropped one more fragment; the call returns after the last
one. -/
def consume (system : System) (index : ℕ) (callback : Callback) (left : ℕ) : Task :=
  if left ≤ 1 then
    { system.proceed index (system.tasks index).remaining.tail with outstanding := none }
  else { system.tasks index with outstanding := some ⟨callback, some (left - 1)⟩ }

def admitCall (system : System) (index : ℕ) (callback : Callback) (left : ℕ) : System :=
  if callback.sequence < system.lastEnqueuedSequence then { system with panicked := true }
  else
    { system with lastEnqueuedSequence := callback.sequence }.withTask index
      (system.consume index callback left)

/-- A retried admission checks the sequence again. -/
def recheck (system : System) (callback : Callback) : System :=
  if callback.sequence < system.lastEnqueuedSequence then { system with panicked := true }
  else system

/-- `enqueue` and `enqueue_write_fragment`. A truncate is always admitted. -/
def ingest (system : System) (index : ℕ) (outcome : Ingest) : Option System :=
  match (system.tasks index).outstanding with
  | some ⟨callback, some left⟩ =>
    match outcome, callback with
    | .admitted, _ => some (system.admitCall index callback left)
    | .retried, .acceptedWrite .. => some (system.recheck callback)
    | .dropped, .acceptedWrite .. =>
      some (system.withTask index (system.consume index callback left))
    | _, .acceptedTruncate .. => none
  | _ => none

def stepTask (maximumFileBytes : ℕ) (system : System) : Action → Option System
  | .advance index => system.advance maximumFileBytes index
  | .ingest index outcome => system.ingest index outcome

/-- A failed assertion poisons the locks. -/
def step (maximumFileBytes : ℕ) (system : System) (action : Action) : Option System :=
  if system.panicked then none else system.stepTask maximumFileBytes action

/-- Steps of the threads in any order. -/
def run (maximumFileBytes : ℕ) (system : System) (actions : List Action) : Option System :=
  actions.foldlM (step maximumFileBytes) system

/-- The observer is called in the order of the sequences, and no assertion of the queue fails. -/
def Ordered (system : System) : Prop :=
  (system.callbacks.map Callback.sequence).Pairwise (· < ·) ∧ system.panicked = false

/-- While a callback of `open` is owed or runs, no other callback is. -/
def OpensAlone (system : System) : Prop :=
  ∀ index other, (system.tasks index).operation.IsOpen → (system.tasks index).outstanding ≠ none →
    (system.tasks other).outstanding ≠ none → other = index

end System

/-- The instructions take and release the order lock in pairs, and change the file and call the
observer under it when `locks` says so. `owes` says that a callback may be outstanding. -/
def disciplined (locks : Bool) : Bool → Bool → List Instruction → Bool
  | held, owes, [] => !held && !owes
  | held, owes, .validate :: rest => !held && !owes && disciplined locks held owes rest
  | held, owes, .lockCatalog :: rest => !owes && disciplined locks held owes rest
  | held, owes, .unlockCatalog :: rest => disciplined locks held owes rest
  | held, owes, .lockOrder :: rest => locks && !held && !owes && disciplined locks true false rest
  | held, owes, .unlockOrder :: rest => held && !owes && disciplined locks false false rest
  | held, owes, .mutate :: rest =>
    held == locks && !owes && disciplined locks held true rest && !rest.contains .lockOrder
  | held, owes, .touch :: rest =>
    !owes && disciplined locks held false rest && !rest.contains .lockOrder
  | held, _, .observe :: rest => held == locks && disciplined locks held false rest

/-- All but the opens take the observer lock. -/
def Operation.locksOrder (operation : Operation) : Bool :=
  !decide operation.IsOpen

theorem disciplined_instructions (operation : Operation) :
    disciplined operation.locksOrder false false operation.instructions = true := by
  cases operation <;> rfl

variable {held : Bool} {task : Task}

/-- Only the holder of the order lock owes a callback, if its operation locks at all. -/
theorem held_of_owes {remaining : List Instruction}
    (follows : disciplined true held true remaining = true) : held = true := by
  induction remaining with
  | nil => simp [disciplined] at follows
  | cons next rest ih =>
    cases next with
    | unlockCatalog => exact ih follows
    | observe =>
      simp only [disciplined, and_eq_true, beq_iff_eq] at follows
      exact follows.1
    | validate | lockCatalog | lockOrder | unlockOrder | mutate | touch =>
      simp [disciplined] at follows

theorem disciplined_guardsOf {locks owes : Bool} {rest : List Instruction}
    (follows : disciplined locks held owes rest = true) (unlocked : .lockOrder ∉ rest) :
    disciplined locks held false (guardsOf rest) = true := by
  induction rest generalizing held owes with
  | nil =>
    simp only [disciplined, and_eq_true] at follows
    simp [guardsOf, disciplined, follows.1]
  | cons next rest ih =>
    have unlockedRest : .lockOrder ∉ rest := fun mem =>
      unlocked (mem_cons_of_mem _ mem)
    cases next with
    | lockOrder => exact absurd mem_cons_self unlocked
    | unlockOrder =>
      simp only [disciplined, and_eq_true] at follows
      have kept : guardsOf (.unlockOrder :: rest) = .unlockOrder :: guardsOf rest := rfl
      simp only [kept, disciplined, follows.1.1, ih follows.2 unlockedRest]
      rfl
    | unlockCatalog => exact ih follows unlockedRest
    | validate | lockCatalog | mutate | touch | observe =>
      simp only [disciplined, and_eq_true] at follows
      have dropped := ih (by tauto) unlockedRest
      exact dropped

/-- What is left of the task keeps to the lock order. -/
structure Task.Disciplined (task : Task) (held : Bool) : Prop where
  follows : ∃ owes, (task.outstanding ≠ none → owes = true) ∧
    disciplined task.operation.locksOrder held owes task.remaining = true
  running : ∀ callback left, task.outstanding = some ⟨callback, some left⟩ →
    ∃ rest, task.remaining = .observe :: rest

namespace System

@[simp]
theorem withTask_self (system : System) (index : ℕ) (task : Task) :
    (system.withTask index task).tasks index = task :=
  Function.update_self ..

theorem withTask_of_ne (system : System) {index other : ℕ} (task : Task)
    (ne : other ≠ index) : (system.withTask index task).tasks other = system.tasks other :=
  Function.update_of_ne ne ..

/-- The step of a task leaves the other tasks alone and keeps the discipline. -/
structure Moves (system next : System) (index : ℕ) : Prop where
  others : ∀ other, other ≠ index → next.tasks other = system.tasks other
  operation : (next.tasks index).operation = (system.tasks index).operation
  holders : ∀ other, other ≠ index →
    (next.observerOrder = some other ↔ system.observerOrder = some other)
  disciplined : (next.tasks index).Disciplined (decide (next.observerOrder = some index))

/-- What remains outstanding of a task was outstanding before, called or not called. -/
def Keeps (before after : Option Outstanding) : Prop :=
  ∀ outstanding, after = some outstanding → ∃ earlier, before = some earlier ∧
    earlier.callback = outstanding.callback ∧
      (earlier.running = none ↔ outstanding.running = none)

/-- What a step changes besides the locks. -/
inductive Effect (system next : System) (index : ℕ) : Prop where
  /-- Nothing that the observer sees. -/
  | passed (inode : system.inode.mutationSequence ≤ next.inode.mutationSequence)
      (callbacks : next.callbacks = system.callbacks)
      (enqueued : next.lastEnqueuedSequence = system.lastEnqueuedSequence)
      (panicked : next.panicked = system.panicked)
      (outstanding : Keeps (system.tasks index).outstanding (next.tasks index).outstanding)
  /-- A mutation that owes a callback. -/
  | owed (callback : Callback) (idle : (system.tasks index).outstanding = none)
      (inode : next.inode.mutationSequence = system.inode.mutationSequence + 1)
      (sequence : callback.sequence = system.inode.mutationSequence + 1)
      (callbacks : next.callbacks = system.callbacks)
      (enqueued : next.lastEnqueuedSequence = system.lastEnqueuedSequence)
      (panicked : next.panicked = system.panicked)
      (outstanding : (next.tasks index).outstanding = some ⟨callback, none⟩)
  /-- A call of the observer. -/
  | called (callback : Callback) (left : ℕ)
      (before : (system.tasks index).outstanding = some ⟨callback, none⟩)
      (inode : next.inode = system.inode)
      (callbacks : next.callbacks = system.callbacks ++ [callback])
      (enqueued : next.lastEnqueuedSequence = system.lastEnqueuedSequence)
      (panicked : next.panicked = system.panicked)
      (outstanding : (next.tasks index).outstanding = some ⟨callback, some left⟩)
  /-- A fragment that the queue admits. -/
  | admitted (callback : Callback) (left : ℕ)
      (before : (system.tasks index).outstanding = some ⟨callback, some left⟩)
      (forward : system.lastEnqueuedSequence ≤ callback.sequence)
      (inode : next.inode = system.inode)
      (callbacks : next.callbacks = system.callbacks)
      (enqueued : next.lastEnqueuedSequence = callback.sequence)
      (panicked : next.panicked = system.panicked)
      (outstanding : Keeps (system.tasks index).outstanding (next.tasks index).outstanding)
  /-- An assertion of the queue fails. -/
  | failed (callback : Callback) (left : ℕ)
      (before : (system.tasks index).outstanding = some ⟨callback, some left⟩)
      (backward : callback.sequence < system.lastEnqueuedSequence)
      (result : next = { system with panicked := true })

theorem Keeps.refl (outstanding : Option Outstanding) : Keeps outstanding outstanding :=
  fun kept same => ⟨kept, same, rfl, Iff.rfl⟩

theorem keeps_none (before : Option Outstanding) : Keeps before none :=
  nofun

section Steps

variable {maximumFileBytes : ℕ} {system next : System} {index : ℕ} {changed : System}

/-- A step that replaces one task and neither the file nor the observer's side. -/
theorem passed_withTask {catalog order : Option ℕ}
    (outstanding : Keeps (system.tasks index).outstanding task.outstanding) :
    Effect system ({ system with catalog, observerOrder := order }.withTask index task) index := by
  refine .passed le_rfl rfl rfl rfl ?_
  rw [withTask_self]
  exact outstanding

theorem moves_withTask (tasks : changed.tasks = system.tasks)
    (operation : task.operation = (system.tasks index).operation)
    (holders : ∀ other, other ≠ index →
      (changed.observerOrder = some other ↔ system.observerOrder = some other))
    (follows : task.Disciplined (decide (changed.observerOrder = some index))) :
    Moves system (changed.withTask index task) index where
  others := fun other ne => by rw [withTask_of_ne _ _ ne, tasks]
  operation := by rw [withTask_self, operation]
  holders := holders
  disciplined := by
    rw [withTask_self]
    exact follows

theorem idle_of_not_owes {owes : Bool} (outstanding : task.outstanding ≠ none → owes = true)
    (notOwes : owes = false) : task.outstanding = none := by
  by_contra some
  rw [outstanding some] at notOwes
  cases notOwes

/-- The task goes on with what follows, or returns early, with nothing outstanding. -/
theorem disciplined_idle (idle : task.outstanding = none)
    (follows : disciplined task.operation.locksOrder held false task.remaining = true) :
    task.Disciplined held where
  follows := ⟨false, fun some => absurd idle some, follows⟩
  running := fun _ _ same => by
    rw [idle] at same
    cases same

variable {rest : List Instruction}

theorem idle_moves (idle : (system.tasks index).outstanding = none)
    (follows : disciplined (system.tasks index).operation.locksOrder
      (decide (system.observerOrder = some index)) false rest = true) :
    Moves system (system.withTask index (system.proceed index rest)) index ∧
      Effect system (system.withTask index (system.proceed index rest)) index :=
  ⟨moves_withTask rfl rfl (fun _ _ => Iff.rfl) (disciplined_idle idle follows),
    passed_withTask (Keeps.refl _)⟩

variable (holds : (system.tasks index).Disciplined (decide (system.observerOrder = some index)))

include holds

theorem mutate_moves (remaining : (system.tasks index).remaining = .mutate :: rest) :
    Moves system (system.mutate maximumFileBytes index rest) index ∧
      Effect system (system.mutate maximumFileBytes index rest) index := by
  obtain ⟨⟨owes, outstanding, follows⟩, _⟩ := holds
  simp only [remaining, disciplined, and_eq_true, not_eq_true', contains_eq_mem,
    decide_eq_false_iff_not] at follows
  obtain ⟨⟨⟨_, notOwes⟩, followsRest⟩, unlocked⟩ := follows
  have idle := idle_of_not_owes outstanding notOwes
  unfold mutate
  cases ran : change maximumFileBytes system.inode (system.tasks index).operation with
  | error error => exact idle_moves idle (disciplined_guardsOf followsRest unlocked)
  | ok changed =>
    obtain ⟨inode, callback⟩ := changed
    have sequenced := change_sequenced ran
    cases callback with
    | none =>
      refine ⟨moves_withTask rfl rfl (fun _ _ => Iff.rfl)
        ⟨⟨true, fun _ => rfl, followsRest⟩, fun _ _ same => by cases same⟩,
        .passed ?_ rfl rfl rfl ?_⟩
      · exact sequenced.le
      · rw [withTask_self]
        exact keeps_none _
    | some callback =>
      refine ⟨moves_withTask rfl rfl (fun _ _ => Iff.rfl)
        ⟨⟨true, fun _ => rfl, followsRest⟩, fun _ _ same => by cases same⟩, ?_⟩
      rcases sequenced with ⟨_, none⟩ | ⟨next, reports⟩
      · cases none
      · exact .owed callback idle next (reports callback rfl) rfl rfl rfl
          (by rw [withTask_self]; rfl)

theorem touch_moves (remaining : (system.tasks index).remaining = .touch :: rest) :
    Moves system (system.touch maximumFileBytes index rest) index ∧
      Effect system (system.touch maximumFileBytes index rest) index := by
  obtain ⟨⟨owes, outstanding, follows⟩, _⟩ := holds
  simp only [remaining, disciplined, and_eq_true, not_eq_true', contains_eq_mem,
    decide_eq_false_iff_not] at follows
  obtain ⟨⟨notOwes, followsRest⟩, unlocked⟩ := follows
  have idle := idle_of_not_owes outstanding notOwes
  unfold touch
  cases ran : change maximumFileBytes system.inode (system.tasks index).operation with
  | error error => exact idle_moves idle (disciplined_guardsOf followsRest unlocked)
  | ok changed =>
    refine ⟨moves_withTask rfl rfl (fun _ _ => Iff.rfl) (disciplined_idle idle followsRest),
      .passed ?_ rfl rfl rfl ?_⟩
    · exact (change_sequenced ran).le
    · rw [withTask_self]
      exact Keeps.refl _

theorem observe_moves (remaining : (system.tasks index).remaining = .observe :: rest)
    (stepped : system.observe index rest = some next) :
    Moves system next index ∧ Effect system next index := by
  obtain ⟨⟨owes, outstanding, follows⟩, _⟩ := holds
  unfold observe at stepped
  split at stepped
  · rename_i idle
    cases stepped
    simp only [remaining, disciplined, and_eq_true] at follows
    exact idle_moves idle follows.2
  · rename_i callback owed
    cases stepped
    refine ⟨moves_withTask rfl rfl (fun _ _ => Iff.rfl) ⟨⟨owes, ?_, follows⟩, ?_⟩, ?_⟩
    · intro _
      exact outstanding (by rw [owed]; exact Option.some_ne_none _)
    · exact fun _ _ _ => ⟨rest, remaining⟩
    · exact .called callback callback.fragments owed rfl rfl rfl rfl (by rw [withTask_self])
  · cases stepped

theorem lock_moves {first : Instruction} {catalog order : Option ℕ}
    (remaining : (system.tasks index).remaining = first :: rest) (notObserve : first ≠ .observe)
    (holders : ∀ other, other ≠ index →
      (order = some other ↔ system.observerOrder = some other))
    (follows : ∀ owes, disciplined (system.tasks index).operation.locksOrder
      (decide (system.observerOrder = some index)) owes (first :: rest) = true → ∃ still,
        (owes = true → still = true) ∧ disciplined (system.tasks index).operation.locksOrder
          (decide (order = some index)) still rest = true) :
    let next := { system with catalog, observerOrder := order }.withTask index
      (system.proceed index rest)
    Moves system next index ∧ Effect system next index := by
  obtain ⟨⟨owes, outstanding, disciplinedBefore⟩, running⟩ := holds
  rw [remaining] at disciplinedBefore
  obtain ⟨still, keeps, disciplinedAfter⟩ := follows owes disciplinedBefore
  refine ⟨moves_withTask rfl rfl holders ⟨⟨still, ?_, disciplinedAfter⟩, ?_⟩,
    passed_withTask (Keeps.refl _)⟩
  · exact fun some => keeps (outstanding some)
  · intro callback left called
    obtain ⟨_, observes⟩ := running callback left called
    rw [remaining] at observes
    exact absurd (List.cons.inj observes).1 notObserve

theorem advance_moves (stepped : system.advance maximumFileBytes index = some next) :
    Moves system next index ∧ Effect system next index := by
  unfold advance at stepped
  split at stepped
  · cases stepped
  · -- The checks before the first lock.
    rename_i rest remaining
    split at stepped
    · cases stepped
      obtain ⟨⟨owes, outstanding, follows⟩, _⟩ := holds
      simp only [remaining, disciplined, and_eq_true, not_eq_true'] at follows
      obtain ⟨⟨free, notOwes⟩, _⟩ := follows
      refine idle_moves (idle_of_not_owes outstanding notOwes) ?_
      simp [disciplined, free]
    · cases stepped
      refine lock_moves holds remaining nofun (fun _ _ => Iff.rfl) ?_
      intro owes follows
      simp only [disciplined, and_eq_true] at follows
      exact ⟨owes, id, follows.2⟩
  · rename_i rest remaining
    split at stepped
    · cases stepped
      refine lock_moves holds remaining nofun (fun _ _ => Iff.rfl) ?_
      intro owes follows
      simp only [disciplined, and_eq_true] at follows
      exact ⟨owes, id, follows.2⟩
    · cases stepped
  · rename_i rest remaining
    cases stepped
    exact lock_moves holds remaining nofun (fun _ _ => Iff.rfl)
      (fun owes follows => ⟨owes, id, follows⟩)
  · -- The order lock is free.
    rename_i rest remaining
    split at stepped
    · rename_i free
      cases stepped
      refine lock_moves holds remaining nofun ?_ ?_
      · intro other ne
        rw [free]
        simp [ne.symm]
      · intro owes follows
        simp only [disciplined, and_eq_true, not_eq_true'] at follows
        exact ⟨false, fun isOwed => follows.1.2.symm.trans isOwed, by simpa using follows.2⟩
    · cases stepped
  · -- The task holds the order lock.
    rename_i rest remaining
    cases stepped
    obtain ⟨⟨owes, _, follows⟩, _⟩ := id holds
    simp only [remaining, disciplined, and_eq_true, decide_eq_true_eq] at follows
    obtain ⟨⟨held, _⟩, _⟩ := follows
    refine lock_moves holds remaining nofun ?_ ?_
    · intro other ne
      rw [held]
      simp [ne.symm]
    · intro owes follows
      simp only [disciplined, and_eq_true, not_eq_true'] at follows
      exact ⟨false, fun isOwed => follows.1.2.symm.trans isOwed, by simpa using follows.2⟩
  · rename_i rest remaining
    cases stepped
    exact mutate_moves holds remaining
  · rename_i rest remaining
    cases stepped
    exact touch_moves holds remaining
  · rename_i rest remaining
    exact observe_moves holds remaining stepped

theorem consume_moves {callback : Callback} {left : ℕ}
    (called : (system.tasks index).outstanding = some ⟨callback, some left⟩)
    (tasks : changed.tasks = system.tasks) (order : changed.observerOrder = system.observerOrder) :
    Moves system (changed.withTask index (system.consume index callback left)) index ∧
      Keeps (system.tasks index).outstanding
        ((changed.withTask index (system.consume index callback left)).tasks
          index).outstanding := by
  obtain ⟨⟨owes, outstanding, follows⟩, running⟩ := holds
  obtain ⟨rest, remaining⟩ := running callback left called
  have isOwed : owes = true := outstanding (by rw [called]; exact Option.some_ne_none _)
  have holders (other : ℕ) (_ : other ≠ index) :
      changed.observerOrder = some other ↔ system.observerOrder = some other := by rw [order]
  rw [withTask_self]
  unfold consume
  split
  · refine ⟨moves_withTask tasks rfl holders (disciplined_idle rfl ?_), keeps_none _⟩
    simp only [remaining, disciplined, and_eq_true] at follows
    simp only [proceed, remaining, tail_cons, order]
    exact follows.2
  · refine ⟨moves_withTask tasks rfl holders ⟨⟨owes, fun _ => isOwed, ?_⟩, ?_⟩, ?_⟩
    · rw [order]
      exact follows
    · exact fun _ _ _ => ⟨rest, remaining⟩
    · rintro _ ⟨⟩
      exact ⟨_, called, rfl, by simp⟩

theorem ingest_moves {outcome : Ingest} (stepped : system.ingest index outcome = some next) :
    Moves system next index ∧ Effect system next index := by
  have stays : Moves system { system with panicked := true } index :=
    ⟨fun _ _ => rfl, rfl, fun _ _ => Iff.rfl, holds⟩
  unfold ingest at stepped
  split at stepped
  · rename_i callback left called
    split at stepped
    · cases stepped
      unfold admitCall
      split
      · rename_i backward
        exact ⟨stays, .failed callback left called backward rfl⟩
      · rename_i forward
        obtain ⟨moves, keeps⟩ := @consume_moves system index
          { system with lastEnqueuedSequence := callback.sequence } holds _ _ called rfl rfl
        exact ⟨moves, .admitted callback left called (Nat.le_of_not_lt forward) rfl rfl rfl rfl
          keeps⟩
    · cases stepped
      unfold recheck
      split
      · rename_i backward
        exact ⟨stays, .failed _ left called backward rfl⟩
      · exact ⟨⟨fun _ _ => rfl, rfl, fun _ _ => Iff.rfl, holds⟩,
          .passed (Nat.le_refl _) rfl rfl rfl (Keeps.refl _)⟩
    · cases stepped
      obtain ⟨moves, keeps⟩ := @consume_moves system index system holds _ _ called rfl rfl
      exact ⟨moves, .passed (Nat.le_refl _) rfl rfl rfl keeps⟩
    · cases stepped
  · cases stepped

end Steps

end System

end Fastdup.Posix
